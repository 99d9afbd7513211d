import ApiContract.Json.Basic
/-!
# Dialects and kinds of values

A contract is read in one of two dialects of the schema language. The dialects know different
keywords and formats, and differ on what an integer is.
-/

namespace ApiContract

/-- A dialect of the schema language. -/
inductive Dialect where
  /-- Draft 4: integers are written as such, and the siblings of a reference do not count. -/
  | draft4
  /-- The dialect of 2020-12: a double may be an integer, and the siblings of a reference count. -/
  | draft2020
deriving DecidableEq, Repr

/-- The kinds of values that a schema can ask for, in the order of their names. -/
inductive Kind where
  | array
  | boolean
  | integer
  | null
  | number
  | object
  | string
deriving DecidableEq, Repr

namespace Kind

/-- The kinds in the order of their names. -/
def all : List Kind := [.array, .boolean, .integer, .null, .number, .object, .string]

def name : Kind → String
  | .array => "array"
  | .boolean => "boolean"
  | .integer => "integer"
  | .null => "null"
  | .number => "number"
  | .object => "object"
  | .string => "string"

/-- The kind of a name. -/
def ofName? (name : String) : Option Kind := all.find? (·.name == name)

/-- Whether a value is of a kind. -/
def has (dialect : Dialect) : Kind → Json → Bool
  | .array, .array _ => true
  | .boolean, .bool _ => true
  | .integer, .number n => match dialect with
    | .draft4 => n.isInt
    | .draft2020 => n.isIntegral
  | .null, .null => true
  | .number, .number _ => true
  | .object, .object _ => true
  | .string, .string _ => true
  | _, _ => false

end Kind

end ApiContract
