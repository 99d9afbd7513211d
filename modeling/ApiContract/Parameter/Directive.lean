import ApiContract.Json.Parser
import ApiContract.Parameter.Location
import ApiContract.Text.Split
/-!
# Directives

A directive reshapes the raw value of one parameter before it is validated. Decoding comes before
splitting and splitting before wrapping, so that an encoded array is never split.
-/

namespace ApiContract

/-- What a directive does with a value. -/
inductive Reshape where
  /-- Decode a JSON text. -/
  | parseJson
  /-- Split a text at a delimiter. -/
  | splitArray (delimiter : Char)
  /-- Make a single value an array. -/
  | wrapSingle
deriving DecidableEq, Repr

namespace Reshape

def name : Reshape → String
  | parseJson => "parseJson"
  | splitArray _ => "splitArray"
  | wrapSingle => "wrapSingleAsArray"

/-- The place in the order of application. -/
def rank : Reshape → Nat
  | parseJson => 0
  | splitArray _ => 1
  | wrapSingle => 2

def delimiter? : Reshape → Option Char
  | splitArray delimiter => some delimiter
  | _ => none

/-- The pieces of a text between delimiters. -/
def split (delimiter : Char) (s : String) : List Json :=
  (Text.splitOn delimiter s.toList).map fun piece => .string (String.ofList piece)

/-- The new value, if there is one. Every text in an array is split in its place. -/
def convert? : Reshape → Json → Option Json
  | parseJson, .string raw => Json.parse? raw
  | splitArray delimiter, .string raw => some (.array (split delimiter raw))
  | splitArray delimiter, .array items =>
    some (.array (items.flatMap fun
      | .string raw => split delimiter raw
      | other => [other]))
  | wrapSingle, .array _ => none
  | wrapSingle, other => some (.array [other])
  | _, _ => none

end Reshape

/-- A directive for the parameter of a name in a location. -/
structure Directive where
  reshape : Reshape
  name : String
  location : Location
deriving DecidableEq, Repr

namespace Directive

/-- Directives in the order in which they are applied; those of one rank keep their order. -/
def inOrder (ds : List Directive) : List Directive :=
  ds.filter (·.reshape.rank == 0) ++ ds.filter (·.reshape.rank == 1) ++
    ds.filter (·.reshape.rank == 2)

/-- Whether a value was supplied: it is neither null nor the empty text. -/
def isPresent : Option Json → Bool
  | none => false
  | some .null => false
  | some (.string s) => !s.isEmpty
  | some _ => true

/-- Apply a directive to the values of its location. -/
def applyIn (d : Directive) (values : Assoc Json) : Assoc Json :=
  match values.get? d.name with
  | none => values
  | some v =>
    if isPresent (some v) then
      match d.reshape.convert? v with
      | some w => values.insert d.name w
      | none => values
    else values

end Directive

end ApiContract
