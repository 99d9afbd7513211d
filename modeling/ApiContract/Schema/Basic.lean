import ApiContract.Pattern.Basic
import ApiContract.Schema.Kind
/-!
# Schemas

A schema accepts every value, or none, or those that satisfy each of its keywords. The keywords
stand in the order of their names, which is the order in which violations are told. Reading turns
the text of a schema into this form once, so that a keyword holds what it needs: a pattern is
parsed, and the keywords that act together are one.
-/

namespace ApiContract

namespace Schema

/-- A bound on a number. -/
inductive Bound where
  | minimum
  | maximum
  | exclusiveMinimum
  | exclusiveMaximum
deriving DecidableEq, Repr

namespace Bound

def word : Bound → String
  | minimum => "minimum"
  | maximum => "maximum"
  | exclusiveMinimum => "exclusiveMinimum"
  | exclusiveMaximum => "exclusiveMaximum"

/-- Whether a number keeps the bound. -/
def admits (limit : Number) (n : Number) : Bound → Bool
  | minimum => limit.value ≤ n.value
  | maximum => n.value ≤ limit.value
  | exclusiveMinimum => limit.value < n.value
  | exclusiveMaximum => n.value < limit.value

end Bound

/-- What a size limit counts. -/
inductive Measure where
  | characters
  | items
  | properties
deriving DecidableEq, Repr

namespace Measure

/-- The size of a value, if it is of the kind that is counted. -/
def of? : Measure → Json → Option Nat
  | characters, .string s => some s.toList.length
  | items, .array vs => some vs.length
  | properties, .object members => some members.length
  | _, _ => none

/-- A number of the things that are counted. -/
def amount (n : Nat) : Measure → String
  | characters => toString n ++ (if n = 1 then " character" else " characters")
  | items => toString n ++ (if n = 1 then " item" else " items")
  | properties => toString n ++ (if n = 1 then " property" else " properties")

/-- The keyword for a lower or an upper limit. -/
def word (upper : Bool) : Measure → String
  | characters => if upper then "maxLength" else "minLength"
  | items => if upper then "maxItems" else "minItems"
  | properties => if upper then "maxProperties" else "minProperties"

end Measure

/-- A pattern with its text. -/
structure NamedPattern where
  text : String
  pattern : Pattern
deriving DecidableEq, Repr

end Schema

mutual

/-- A schema. -/
inductive Schema where
  /-- Every value. -/
  | always
  /-- No value. -/
  | never
  /-- The values that satisfy each keyword. -/
  | node (keywords : List Keyword)

/-- A keyword with its arguments. -/
inductive Keyword where
  /-- The schema that a reference leads to. -/
  | reference (target : String)
  /-- One of some kinds. -/
  | kind (kinds : List Kind)
  /-- One of some values. -/
  | oneOfValues (values : List Json)
  | constant (value : Json)
  | bound (bound : Schema.Bound) (limit : Number)
  | size (measure : Schema.Measure) (upper : Bool) (limit : Nat)
  | multipleOf (divisor : Number)
  | pattern (pattern : Schema.NamedPattern)
  | format (name : String)
  | required (names : List String)
  | uniqueItems
  /-- Schemas for properties of some names. -/
  | properties (declared : List (String × Schema))
  /-- Schemas for properties whose names match a pattern. -/
  | patternProperties (matching : List (Schema.NamedPattern × Schema))
  /-- Schemas for properties by name and by pattern, and one for those that neither covers. -/
  | partition (declared : List (String × Schema))
      (matching : List (Schema.NamedPattern × Schema)) (others : Schema)
  /-- Schemas for properties by name and by pattern, and no further properties. -/
  | closed (declared : List (String × Schema)) (matching : List (Schema.NamedPattern × Schema))
  /-- No properties at all, told of the first one. -/
  | noProperties
  /-- A schema for the names of the properties. -/
  | propertyNames (names : Schema)
  /-- No properties at all, told of the object. -/
  | noPropertyNames
  /-- A schema for the items from an index on. -/
  | items (start : Nat) (each : Schema)
  /-- Schemas for the items one by one, under the keyword given. -/
  | tuple (word : String) (schemas : List Schema)
  /-- A schema for the items behind a tuple. -/
  | additionalItems (start : Nat) (each : Schema)
  /-- No items behind a tuple. -/
  | noAdditionalItems (start : Nat)
  /-- At least and at most so many items of a schema. -/
  | contains (each : Schema) (least most : Option Nat)
  | allOf (branches : List Schema)
  | anyOf (branches : List Schema)
  | oneOf (branches : List Schema)
  /-- No value of a schema; its text is kept for the message. -/
  | not (text : Json) (schema : Schema)
  | conditional (condition consequence alternative : Schema)
  /-- Names that are required beside a property, under the keyword given. -/
  | dependentNames (word property : String) (names : List String)
  /-- A schema for objects that have a property, under the keyword given. -/
  | dependentSchema (word property : String) (schema : Schema)
  /-- A schema for the items that no other keyword covers. -/
  | unevaluatedItems (each : Schema)
  /-- A schema for the properties that no other keyword covers. -/
  | unevaluatedProperties (each : Schema)

end

instance : Inhabited Schema := ⟨.always⟩

instance : Inhabited Keyword := ⟨.uniqueItems⟩

end ApiContract
