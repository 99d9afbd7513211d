import ApiContract.Contract.Basic
/-!
# Coercing texts to declared kinds

Parameters arrive as texts. A text becomes an integer, a number, a flag or null where the schema
declares such a kind and not also text; arrays are coerced item by item. What does not convert stays
as it is, so that validation tells what is wrong with it.
-/

namespace ApiContract

namespace Coercion

/-- The kinds that a schema declares, by name; a nullable schema also declares null. -/
def kindsOf (schema : Json) : List String :=
  let declared := match schema.member? "type" with
    | some (.string kind) => [kind]
    | some (.array kinds) => kinds.filterMap Json.asString?
    | _ => []
  if schema.member? "nullable" = some (.bool true) then declared ++ ["null"] else declared

/-- The whole number that a text spells, if 64 bits with a sign hold it. -/
def integer? (raw : List Char) : Option Json := do
  let n ← Decimal.readInt? raw
  if -pow2 63 ≤ n && n < pow2 63 then some (Json.int n) else none

/-- The finite double that a text spells. -/
def double? (raw : List Char) : Option Json := do
  let x ← (← Decimal.read? raw).toBinary64
  some (.number (.real x))

/-- The value of a kind that a text spells. -/
def toKind? (raw : String) (kind : String) : Option Json :=
  if kind = "integer" then integer? raw.toList
  else if kind = "number" then (integer? raw.toList).or (double? raw.toList)
  else if kind = "boolean" then
    if raw = "true" then some (.bool true) else if raw = "false" then some (.bool false) else none
  else if kind = "null" && raw.isEmpty then some .null
  else none

/-- The value that a text spells under declared kinds: that of the first kind it converts to. -/
def scalar? (raw : String) (kinds : List String) : Option Json :=
  if kinds.contains "string" then none else kinds.findSome? (toKind? raw)

/-- The schema of the items, if a schema declares arrays and has one. -/
def itemsOf? (schema : Json) (kinds : List String) : Option Json :=
  if kinds.contains "array" then schema.member? "items" else none

mutual

/-- Coerce a value to a schema, once its reference is resolved. A reference that leads nowhere
leaves the value as it is. -/
def value (c : Contract) (v : Json) (schema : Json) : Json :=
  match c.resolve schema with
  | .error _ => v
  | .ok resolved =>
    let kinds := kindsOf resolved
    match v with
    | .string raw => (scalar? raw kinds).getD (.string raw)
    | .array items =>
      match itemsOf? resolved kinds with
      | some each => .array (values c items each)
      | none => .array items
    | v => v

/-- Coerce every item of an array. -/
def values (c : Contract) (items : List Json) (schema : Json) : List Json :=
  match items with
  | [] => []
  | v :: vs => value c v schema :: values c vs schema

end

/-- Coerce the declared members of a location. -/
def members (c : Contract) (values : Assoc Json) (declared : Assoc Json) : Assoc Json :=
  values.map fun e =>
    match declared.get? e.1 with
    | some schema => (e.1, value c e.2 schema)
    | none => e

end Coercion

end ApiContract
