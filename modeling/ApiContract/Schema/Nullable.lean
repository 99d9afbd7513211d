import ApiContract.Json.Basic
/-!
# Nullable schemas

A schema that says `nullable: true` also accepts null. Rewriting makes this plain: the null kind is
added to `type`, and null to `enum`. The rewriting goes through every object inside a value,
whatever its place means.
-/

namespace ApiContract

namespace Schema

/-- Add the null kind to the argument of `type`. -/
def widenKinds : Json → Json
  | .string kind => .array [.string kind, .string "null"]
  | .array kinds =>
    if kinds.contains (.string "null") then .array kinds else .array (kinds ++ [.string "null"])
  | v => v

/-- Add null to the argument of `enum`. -/
def widenValues : Json → Json
  | .array values => if values.contains .null then .array values else .array (values ++ [.null])
  | v => v

/-- Widen one schema object if it is nullable. -/
def widen (members : Assoc Json) : Assoc Json :=
  if members.get? "nullable" = some (.bool true) then
    Assoc.modify (members.modify "type" widenKinds) "enum" widenValues
  else members

mutual

/-- Widen every nullable object in a value. -/
def normalize : Json → Json
  | .object members => .object (widen (normalizeMembers members))
  | .array items => .array (normalizeItems items)
  | v => v

def normalizeItems : List Json → List Json
  | [] => []
  | v :: vs => normalize v :: normalizeItems vs

def normalizeMembers : List (String × Json) → List (String × Json)
  | [] => []
  | (k, v) :: rest => (k, normalize v) :: normalizeMembers rest

end

end Schema

end ApiContract
