import ApiContract.Json.Pointer
import ApiContract.Schema.Judge
import ApiContract.Schema.Metaschema
import ApiContract.Schema.Reading
import ApiContract.Url.Percent
/-!
# Compiled schemas

A compiled schema is a schema with a definition for every reference in it. Compiling checks the
document against the metaschema, reads it, and follows the references in the order they are met;
the first fault refuses the document.

A compiled schema judges a value by following its definitions. A reference that leads back to
itself without entering a part of the value adds nothing, so judging ends: on the way through one
value each reference is followed once, and a value is only so deep.
-/

namespace ApiContract

namespace Schema

/-! ## Depth -/

mutual

/-- How deeply a value nests. -/
def depth : Json → Nat
  | .array items => depthOfItems items + 1
  | .object members => depthOfMembers members + 1
  | _ => 0

def depthOfItems : List Json → Nat
  | [] => 0
  | v :: vs => max (depth v) (depthOfItems vs)

def depthOfMembers : List (String × Json) → Nat
  | [] => 0
  | (_, v) :: rest => max (depth v) (depthOfMembers rest)

end

/-! ## Judging -/

/-- A schema with a definition for each reference. -/
structure Compiled where
  dialect : Dialect
  schema : Schema
  definitions : Assoc Schema

namespace Compiled

/-- Judge by a reference, given the references that were followed at the same value. `fuel` bounds
the references followed in a row. -/
def follow (c : Compiled) :
    Nat → List String → String → Place → Json → Verdict
  | 0, _, _, _, _ => {}
  | fuel + 1, followed, target, p, v =>
    if followed.contains target then {}
    else match c.definitions.get? target with
      | none => {}
      | some s =>
        judge ⟨c.dialect, follow c fuel (target :: followed), follow c fuel []⟩ p v s

/-- More references than can be followed in a row while judging a value. -/
def followBound (c : Compiled) (v : Json) : Nat := (c.definitions.length + 1) * (depth v + 2)

/-- Judge a value. -/
def verdict (c : Compiled) (v : Json) : Verdict :=
  let follow := c.follow (c.followBound v) []
  judge ⟨c.dialect, follow, follow⟩ .root v c.schema

/-- The violations of a value, depth first. -/
def violations (c : Compiled) (v : Json) : List Violation := (c.verdict v).violations

/-- Whether a value has no violation. -/
def accepts (c : Compiled) (v : Json) : Bool := (c.verdict v).accepted

end Compiled

/-- The metaschema of a dialect. -/
def metaschema : Dialect → Compiled
  | .draft4 => ⟨.draft4, Metaschema.draft4, [("#", Metaschema.draft4)]⟩
  | .draft2020 => ⟨.draft2020, Metaschema.draft2020, [("#", Metaschema.draft2020)]⟩

/-! ## References -/

/-- An array index in a reference: digits after an optional plus sign, below two to the 64. -/
def referenceIndex? (segment : List Char) : Option Nat :=
  let digits := match segment with
    | '+' :: ds => ds
    | ds => ds
  if digits.isEmpty || !digits.all Char.isDigit then none
  else
    let n := Decimal.ofDigits digits
    if n < pow2 64 then some n else none

/-- One step of a pointer. -/
def referenceStep (pointer : String) (v : Json) (segment : List Char) : Except Fault Json :=
  match v with
  | .array items =>
    match referenceIndex? segment with
    | none => .error (.badIndex (String.ofList segment) pointer)
    | some n =>
      match items[n]? with
      | some w => .ok w
      | none => .error (.noTarget pointer)
  | _ =>
    match v.member? (String.ofList (Pointer.unescape segment)) with
    | some w => .ok w
    | none => .error (.noTarget pointer)

/-- The part of a document that a fragment names: the whole document for the empty fragment, a
pointer with escapes, or an anchor. -/
def resolveFragment (root : Json) (fragment : List Char) : Except Fault Json :=
  match fragment with
  | [] => .ok root
  | '/' :: cs =>
    let pointer := String.ofList fragment
    match Utf8.decode? (Percent.decode (Utf8.encode cs)) with
    | none => .error (.badEscapes pointer)
    | some decoded => (Text.splitOn '/' decoded).foldlM (referenceStep pointer) root
  | _ => .error (.noAnchor (String.ofList fragment))

/-- The part of a document that a reference names. -/
def resolveReference (root : Json) (target : String) : Except Fault Json :=
  match target.toList with
  | [] => .ok root
  | '#' :: fragment => resolveFragment root fragment
  | _ => .error (.foreign target)

/-! ## Compiling -/

/-- Follow a reference unless it was followed before: read its target and follow what that meets.
`fuel` bounds the references on the way; each is followed once. -/
def define (dialect : Dialect) (formats : Bool) (root : Json) :
    Nat → Assoc Schema → Event → Except Fault (Assoc Schema)
  | _, _, .fault fault => .error fault
  | 0, defined, .reference _ => .ok defined
  | fuel + 1, defined, .reference target =>
    if defined.contains target then .ok defined
    else do
      let reading := read dialect formats (← resolveReference root target)
      let defined := defined.insert target reading.result
      reading.events.foldlM (define dialect formats root fuel) defined

mutual

/-- How many members called `$ref` a value holds. -/
def countReferences : Json → Nat
  | .array items => countReferencesOfItems items
  | .object members => countReferencesOfMembers members
  | _ => 0

def countReferencesOfItems : List Json → Nat
  | [] => 0
  | v :: vs => countReferences v + countReferencesOfItems vs

def countReferencesOfMembers : List (String × Json) → Nat
  | [] => 0
  | (k, v) :: rest =>
    (if k = "$ref" then 1 else 0) + countReferences v + countReferencesOfMembers rest

end

/-- Compile a document that is known to satisfy the metaschema. -/
def link (dialect : Dialect) (formats : Bool) (root : Json) : Except Fault Compiled := do
  let reading := read dialect formats root
  let fuel := countReferences root + 1
  let defined ← reading.events.foldlM (define dialect formats root fuel) []
  return ⟨dialect, reading.result, defined⟩

/-- Compile a document. -/
def compile (dialect : Dialect) (formats : Bool) (root : Json) : Except Fault Compiled :=
  match (metaschema dialect).violations root with
  | x :: _ => .error (.malformed x.value x.cause)
  | [] => link dialect formats root

end Schema

end ApiContract
