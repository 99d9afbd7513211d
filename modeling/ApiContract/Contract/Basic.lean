import ApiContract.Failure
import ApiContract.Schema.Kind
import ApiContract.Text.Split
/-!
# Contracts

A contract is a document of version 3 whose root is an object. It does not change once it is
loaded. References lead from one part of it to another, one step at a time.
-/

namespace ApiContract

/-- A contract. -/
structure Contract where
  root : Assoc Json
  version : String
deriving DecidableEq, Repr

/-- Why a document is no contract. -/
inductive LoadError where
  | notObject
  | noVersion
  | unsupportedVersion (version : String)
  /-- The text is not well formed. -/
  | malformed
  /-- A key that is neither text, number nor flag; the argument describes it. -/
  | unsupportedKey (key : String)
deriving DecidableEq, Repr

namespace LoadError

def message : LoadError → String
  | notObject => "OpenAPI document root must be an object"
  | noVersion => "OpenAPI document is missing the 'openapi' version field"
  | unsupportedVersion version =>
    "unsupported OpenAPI version: " ++ version ++ " (only 3.x supported)"
  | malformed => "failed to parse OpenAPI document"
  | unsupportedKey key => "unsupported mapping key in OpenAPI document: " ++ key

end LoadError

namespace Contract

/-- Take a document for a contract. -/
def ofJson (v : Json) : Except LoadError Contract :=
  match v with
  | .object root =>
    match (Assoc.get? root "openapi").bind Json.asString? with
    | none => .error .noVersion
    | some version =>
      if (Text.strip? "3.".toList version.toList).isSome then .ok ⟨root, version⟩
      else .error (.unsupportedVersion version)
  | _ => .error .notObject

/-- The whole document. -/
def document (c : Contract) : Json := .object c.root

/-- Whether the contract is of version 3.1. -/
def isRecent (c : Contract) : Bool := (Text.strip? "3.1".toList c.version.toList).isSome

/-- The dialect of the schemas in the contract. -/
def dialect (c : Contract) : Dialect := if c.isRecent then .draft2020 else .draft4

def title (c : Contract) : String :=
  ((c.root.get? "info").bind fun info => (info.member? "title").bind Json.asString?).getD ""

def components? (c : Contract) : Option Json := c.root.get? "components"

def paths? (c : Contract) : Option (Assoc Json) := (c.root.get? "paths").bind Json.asObject?

/-- The security requirements of the whole contract. -/
def security (c : Contract) : List Json := ((c.root.get? "security").bind Json.asArray?).getD []

def securitySchemes? (c : Contract) : Option (Assoc Json) :=
  c.components?.bind fun v => (v.member? "securitySchemes").bind Json.asObject?

/-- The address of the first server. -/
def serverUrl? (c : Contract) : Option String := do
  let servers ← (c.root.get? "servers").bind Json.asArray?
  let first ← servers.head?
  (first.member? "url").bind Json.asString?

/-! ## References -/

/-- The part of the contract that a reference leads to. -/
def resolveReference (c : Contract) (reference : String) : Except Failure Json :=
  match reference.toList with
  | '#' :: pointer =>
    match Pointer.find? c.document pointer with
    | some v => .ok v
    | none => .error (.contractShape reference (.danglingReference reference))
  | _ => .error (.contractShape reference (.foreignReference reference))

/-- The reference in a value, if it has one. -/
def referenceOf? (v : Json) : Option String := (v.member? "$ref").bind Json.asString?

/-- A value, or what it refers to; the target is not resolved any further. -/
def resolve (c : Contract) (v : Json) : Except Failure Json :=
  match referenceOf? v with
  | some reference => c.resolveReference reference
  | none => .ok v

/-- What a value refers to, or the value itself when that does not exist. -/
def resolveOr (c : Contract) (v : Json) : Json :=
  match c.resolve v with
  | .ok target => target
  | .error _ => v

end Contract

end ApiContract
