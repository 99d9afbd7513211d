import ApiContract.Request.Basic
import ApiContract.Route.Index
import ApiContract.Schema.Compiler
import ApiContract.Store
/-!
# Validating a response

A route has a validator for each response that it declares with a JSON schema. The response to check
against is the one for the exact status, or else for its class, or else the default. A status that
none of them covers is a gap in the contract; a response without a schema is accepted as it is.
-/

namespace ApiContract

/-- The declared responses of a route, with a validator for those that have a JSON schema. -/
structure ResponseValidators where
  entries : Assoc (Option Schema.Compiled)

namespace ResponseValidators

/-- The names under which a status may be declared, in order. -/
def namesOf (status : Nat) : List String :=
  let hundreds := toString (status / 100)
  [toString status, hundreds ++ "XX", hundreds ++ "xx", "default"]

/-- The declared response for a status, by name. -/
def select? (x : ResponseValidators) (status : Nat) : Option (String × Option Schema.Compiled) :=
  (namesOf status).findSome? fun name => (x.entries.get? name).map fun v => (name, v)

/-- How many responses are declared. -/
def size (x : ResponseValidators) : Nat := x.entries.length

def isEmpty (x : ResponseValidators) : Bool := x.entries.isEmpty

/-- How many responses have a JSON schema. -/
def validatedCount (x : ResponseValidators) : Nat := x.entries.countP (·.2.isSome)

/-- The schema under the first JSON media type of a response. -/
def schemaOf? (response : Json) : Option Json := do
  let content ← (response.member? "content").bind Json.asObject?
  let entry ← content.find? fun e => MediaType.isJson e.1
  entry.2.member? "schema"

/-- The schema of an object that holds the body of a response. -/
def wrap (schema : Json) : Json :=
  .ofMembers [("type", .string "object"), ("properties", .object [("response", schema)])]

/-- The validator of a declared response, if it has a schema. -/
def buildOne (c : Contract) (compiler : Compiler) (template : String) (response : Json) :
    Except Failure (Option Schema.Compiled) := do
  match schemaOf? (← c.resolve response) with
  | some schema => return some (← compiler.compile (wrap schema) template)
  | none => return none

/-- Build the validators of a route. -/
def build (c : Contract) (compiler : Compiler) (r : Route) : Except Failure ResponseValidators := do
  let entries ← r.responses.mapM fun e => return (e.1, ← buildOne c compiler r.template e.2)
  return ⟨entries⟩

end ResponseValidators

/-- What response validation needs of a contract. -/
structure ResponseValidator where
  contract : Contract
  index : RouteIndex
  compiler : Compiler

namespace ResponseValidator

/-- Check the body of a response with a status against the validators of a route. -/
def check (validators : ResponseValidators) (target : String) (status : Nat) (body : Json) :
    Except Failure Json :=
  match validators.select? status with
  | none => .error (.noSchemaForStatus target status)
  | some (_, none) => .ok body
  | some (_, some validator) =>
    match validator.problems (.object [("response", body)]) with
    | [] => .ok body
    | problems => .error (.responseValidation problems)

/-- The validators of a route, stored under the content type of a request or built, with the
store. -/
def findValidators (x : ResponseValidator) (store : Store ResponseValidators) (route : Route)
    (r : Request) : Except Failure ResponseValidators × Store ResponseValidators :=
  store.getOrBuild (.of r.method route.template (ContentType.ofHeaders r.headers)) fun _ =>
    ResponseValidators.build x.contract x.compiler route

/-- Validate the body of the response to a request, and hand it back with the store. -/
def validate (x : ResponseValidator) (store : Store ResponseValidators) (r : Request)
    (status : Nat) (body : Json) : Except Failure Json × Store ResponseValidators :=
  match x.index.lookup r.method r.path with
  | .matched route _ =>
    match x.findValidators store route r with
    | (.error failure, store) => (.error failure, store)
    | (.ok validators, store) => (check validators r.target status body, store)
  | _ => (.ok body, store)

end ResponseValidator

end ApiContract
