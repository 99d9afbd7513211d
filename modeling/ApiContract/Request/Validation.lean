import ApiContract.Coercion
import ApiContract.Config
import ApiContract.Request.Basic
import ApiContract.Request.Synthesis
import ApiContract.Route.Index
import ApiContract.Schema.Compiler
import ApiContract.Store
import ApiContract.Text.Shown
/-!
# Validating a request

A request is checked in this order: its route is looked up; the plan of the route and content type
is taken from the store or built; its query is read afresh from the target, and must hold no key
that is not declared; the directives reshape the fresh query and the values of the host; the values
are coerced; and all together are judged by the schema of the plan. On success the declared values
are written back as they were judged.
-/

namespace ApiContract

/-- What is built for a method, a route and a content type. -/
structure RequestPlan where
  schema : RequestSchema
  validator : Schema.Compiled
  /-- The query parameters of the security schemes, which need not be declared. -/
  securityQueryParameters : List String

namespace RequestPlan

/-- Build the plan of a route for a content type. -/
def build (c : Contract) (compiler : Compiler) (r : Route) (contentType : ContentType) :
    Except Failure RequestPlan := do
  let schema ← RequestSchema.synthesize c r contentType
  let validator ← compiler.compile schema.toSchema r.template
  return ⟨schema, validator, r.securityQueryParameters c⟩

/-- Whether a key may occur in a query. -/
def admits (plan : RequestPlan) (key : String) : Bool :=
  plan.schema.locations.query.declares key || plan.securityQueryParameters.contains key

end RequestPlan

/-- What became of a request that did not fail. -/
inductive Outcome where
  /-- It keeps the contract of the route with this template. -/
  | validated (template : String)
  /-- The contract does not describe its path. -/
  | unmanaged
  /-- Requests are not validated. -/
  | skipped
deriving DecidableEq, Repr

namespace Outcome

/-- The outcome in one line. -/
def describe : Outcome → String
  | validated template => "Validated \x7b route: " ++ Text.shown template ++ " \x7d"
  | unmanaged => "Unmanaged"
  | skipped => "Skipped"

end Outcome

/-- What request validation needs of a contract. -/
structure RequestValidator where
  contract : Contract
  index : RouteIndex
  compiler : Compiler
  allowUnknownQueryParameters : Bool
  coerceTypes : Bool

namespace RequestValidator

/-- The least key of a query that a plan does not admit. -/
def unknownKey? (plan : RequestPlan) (query : Assoc Json) : Option String :=
  query.keys.find? fun key => !plan.admits key

/-- Path parameters replace those of the host, if the route has any. -/
def takeParams (r : Request) (params : Assoc String) : Request :=
  if params.isEmpty then r
  else { r with params := params.map fun e => (e.1, .string e.2) }

/--
Apply a directive to the fresh query and to the values of the host. Where both hold the same value
for a query parameter it is reshaped once, for both.
-/
def applyDirective (state : Assoc Json × Request) (d : Directive) : Assoc Json × Request :=
  let (query, r) := state
  let inHost := r.modifyValues d.applyIn d.location
  if d.location = .query && Directive.isPresent (query.get? d.name) then
    match query.get? d.name, r.query.get? d.name with
    | some v, some w =>
      if v.same w then
        match d.reshape.convert? v with
        | some x => (query.insert d.name x, { r with query := r.query.insert d.name x })
        | none => (query, r)
      else (d.applyIn query, inHost)
    | _, _ => (d.applyIn query, inHost)
  else (query, inHost)

/-- Apply directives one after the other. -/
def applyDirectives (ds : List Directive) (query : Assoc Json) (r : Request) :
    Assoc Json × Request :=
  ds.foldl applyDirective (query, r)

/-- The cookies to judge: the plain ones, and over them the signed ones. -/
def cookiesOf (r : Request) : Assoc Json :=
  (r.cookies.getD []).insertAll (r.signedCookies.getD [])

/-- The values to judge, by location. -/
def valuesOf (query : Assoc Json) (r : Request) : PerLocation (Assoc Json) :=
  ⟨query, r.headers, r.params, cookiesOf r⟩

/-- Coerce the declared values of each location. -/
def coerced (x : RequestValidator) (schema : RequestSchema) (values : PerLocation (Assoc Json)) :
    PerLocation (Assoc Json) :=
  if x.coerceTypes then
    .zipWith (fun values declared => Coercion.members x.contract values declared.properties)
      values schema.locations
  else values

/-- The value that is judged. -/
def instanceOf (values : PerLocation (Assoc Json)) (body : Option Json) : Json :=
  .ofMembers <|
    [("query", .object values.query), ("headers", .object values.headers),
     ("params", .object values.params), ("cookies", .object values.cookies)] ++
      (body.map fun v => ("body", v)).toList

/-- Write the value of one name over that of the host, if there is one. -/
def overwriteOne (judged host : Assoc Json) (name : String) : Assoc Json :=
  match judged.get? name with
  | some v => host.insert name v
  | none => host

/-- Write declared values over those of the host, name by name. -/
def overwrite (declared : LocationSchema) (judged host : Assoc Json) : Assoc Json :=
  declared.properties.keys.foldl (overwriteOne judged) host

/-- Write declared values back; a cookie is written only where the host has it. -/
def writeBack (schema : RequestSchema) (judged : PerLocation (Assoc Json)) (r : Request) :
    Request :=
  { r with
    query := overwrite schema.locations.query judged.query r.query
    headers := overwrite schema.locations.headers judged.headers r.headers
    params := overwrite schema.locations.params judged.params r.params
    cookies := r.cookies.map fun host =>
      overwrite schema.locations.cookies (judged.cookies.filter fun e => host.contains e.1) host }

/-- The values that are judged under a plan, and the request as the directives leave it. -/
def prepare (x : RequestValidator) (plan : RequestPlan) (params : Assoc String) (r : Request) :
    PerLocation (Assoc Json) × Request :=
  let (query, r) :=
    applyDirectives plan.schema.directives (Query.parse r.target) (takeParams r params)
  (x.coerced plan.schema (valuesOf query r), r)

/-- The key for which a query is refused, unless keys need not be declared. -/
def refusedKey? (x : RequestValidator) (plan : RequestPlan) (r : Request) : Option String :=
  if x.allowUnknownQueryParameters then none else unknownKey? plan (Query.parse r.target)

/-- Check a request against the plan of its route, and hand it back. -/
def check (x : RequestValidator) (plan : RequestPlan) (template : String)
    (params : Assoc String) (r : Request) : Except Failure Outcome × Request :=
  match x.refusedKey? plan r with
  | some key => (.error (.unknownQueryParameter key), r)
  | none =>
    let (values, r) := x.prepare plan params r
    match plan.validator.problems (instanceOf values r.body) with
    | [] => (.ok (.validated template), writeBack plan.schema values r)
    | problems => (.error (.schemaValidation problems), r)

/-- The plan of a route for the content type of a request, stored or built, with the store. -/
def findPlan (x : RequestValidator) (store : Store RequestPlan) (route : Route) (r : Request) :
    Except Failure RequestPlan × Store RequestPlan :=
  let contentType := ContentType.ofHeaders r.headers
  store.getOrBuild (.of r.method route.template contentType) fun _ =>
    RequestPlan.build x.contract x.compiler route contentType

/-- Validate a request, and hand it back with the store. -/
def validate (x : RequestValidator) (store : Store RequestPlan) (r : Request) :
    Except Failure Outcome × Request × Store RequestPlan :=
  match x.index.lookup r.method r.path with
  | .unmanaged => (.ok .unmanaged, r, store)
  | .methodNotAllowed _ => (.error (.methodNotAllowed r.path r.method), r, store)
  | .matched route params =>
    match x.findPlan store route r with
    | (.error failure, store) => (.error failure, r, store)
    | (.ok plan, store) =>
      let (result, r) := x.check plan route.template params r
      (result, r, store)

end RequestValidator

end ApiContract
