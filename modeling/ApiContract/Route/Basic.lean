import ApiContract.Contract.Basic
/-!
# Routes

A route is one operation of a contract: a method, a path template, and what the contract declares
for the two.
-/

namespace ApiContract

/-- One operation of a contract. -/
structure Route where
  method : Method
  /-- The path template, behind the base path of the server. -/
  template : String
  operationId : Option String
  /-- The names in braces, in order. -/
  placeholders : List String
  /-- The parameters of the path and of the operation, as they are written. -/
  parameters : List Json
  requestBody : Option Json
  responses : Assoc Json
  /-- The security requirements of the operation, when it has its own. -/
  security : Option (List Json)
deriving DecidableEq, Repr

namespace Route

/-- The security requirements in force. -/
def requirements (r : Route) (c : Contract) : List Json := r.security.getD c.security

/-- The query parameter of a security scheme, if it is one in the query. -/
def queryParameterOf? (c : Contract) (schemes : Assoc Json) (name : String) : Option String := do
  let scheme := c.resolveOr (← schemes.get? name)
  if (scheme.member? "in").bind Json.asString? = some "query" then
    (scheme.member? "name").bind Json.asString?
  else none

/-- The query parameters of the security schemes in force, each once, in order. -/
def securityQueryParameters (r : Route) (c : Contract) : List String :=
  match c.securitySchemes? with
  | none => []
  | some schemes =>
    let names := (r.requirements c).flatMap fun requirement =>
      (requirement.asObject?.getD []).filterMap fun e => queryParameterOf? c schemes e.1
    names.foldl (fun seen name => if seen.contains name then seen else seen ++ [name]) []

end Route

end ApiContract
