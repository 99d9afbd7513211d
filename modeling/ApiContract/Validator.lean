import ApiContract.Request.Validation
import ApiContract.Response
import ApiContract.Route.Table
/-!
# Validators

A validator is made of one contract and its switches. It checks requests and responses, and keeps
what it builds for them in two stores, which every call takes and hands back.
-/

namespace ApiContract

/-- A validator of requests and responses. -/
structure Validator where
  contract : Contract
  index : RouteIndex
  config : Config

/-- What a validator has built so far. -/
structure Stores where
  requests : Store RequestPlan
  responses : Store ResponseValidators

namespace Validator

/-- The validator of a contract, or the issues of its routes. -/
def ofContract (contract : Contract) (config : Config) : Except (List Issue) Validator := do
  return ⟨contract, .ofRoutes (← contract.routes), config⟩

/-- The stores of a validator that has built nothing. -/
def stores (x : Validator) : Stores :=
  ⟨.empty x.config.schemaCache, .empty x.config.schemaCache⟩

def compiler (x : Validator) : Compiler := .ofContract x.contract x.config.validateFormats

/-- The part that validates requests. -/
def requests (x : Validator) : RequestValidator where
  contract := x.contract
  index := x.index
  compiler := x.compiler
  allowUnknownQueryParameters := x.config.allowUnknownQueryParameters
  coerceTypes := x.config.coerceTypes

/-- The part that validates responses. -/
def responses (x : Validator) : ResponseValidator := ⟨x.contract, x.index, x.compiler⟩

/-- Validate a request, and hand it back. -/
def validateRequest (x : Validator) (s : Stores) (r : Request) :
    Except Failure Outcome × Request × Stores :=
  if x.config.validateRequests then
    let (result, r, store) := x.requests.validate s.requests r
    (result, r, { s with requests := store })
  else (.ok .skipped, r, s)

/-- Validate the body of the response to a request, and hand it back. -/
def validateResponse (x : Validator) (s : Stores) (r : Request) (status : Nat) (body : Json) :
    Except Failure Json × Stores :=
  if x.config.validateResponses then
    let (result, store) := x.responses.validate s.responses r status body
    (result, { s with responses := store })
  else (.ok body, s)

end Validator

end ApiContract
