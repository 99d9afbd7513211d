import ApiContract.Http.Method
import ApiContract.Schema.Violation
/-!
# Failures

A message that breaks its contract, or a contract that cannot be applied to it, is answered with a
failure. Each constructor is a cause; the kind of the failure, its status and its wording are
functions of the cause. `Failure.toJson` is the body that a client gets.
-/

namespace ApiContract

/-! ## Problems -/

/-- One thing that is wrong: where, what, and a code if a keyword of a schema is violated. -/
structure Problem where
  path : String
  message : String
  code : Option String
deriving DecidableEq, Repr

namespace Problem

/-- The code for a keyword. -/
def codeOf (keyword : String) : String := keyword ++ ".openapi.validation"

/-- A problem of a keyword. -/
def ofKeyword (path message keyword : String) : Problem := ⟨path, message, some (codeOf keyword)⟩

/-- The keyword at the end of a path through a schema: the last segment that is not an index. -/
def keywordOf (schemaPath : List String) : String :=
  match (schemaPath.map fun s => Pointer.escape s.toList).reverse.find?
      fun s => !s.isEmpty && !Pointer.isIndex s with
  | some s => String.ofList s
  | none => "schema"

/-- The path of a violation: the data path, with the name of a property that is missing or of the
first one that is unexpected, or else the path through the schema. -/
def pathOf (x : Schema.Violation) : String :=
  let base := Pointer.dotted (x.place.value.map String.toList)
  let path := match x.cause with
    | .missing name => base ++ "." ++ name
    | .unexpectedProperties (first :: _) => base ++ "." ++ first
    | _ => base
  if path.isEmpty then Pointer.render x.place.schema else path

/-- The wording of a violation: a list of allowed values is given in full. -/
def messageOf (x : Schema.Violation) : String :=
  match x.cause with
  | .notListed values =>
    x.value.compress ++ " is not one of the allowed values: " ++
      String.intercalate ", " (values.map Json.display)
  | _ => x.message

/-- The problem of a violation. -/
def ofViolation (x : Schema.Violation) : Problem :=
  .ofKeyword (pathOf x) (messageOf x) (keywordOf x.place.schema)

def toJson (x : Problem) : Json :=
  .ofMembers <|
    [("path", .string x.path), ("message", .string x.message)] ++
      (x.code.map fun code => ("errorCode", .string code)).toList

end Problem

/-! ## Faults of a contract -/

/-- Why a contract cannot be applied. -/
inductive ContractFault where
  /-- A reference out of the document. -/
  | foreignReference (reference : String)
  /-- A reference to a place that does not exist. -/
  | danglingReference (reference : String)
  | parameterNotObject
  | parameterUnnamed
  /-- A parameter whose `content` has not exactly one entry. -/
  | parameterContent (name : String)
  | parameterLocation (location name : String)
  /-- A parameter with neither `schema` nor `content`. -/
  | parameterUntyped (name : String)
  | parameterStyle (style name : String)
  /-- A fault in words. -/
  | other (text : String)
deriving DecidableEq, Repr

namespace ContractFault

def message : ContractFault → String
  | foreignReference reference =>
    "only local references are supported, found '" ++ reference ++ "'"
  | danglingReference reference => "unresolved $ref '" ++ reference ++ "'"
  | parameterNotObject => "Parameter definition must be an object"
  | parameterUnnamed => "Parameter is missing 'name'"
  | parameterContent name =>
    "Parameter 'content' must contain exactly one entry for [" ++ name ++ "]"
  | parameterLocation location name =>
    "Parameter 'in' has incorrect value '" ++ location ++ "' for [" ++ name ++ "]"
  | parameterUntyped name => "No available parameter 'schema' or 'content' for [" ++ name ++ "]"
  | parameterStyle style name =>
    "Parameter 'style' has incorrect value '" ++ style ++ "' for [" ++ name ++ "]"
  | other text => text

end ContractFault

/-! ## Failures -/

/-- Why a message is not let through. -/
inductive Failure where
  | contractShape (path : String) (fault : ContractFault)
  /-- The route declares no body of the content type, or the request names none. -/
  | unsupportedMediaType (path : String) (contentType : Option String)
  | methodNotAllowed (path : String) (method : Method)
  | unknownQueryParameter (name : String)
  /-- A request that breaks the schema of its route. -/
  | schemaValidation (problems : List Problem)
  /-- A response with a status that the route does not declare. -/
  | noSchemaForStatus (path : String) (status : Nat)
  /-- A response that breaks its schema. -/
  | responseValidation (problems : List Problem)
  /-- A schema of the contract that cannot be compiled. -/
  | schemaCompilation (path : String) (text : String)
deriving DecidableEq, Repr

namespace Failure

/-- The name of the kind of a failure. -/
def kind : Failure → String
  | contractShape .. => "ContractShape"
  | unsupportedMediaType .. => "UnsupportedMediaType"
  | methodNotAllowed .. => "MethodNotAllowed"
  | unknownQueryParameter .. => "UnknownQueryParameter"
  | schemaValidation .. => "SchemaValidation"
  | noSchemaForStatus .. => "NoSchemaForStatus"
  | responseValidation .. => "ResponseValidation"
  | schemaCompilation .. => "SchemaCompilation"

/-- The status that answers a failure. -/
def status : Failure → Nat
  | contractShape .. => 400
  | unsupportedMediaType .. => 415
  | methodNotAllowed .. => 405
  | unknownQueryParameter .. => 400
  | schemaValidation .. => 400
  | noSchemaForStatus .. => 500
  | responseValidation .. => 500
  | schemaCompilation .. => 500

/-- Whether the server is to blame. -/
def isServerError (f : Failure) : Bool := 500 ≤ f.status

/-- The problems in a row, each behind its path; `subject` names what the paths lead into. -/
def summary (subject : String) (problems : List Problem) : String :=
  String.intercalate ", " (problems.map fun x => subject ++ x.path ++ ": " ++ x.message)

/-- The wording of a failure. -/
def message : Failure → String
  | contractShape _ fault => fault.message
  | unsupportedMediaType _ (some contentType) => "unsupported media type " ++ contentType
  | unsupportedMediaType _ none => "media type not specified"
  | methodNotAllowed _ method => method.name ++ " method not allowed"
  | unknownQueryParameter name => "Unknown query parameter '" ++ name ++ "'"
  | schemaValidation problems => summary "request" problems
  | noSchemaForStatus _ status =>
    "no schema defined for status code '" ++ toString status ++ "' in the openapi spec"
  | responseValidation problems => summary "" problems
  | schemaCompilation _ text => text

/-- The problems of a failure: those of a schema, or the one that is its wording. -/
def problems : Failure → List Problem
  | schemaValidation problems => problems
  | responseValidation problems => problems
  | unknownQueryParameter name =>
    [⟨".query." ++ name, message (unknownQueryParameter name), none⟩]
  | contractShape path fault => [⟨path, fault.message, none⟩]
  | unsupportedMediaType path contentType =>
    [⟨path, message (unsupportedMediaType path contentType), none⟩]
  | methodNotAllowed path method => [⟨path, message (methodNotAllowed path method), none⟩]
  | noSchemaForStatus path status => [⟨path, message (noSchemaForStatus path status), none⟩]
  | schemaCompilation path text => [⟨path, text, none⟩]

/-- A failure in one line. -/
def describe (f : Failure) : String :=
  f.kind ++ " (" ++ toString f.status ++ "): " ++ f.message

/-- The body that answers a failure. -/
def toJson (f : Failure) : Json :=
  .ofMembers
    [("status", .int f.status), ("message", .string f.message),
     ("errors", .array (f.problems.map Problem.toJson))]

/-- Results that may fail can be compared. -/
instance {α : Type} [DecidableEq α] : DecidableEq (Except Failure α)
  | .ok a, .ok b => decidable_of_iff (a = b) (by simp)
  | .error f, .error g => decidable_of_iff (f = g) (by simp)
  | .ok _, .error _ => isFalse nofun
  | .error _, .ok _ => isFalse nofun

end Failure

end ApiContract
