import ApiContract.CommandLine.Arguments
import ApiContract.Contract.Loading
import ApiContract.Validator
/-!
# Running a command

A command loads a contract, checks one message against it, and reports in JSON; or it lists the
operations of the contract. What it finds around it is a value, so that a run is a function.
-/

namespace ApiContract

namespace CommandLine

/-- What a command finds around it. -/
structure Surroundings where
  environment : Environment
  /-- What a file holds, if it can be read. -/
  fileText : String → Option String
  /-- The standard input, if it is text. -/
  input : Option String

/-- Why a command cannot be carried out. -/
inductive RunError where
  | file (error : FileError)
  | contract (issues : List Issue)
  | badMethod (method : String)
  | badHeader (header : String)
  | unreadableBody (path : String)
  | unreadableInput
  | malformedBody
deriving DecidableEq, Repr

namespace RunError

def message : RunError → String
  | file error => error.message
  | contract issues => Issue.report issues
  | badMethod method => "invalid HTTP method '" ++ method ++ "'"
  | badHeader header => "header '" ++ header ++ "' must be formatted as 'name: value'"
  | unreadableBody path => "failed to read body file " ++ path
  | unreadableInput => "failed to read body from stdin"
  | malformedBody => "body is not valid JSON"

end RunError

/-- What a command prints, and whether the message keeps its contract. -/
structure Report where
  text : String
  valid : Bool
deriving DecidableEq, Repr

namespace Report

/-- A report in JSON. -/
def ofJson (v : Json) (valid : Bool) : Report := ⟨v.pretty ++ "\n", valid⟩

end Report

/-! ## What commands take -/

/-- The validator of a contract file. -/
def loadValidator (around : Surroundings) (spec : String) (config : Config) :
    Except RunError Validator := do
  let contract ← (Contract.ofFile spec (around.fileText spec)).mapError .file
  (Validator.ofContract contract config).mapError .contract

/-- A method, which is taken in upper case. -/
def readMethod (method : String) : Except RunError Method :=
  match Method.ofName? (Text.upperString method) with
  | some m => .ok m
  | none => .error (.badMethod method)

/-- Add a header, written with a colon between its name and its value. -/
def addHeader (r : Request) (header : String) : Except RunError Request :=
  match Text.splitOnce? ':' header.toList with
  | some (name, value) =>
    .ok (r.withHeader (String.ofList (Text.trim name)) (String.ofList (Text.trim value)))
  | none => .error (.badHeader header)

/-- The text of a body. -/
def bodyText (around : Surroundings) : BodySource → Except RunError String
  | .inline text => .ok text
  | .standardInput => around.input.elim (.error .unreadableInput) .ok
  | .file path => (around.fileText path).elim (.error (.unreadableBody path)) .ok

/-- A body. -/
def readBody (around : Surroundings) (source : BodySource) : Except RunError Json := do
  match Json.parse? (← bodyText around source) with
  | some v => return v
  | none => .error .malformedBody

/-- A body, if there is one. -/
def readBody? (around : Surroundings) :
    Option BodySource → Except RunError (Option Json)
  | some source => return some (← readBody around source)
  | none => return none

/-! ## Commands -/

/-- A name, filled up with blanks to a column of seven. -/
def padded (name : String) : String :=
  name ++ String.ofList (List.replicate (7 - name.length) ' ')

/-- One line for an operation. -/
def routeLine (r : Route) : String :=
  padded r.method.name ++ " " ++ r.template ++ " -> " ++ r.operationId.getD "-" ++ "\n"

/-- List the operations of a contract. -/
def listRoutes (around : Surroundings) (spec : String) : Except RunError Report := do
  let x ← loadValidator around spec {}
  return ⟨String.join (x.index.routes.map routeLine), true⟩

/-- What is reported of a request that was let through. -/
def requestReport (outcome : Outcome) (r : Request) : Report :=
  .ofJson (.ofMembers
    [("valid", .bool true), ("outcome", .string outcome.describe), ("query", .object r.query),
     ("params", .object r.params), ("headers", .object r.headers)]) true

/-- Validate a request. -/
def checkRequest (around : Surroundings) (spec method url : String) (headers : List String)
    (contentType : Option String) (body : Option BodySource) (allowUnknownQuery : Bool) :
    Except RunError Report := do
  let config := Config.ofEnvironment around.environment
  let x ← loadValidator around spec { config with
    validateRequests := true
    allowUnknownQueryParameters := config.allowUnknownQueryParameters || allowUnknownQuery }
  let r ← headers.foldlM addHeader (Request.ofTarget (← readMethod method) url)
  let r := match contentType with
    | some value => r.withHeader "content-type" value
    | none => r
  let r := { r with body := ← readBody? around body }
  match x.validateRequest x.stores r with
  | (.ok outcome, r, _) => return requestReport outcome r
  | (.error failure, _, _) => return .ofJson failure.toJson false

/-- Validate the body of a response. -/
def checkResponse (around : Surroundings) (spec method url : String) (status : Nat)
    (body : Option BodySource) : Except RunError Report := do
  let config := Config.ofEnvironment around.environment
  let x ← loadValidator around spec { config with validateResponses := true }
  let r := Request.ofTarget (← readMethod method) url
  let body := (← readBody? around body).getD .null
  match (x.validateResponse x.stores r status body).1 with
  | .ok _ =>
    return .ofJson (.ofMembers [("valid", .bool true), ("status", .int status)]) true
  | .error failure => return .ofJson failure.toJson false

namespace Command

/-- Carry out a command. -/
def run (around : Surroundings) : Command → Except RunError Report
  | .routes spec => listRoutes around spec
  | .request spec method url headers contentType body allowUnknownQuery =>
    checkRequest around spec method url headers contentType body allowUnknownQuery
  | .response spec method url status body => checkResponse around spec method url status body

/-- The files that a command reads. -/
def files : Command → List String
  | .routes spec => [spec]
  | .request spec _ _ _ _ body _ | .response spec _ _ _ body =>
    match body with
    | some (.file path) => [spec, path]
    | _ => [spec]

/-- Whether a command reads the standard input. -/
def readsInput : Command → Bool
  | .routes _ => false
  | .request _ _ _ _ _ body _ | .response _ _ _ _ body => body = some .standardInput

end Command

end CommandLine

end ApiContract
