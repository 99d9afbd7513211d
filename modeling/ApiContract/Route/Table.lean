import ApiContract.Route.Basic
import ApiContract.Route.Template
import ApiContract.Url.Server
/-!
# The routes of a contract

Every operation under `paths` makes a route. Parameters of the path apply to each of its
operations, which may replace them by name and location. What is malformed is collected as issues,
and any issue refuses the contract.
-/

namespace ApiContract

/-- Something malformed in a contract. -/
structure Issue where
  location : String
  kind : String
  message : String
deriving DecidableEq, Repr

namespace Issue

/-- Issues in words, one a line. -/
def report (issues : List Issue) : String :=
  "OpenAPI contract is invalid. " ++ toString issues.length ++ " issue(s) found:\n" ++
    String.intercalate "\n"
      (issues.map fun x => "[" ++ x.kind ++ "] " ++ x.location ++ ": " ++ x.message)

/-- Fail when there are issues. -/
def failIfAny (issues : List Issue) : Except (List Issue) Unit :=
  if issues.isEmpty then .ok () else .error issues

end Issue

namespace Contract

/-- The path of the first server, without slashes at its end. -/
def basePath (c : Contract) : String :=
  match c.serverUrl? with
  | none => ""
  | some url =>
    match ServerUrl.path? url.toList with
    | some path => String.ofList (Text.dropEnd (· = '/') path)
    | none => ""

/-! ## Parameters -/

/-- The name and the location of a parameter, once its reference is resolved. -/
def parameterKey? (c : Contract) (parameter : Json) : Option (String × String) := do
  let resolved ← (c.resolve parameter).toOption
  let name ← (resolved.member? "name").bind Json.asString?
  return (name, ((resolved.member? "in").bind Json.asString?).getD "")

/-- The parameters of a path and of an operation: those of the path whose key no parameter of the
operation has, then those of the operation. A parameter without a key is always kept. -/
def mergeParameters (c : Contract) (ofPath ofOperation : List Json) : List Json :=
  let keys := ofOperation.map c.parameterKey?
  (ofPath.filter fun parameter =>
    match c.parameterKey? parameter with
    | some key => !keys.contains (some key)
    | none => true) ++ ofOperation

/-- A list of parameters, or an issue. -/
def readParameters (location : String) : Option Json → List Json × List Issue
  | none => ([], [])
  | some (.array parameters) => (parameters, [])
  | some _ => ([], [⟨location, "InvalidParameters", "'parameters' must be an array"⟩])

/-! ## Operations -/

/-- The members of a path that are operations, in the order of their routes. -/
def operationKeys : List (String × Method) :=
  [("get", .get), ("put", ⟨"PUT", rfl⟩), ("post", ⟨"POST", rfl⟩), ("delete", ⟨"DELETE", rfl⟩),
   ("options", ⟨"OPTIONS", rfl⟩), ("head", ⟨"HEAD", rfl⟩), ("patch", ⟨"PATCH", rfl⟩),
   ("trace", ⟨"TRACE", rfl⟩)]

/-- The declared responses, or an issue. -/
def readResponses (location : String) : Option Json → Assoc Json × List Issue
  | none => ([], [])
  | some (.object responses) => (responses, [])
  | some _ => ([], [⟨location, "InvalidResponses", "'responses' must be an object"⟩])

/-- The route of an operation, with the issues of the operation. -/
def readOperation (c : Contract) (template location : String) (ofPath : List Json)
    (method : Method) (operation : Assoc Json) : Route × List Issue :=
  let (ofOperation, badParameters) :=
    readParameters location (operation.get? "parameters")
  let (responses, badResponses) := readResponses location (operation.get? "responses")
  ({ method
     template
     operationId := (operation.get? "operationId").bind Json.asString?
     placeholders := Template.names template.toList
     parameters := c.mergeParameters ofPath ofOperation
     requestBody := operation.get? "requestBody"
     responses
     security := (operation.get? "security").bind Json.asArray? },
   badParameters ++ badResponses)

/-- The routes of the operations of a path, with their issues. -/
def readOperations (c : Contract) (template path : String) (ofPath : List Json)
    (item : Assoc Json) : List Route × List Issue :=
  let each := operationKeys.map fun k =>
    let location := path ++ " → " ++ k.1
    match item.get? k.1 with
    | none => ([], [])
    | some (.object operation) =>
      let (route, issues) := readOperation c template location ofPath k.2 operation
      ([route], issues)
    | some _ => ([], [⟨location, "InvalidOperation", "operation must be an object"⟩])
  (each.flatMap (·.1), each.flatMap (·.2))

/-- The routes of a path, with their issues. -/
def readPath (c : Contract) (base path : String) : Json → List Route × List Issue
  | .object item =>
    let (ofPath, badParameters) := readParameters path (Assoc.get? item "parameters")
    let (routes, issues) := readOperations c (base ++ path) path ofPath item
    (routes, badParameters ++ issues)
  | _ => ([], [⟨path, "InvalidPathItem", "path item must be an object"⟩])

/-- The routes of a contract in the order of its paths, or its issues. -/
def routes (c : Contract) : Except (List Issue) (List Route) := do
  let base := c.basePath
  let each := (c.paths?.getD []).map fun e => readPath c base e.1 e.2
  Issue.failIfAny (each.flatMap (·.2))
  return each.flatMap (·.1)

end Contract

end ApiContract
