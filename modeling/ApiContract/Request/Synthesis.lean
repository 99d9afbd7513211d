import ApiContract.Media.ContentType
import ApiContract.Parameter.Definition
import ApiContract.Parameter.Directive
import ApiContract.Route.Basic
/-!
# The schema of a request

The parameters and the body of a route make one schema for each content type, with a member for each
location and one for the body. The parameters also give the directives that reshape raw values. The
body of a request need not have the properties that are read-only.
-/

namespace ApiContract

/-- The parameters that are declared in a location. -/
structure LocationSchema where
  properties : Assoc Json := []
  /-- The names of those that are required, in the order of their declaration. -/
  required : List String := []
deriving DecidableEq, Repr

namespace LocationSchema

/-- Declare a parameter; one of the same name is replaced, but stays required. -/
def declare (x : LocationSchema) (name : String) (schema : Json) (required : Bool) :
    LocationSchema where
  properties := x.properties.insert name schema
  required := if required && !x.required.contains name then x.required ++ [name] else x.required

/-- Whether a name is declared. -/
def declares (x : LocationSchema) (name : String) : Bool := x.properties.contains name

/-- The schema of the location. -/
def toSchema (x : LocationSchema) : Json :=
  .ofMembers <|
    [("type", .string "object"), ("properties", .object x.properties)] ++
      if x.required.isEmpty then [] else [("required", .array (x.required.map .string))]

end LocationSchema

/-- The schema of a request. -/
structure RequestSchema where
  locations : PerLocation LocationSchema
  body : Json
  bodyRequired : Bool
  /-- The directives in the order in which they are applied. -/
  directives : List Directive
deriving DecidableEq, Repr

namespace RequestSchema

/-- The parameters declared in a location. -/
def location (x : RequestSchema) (l : Location) : LocationSchema := x.locations.get l

/-- The schema in one document. -/
def toSchema (x : RequestSchema) : Json :=
  let required := ["query", "headers", "params"] ++ if x.bodyRequired then ["body"] else []
  .ofMembers [
    ("required", .array (required.map .string)),
    ("properties", .ofMembers [
      ("body", x.body),
      ("query", x.locations.query.toSchema),
      ("headers", x.locations.headers.toSchema),
      ("params", x.locations.params.toSchema),
      ("cookies", x.locations.cookies.toSchema)])]

end RequestSchema

namespace Synthesis

/-! ## What a schema describes -/

/-- Whether a schema declares a kind. -/
def declaresKind (schema : Json) (kind : String) : Bool :=
  match schema.member? "type" with
  | some (.string name) => name == kind
  | some (.array names) => names.contains (.string kind)
  | _ => false

mutual

/-- Whether a schema describes an object, by its kind or that of a branch. References are not
followed. -/
def hasObject : Json → Bool
  | .object members =>
    declaresKind (.object members) "object" || branchHasObject members
  | _ => false

/-- Whether a branch among the members of a schema describes an object. -/
def branchHasObject : List (String × Json) → Bool
  | [] => false
  | (k, v) :: rest =>
    (match v with
      | .array branches =>
        (k == "allOf" || k == "oneOf" || k == "anyOf") && anyHasObject branches
      | _ => false) || branchHasObject rest

def anyHasObject : List Json → Bool
  | [] => false
  | v :: vs => hasObject v || anyHasObject vs

end

/-! ## Parameters -/

/-- The name under which a parameter is recorded: header names are in lower case. -/
def recordedName (location : Location) (name : String) : String :=
  if location = .header then Text.lowerString name else name

/-- Whether the raw value of a parameter is a JSON text. -/
def isEncoded (location : Location) : SchemaSource → Bool
  | .content mediaType _ => MediaType.isJson mediaType
  | .direct schema => location = .query && hasObject schema

/-- How the raw value of an array is reshaped: an exploded one is wrapped, any other is split at the
delimiter of its style. -/
def arrayReshape (d : ParameterDefinition) (location : Location) (route : String) :
    Except Failure Reshape :=
  let style := match d.style with
    | some name => Style.ofName? name
    | none => some location.defaultStyle
  if d.explode.getD (style = some .form) then .ok .wrapSingle
  else match style.bind Style.delimiter? with
    | some delimiter => .ok (.splitArray delimiter)
    | none => .error (.contractShape route (.parameterStyle (d.style.getD "") d.name))

/-- How the raw value of a parameter is reshaped. -/
def reshapes (d : ParameterDefinition) (source : SchemaSource) (location : Location)
    (route : String) : Except Failure (List Reshape) := do
  let decode := if isEncoded location source then [Reshape.parseJson] else []
  match d.directSchema? with
  | some schema =>
    if declaresKind schema "array" then
      return decode ++ [← arrayReshape d location route]
    else return decode
  | none => return decode

/-- The parameters so far: what is declared, and the directives in the order of declaration. -/
structure Declared where
  locations : PerLocation LocationSchema
  directives : List Directive

/-- No parameters. -/
def Declared.none : Declared := ⟨⟨{}, {}, {}, {}⟩, []⟩

/-- Add a parameter. -/
def addParameter (x : Declared) (d : ParameterDefinition) (route : String) :
    Except Failure Declared := do
  let some location := Location.ofName? d.location
    | .error (.contractShape route (.parameterLocation d.location d.name))
  let some source := d.source
    | .error (.contractShape route (.parameterUntyped d.name))
  let name := recordedName location d.name
  let reshapes ← reshapes d source location route
  return {
    locations := x.locations.modify (·.declare name source.schema d.required) location
    directives := x.directives ++ reshapes.map (⟨·, name, location⟩) }

/-- Add a parameter as it is written, once its reference is resolved. -/
def addRaw (c : Contract) (route : String) (x : Declared) (raw : Json) :
    Except Failure Declared := do
  addParameter x (← ParameterDefinition.ofJson (← c.resolve raw) route) route

/-! ## Bodies -/

/-- Whether a property is read-only, in its own schema or in what that refers to. -/
def isReadOnly (c : Contract) (property : Json) : Bool :=
  ((c.resolveOr property).member? "readOnly").bind Json.asBool? = some true

/-- Drop names from a list of required names; no list is left without names. -/
def dropRequired (names : List String) (members : Assoc Json) : Assoc Json :=
  match members.get? "required" with
  | some (.array required) =>
    let kept := required.filter fun
      | .string s => !names.contains s
      | _ => true
    if kept.isEmpty then members.erase "required" else members.insert "required" (.array kept)
  | _ => members

/-- Drop the read-only properties from the required ones. -/
def withoutReadOnly (c : Contract) (body : Json) : Json :=
  match body with
  | .object members =>
    match Assoc.get? members "properties" with
    | some (.object properties) =>
      let readOnly := Assoc.keys (properties.filter fun e => isReadOnly c e.2)
      .object (dropRequired readOnly members)
    | _ => body
  | _ => body

/-- A body schema whose read-only properties are not required. A reference to a schema with
properties is replaced by its target. -/
def relaxed (c : Contract) (schema : Json) : Except Failure Json := do
  if (schema.member? "$ref").isSome then
    let target ← c.resolve schema
    return if (target.member? "properties").isSome then withoutReadOnly c target else schema
  else return withoutReadOnly c schema

/-- The entry for requests that name no content type: the plain one for JSON, or the first. -/
def defaultMedia? (content : Assoc Json) : Option Json :=
  match content.get? "application/json" with
  | some media => some media
  | none => (content.find? fun e => MediaType.isJson e.1).map (·.2)

/-- The body schema of a content type; every body is good where none is declared. -/
def bodySchema (c : Contract) (route : String) (content : Assoc Json) (contentType : ContentType) :
    Except Failure Json := do
  let media ← match contentType with
    | some h =>
      match MediaType.select? content h with
      | some media => pure (some media)
      | none => .error (.unsupportedMediaType route (some h.raw))
    | none => pure (defaultMedia? content)
  match media.bind (·.member? "schema") with
  | some schema => relaxed c schema
  | none => return .object []

/-- The body schema of a route, and whether a body is required. -/
def body (c : Contract) (r : Route) (contentType : ContentType) : Except Failure (Json × Bool) := do
  match r.requestBody with
  | none => return (.object [], false)
  | some raw =>
    let requestBody ← c.resolve raw
    match (requestBody.member? "content").bind Json.asObject? with
    | none => return (.object [], false)
    | some content =>
      let schema ← bodySchema c r.template content contentType
      return (schema, ((requestBody.member? "required").bind Json.asBool?).getD false)

end Synthesis

namespace RequestSchema

/-- The schema of the requests of a route that have a content type. -/
def synthesize (c : Contract) (r : Route) (contentType : ContentType) :
    Except Failure RequestSchema := do
  let declared ← r.parameters.foldlM (Synthesis.addRaw c r.template) Synthesis.Declared.none
  let (body, bodyRequired) ← Synthesis.body c r contentType
  return {
    locations := declared.locations
    body
    bodyRequired
    directives := Directive.inOrder declared.directives }

end RequestSchema

end ApiContract
