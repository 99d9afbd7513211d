import ApiContract.Failure
import ApiContract.Parameter.Location
/-!
# Parameter definitions

A definition as a contract declares it, after its reference was resolved. The location and the style
are kept as they are written: a wrong one is a fault of the contract that shows when a route is
first used.
-/

namespace ApiContract

/-- Where the schema of a parameter comes from. -/
inductive SchemaSource where
  | direct (schema : Json)
  /-- The schema under the only media type of `content`. -/
  | content (mediaType : String) (schema : Json)
deriving DecidableEq, Repr

namespace SchemaSource

def schema : SchemaSource → Json
  | direct schema => schema
  | content _ schema => schema

end SchemaSource

/-- A parameter definition. -/
structure ParameterDefinition where
  name : String
  location : String
  required : Bool
  source : Option SchemaSource
  style : Option String
  explode : Option Bool
deriving DecidableEq, Repr

namespace ParameterDefinition

/-- A member that is a text. -/
def text? (members : Assoc Json) (key : String) : Option String :=
  (members.get? key).bind Json.asString?

/-- A member that is a flag. -/
def flag? (members : Assoc Json) (key : String) : Option Bool :=
  (members.get? key).bind Json.asBool?

/-- The source of the schema: `schema`, or else the only entry of `content`. -/
def readSource (members : Assoc Json) (name route : String) :
    Except Failure (Option SchemaSource) :=
  match members.get? "schema" with
  | some schema => .ok (some (.direct schema))
  | none =>
    match (members.get? "content").bind Json.asObject? with
    | none => .ok none
    | some [(mediaType, media)] =>
      .ok (some (.content mediaType ((media.member? "schema").getD (.object []))))
    | some _ => .error (.contractShape route (.parameterContent name))

/-- Read the definition of a parameter of a route. -/
def ofJson (v : Json) (route : String) : Except Failure ParameterDefinition :=
  match v with
  | .object members =>
    match text? members "name" with
    | none => .error (.contractShape route .parameterUnnamed)
    | some name => do
      let source ← readSource members name route
      return {
        name
        location := (text? members "in").getD ""
        required := (flag? members "required").getD false
        source
        style := text? members "style"
        explode := flag? members "explode" }
  | _ => .error (.contractShape route .parameterNotObject)

/-- The schema, when it is not that of a media type. -/
def directSchema? (d : ParameterDefinition) : Option Json :=
  match d.source with
  | some (.direct schema) => some schema
  | _ => none

end ParameterDefinition

end ApiContract
