import ApiContract.Format.Basic
import ApiContract.Schema.Violation
/-!
# Reading a schema

Reading goes through the members of a schema object in order and makes keywords of them. On the way
it tells events: the references it meets and the faults it finds. The events stand in the order in
which the parts of the schema are read, so the first fault is the one to report once the
references before it have been followed.

Keywords that act together are read together: `additionalProperties` takes in the properties and
patterns beside it, `if` the two schemas that depend on it, `contains` its two counts.
-/

namespace ApiContract

namespace Schema

/-- Why a schema is refused. -/
inductive Fault where
  /-- A part of the schema is not what its place asks for. -/
  | malformed (part : Json) (cause : Cause)
  /-- A kind of a name that does not exist. -/
  | unknownKind
  /-- A reference to a place that does not exist. -/
  | noTarget (pointer : String)
  | badIndex (index pointer : String)
  /-- The escapes of a pointer spell no text. -/
  | badEscapes (pointer : String)
  | noAnchor (name : String)
  /-- A reference out of the document. -/
  | foreign (reference : String)
deriving DecidableEq, Repr

namespace Fault

def message : Fault → String
  | malformed part cause => cause.message part
  | unknownKind => "Unexpected type"
  | noTarget pointer => "Pointer '" ++ pointer ++ "' does not exist"
  | badIndex index pointer =>
    "Failed to parse array index '" ++ index ++ "' in pointer '" ++ pointer ++ "'"
  | badEscapes pointer =>
    "Invalid percent encoding in pointer '" ++ pointer ++
      "': the decoded bytes do not represent valid UTF-8"
  | noAnchor name => "Anchor '" ++ name ++ "' does not exist"
  | foreign reference =>
    "Resource '" ++ reference ++ "' is not present in a registry and retrieving it failed"

end Fault

/-- What reading meets. -/
inductive Event where
  | reference (target : String)
  | fault (fault : Fault)
deriving DecidableEq, Repr

/-- A result with the events on the way to it; after a fault the result means nothing. -/
structure Reading (α : Type) where
  result : α
  events : List Event := []

namespace Reading

instance : Monad Reading where
  pure a := ⟨a, []⟩
  bind x f := ⟨(f x.result).result, x.events ++ (f x.result).events⟩

/-- Tell a fault. -/
def refuse {α : Type} [Inhabited α] (fault : Fault) : Reading α := ⟨default, [.fault fault]⟩

/-- Tell that a part should be of other kinds. -/
def expected {α : Type} [Inhabited α] (kinds : List Kind) (part : Json) : Reading α :=
  refuse (.malformed part (.wrongKind kinds))

/-- The results of several readings. -/
def sequence {α : Type} (xs : List (Reading α)) : Reading (List α) :=
  ⟨xs.map (·.result), xs.flatMap (·.events)⟩

instance {α : Type} [Inhabited α] : Inhabited (Reading α) := ⟨⟨default, []⟩⟩

end Reading

/-! ## Which members hold schemas -/

/-- How a member holds schemas. -/
inductive Role where
  | plain
  | schema
  | list
  | fields
  /-- A list of schemas or a single one. -/
  | either
deriving DecidableEq, Repr

/-- How the member of a name holds schemas. -/
def roleOf (dialect : Dialect) (word : String) : Role :=
  if ["additionalProperties", "not"].contains word then .schema
  else if ["allOf", "anyOf", "oneOf"].contains word then .list
  else if ["dependencies", "patternProperties", "properties"].contains word then .fields
  else if word = "items" then .either
  else match dialect with
    | .draft4 => if word = "additionalItems" then .schema else .plain
    | .draft2020 =>
      if ["contains", "else", "if", "propertyNames", "then", "unevaluatedItems",
        "unevaluatedProperties"].contains word then .schema
      else if word = "prefixItems" then .list
      else if word = "dependentSchemas" then .fields
      else .plain

/-- A member with the schemas that it holds. -/
structure Part where
  raw : Json
  schema : Reading Schema
  list : List (Reading Schema)
  fields : List (String × Json × Reading Schema)

/-- The members of a schema object. -/
abbrev Parts := Assoc Part

namespace Parts

/-- The text of a member. -/
def raw? (parts : Parts) (word : String) : Option Json := (Assoc.get? parts word).map (·.raw)

end Parts

/-! ## Arguments of keywords -/

/-- A text. -/
def readText : Json → Reading String
  | .string s => pure s
  | v => .expected [.string] v

/-- A list of texts. -/
def readNames : Json → Reading (List String)
  | .array vs => .sequence (vs.map readText)
  | v => .expected [.array] v

def readNumber : Json → Reading Number
  | .number n => pure n
  | v => .expected [.number] v

/-- A count: a whole number that is not negative. Where doubles may be integers a negative whole
number counts for zero. -/
def readCount (wide : Bool) (v : Json) : Reading Nat :=
  match v with
  | .number (.int n) =>
    if 0 ≤ n || wide then pure n.toNat
    else .refuse (.malformed v (.beyond .minimum (.int 0)))
  | .number (.real x) =>
    if wide && x.isIntegral then pure (if x.negative then 0 else x.ratio.1 / x.ratio.2)
    else .expected [.integer] v
  | _ => .expected [.integer] v

/-- A count beside a keyword: unlike other counts it is never a negative whole number. -/
def readBesideCount (parts : Parts) (word : String) : Reading (Option Nat) :=
  match parts.raw? word with
  | none => pure none
  | some (.number (.int n)) => some <$> readCount false (.number (.int n))
  | some v => some <$> readCount true v

/-- The name of a kind. -/
def readKind (name : String) : Reading (List Kind) :=
  match Kind.ofName? name with
  | some kind => pure [kind]
  | none => .refuse .unknownKind

/-- One of several names of kinds. -/
def readKindOfSeveral : Json → Reading (List Kind)
  | .string name =>
    match Kind.ofName? name with
    | some kind => pure [kind]
    | none =>
      .refuse (.malformed (.string name) (.notListed (Kind.all.map fun k => .string k.name)))
  | v => .expected [.string] v

def readKinds : Json → Reading (List Kind)
  | .string name => readKind name
  | .array [.string name] => readKind name
  | .array [v] => .expected [.string] v
  | .array vs => List.flatten <$> .sequence (vs.map readKindOfSeveral)
  | v => .expected [.array, .string] v

/-- The schemas of a list. -/
def readBranches (part : Part) : Reading (List Schema) :=
  match part.raw with
  | .array _ => .sequence part.list
  | v => .expected [.array] v

/-- Schemas by name. -/
def readDeclared (part : Part) : Reading (List (String × Schema)) :=
  match part.raw with
  | .object _ => .sequence (part.fields.map fun f => (f.1, ·) <$> f.2.2)
  | v => .expected [.object] v

/-- A pattern with its schema; a pattern that cannot be read is reported with the schema. -/
def readMatching (field : String × Json × Reading Schema) : Reading (NamedPattern × Schema) :=
  match Pattern.read? field.1 with
  | some pattern => (⟨field.1, pattern⟩, ·) <$> field.2.2
  | none =>
    ⟨(⟨field.1, .empty⟩, .always), [.fault (.malformed field.2.1 (.badFormat "regex"))]⟩

/-- Schemas by pattern, in the member of that name; `owner` is reported if it is no object. -/
def readPatterns (owner : Json) (part : Part) : Reading (List (NamedPattern × Schema)) :=
  match part.raw with
  | .object _ => .sequence (part.fields.map readMatching)
  | _ => .expected [.object] owner

/-! ## Keywords -/

/-- Whether `additionalProperties` takes in the properties and patterns beside it. -/
def takesIn (parts : Parts) : Bool :=
  match parts.raw? "additionalProperties" with
  | some (.bool false) => true
  | some (.object _) => true
  | _ => false

/-- The patterns beside `additionalProperties`, if there are any. -/
def readPatternsBeside (parts : Parts) (owner : Json) :
    Reading (Option (List (NamedPattern × Schema))) :=
  match parts.get? "patternProperties" with
  | some patterns => some <$> readPatterns owner patterns
  | none => pure none

/-- The properties beside `additionalProperties`. -/
def readDeclaredBeside (parts : Parts) : Reading (List (String × Schema)) :=
  match parts.get? "properties" with
  | some properties => readDeclared properties
  | none => pure []

/-- `additionalProperties` with what it takes in. -/
def readAdditional (parts : Parts) (part : Part) : Reading (List Keyword) := do
  let matching ← readPatternsBeside parts part.raw
  match part.raw with
  | .bool true => pure []
  | .bool false =>
    match parts.get? "properties" with
    | some properties => return [.closed (← readDeclared properties) (matching.getD [])]
    | none =>
      match matching with
      | some patterns => return [.closed [] patterns]
      | none => return [.noProperties]
  | _ =>
    let declared ← readDeclaredBeside parts
    return [.partition declared (matching.getD []) (← part.schema)]

/-- `items` for every item, for those behind a tuple, or as a tuple itself. -/
def readItems (dialect : Dialect) (parts : Parts) (part : Part) : Reading (List Keyword) := do
  match part.raw with
  | .array _ => return [.tuple "items" (← .sequence part.list)]
  | .object _ | .bool _ =>
    let start := match dialect, parts.raw? "prefixItems" with
      | .draft2020, some (.array vs) => vs.length
      | _, _ => 0
    return [.items start (← part.schema)]
  | v => .expected [.array, .object] v

def readAdditionalItems (parts : Parts) (part : Part) : Reading (List Keyword) := do
  match parts.raw? "items", part.raw with
  | some (.array vs), .object _ => return [.additionalItems vs.length (← part.schema)]
  | some (.array vs), .bool false => return [.noAdditionalItems vs.length]
  | _, _ => return []

/-- `if` with the schemas that depend on it, of which it needs at least one. -/
def readConditional (parts : Parts) (part : Part) : Reading (List Keyword) := do
  match parts.get? "then", parts.get? "else" with
  | none, none => return []
  | consequence, alternative =>
    let condition ← part.schema
    let a ← (consequence.map Part.schema).getD (pure .always)
    let b ← (alternative.map Part.schema).getD (pure .always)
    return [.conditional condition a b]

/-- One entry of `dependencies`: a list of names or a schema. -/
def readDependency (field : String × Json × Reading Schema) : Reading Keyword :=
  match field.2.1 with
  | .array _ => .dependentNames "dependencies" field.1 <$> readNames field.2.1
  | _ => .dependentSchema "dependencies" field.1 <$> field.2.2

/-- One entry of `dependentRequired`: a list of names, each once. -/
def readRequirement (member : String × Json) : Reading Keyword :=
  match member.2 with
  | .array vs =>
    if vs.Nodup then .dependentNames "dependentRequired" member.1 <$> readNames member.2
    else .refuse (.malformed member.2 .repeated)
  | v => .expected [.array] v

def readBound (bound : Bound) (part : Part) : Reading (List Keyword) := do
  return [.bound bound (← readNumber part.raw)]

/-- `minimum` or `maximum`; in the older dialect a flag beside it makes it exclusive. -/
def readInclusive (dialect : Dialect) (inclusive exclusive : Bound) (parts : Parts) (part : Part) :
    Reading (List Keyword) :=
  match dialect, parts.raw? exclusive.word with
  | .draft4, some (.bool true) => readBound exclusive part
  | _, _ => readBound inclusive part

def readSize (dialect : Dialect) (measure : Measure) (upper : Bool) (part : Part) :
    Reading (List Keyword) := do
  return [.size measure upper (← readCount (dialect = .draft2020) part.raw)]

def readPattern (part : Part) : Reading (List Keyword) := do
  let text ← readText part.raw
  match part.raw, Pattern.read? text with
  | .string _, none => .refuse (.malformed part.raw (.badFormat "regex"))
  | _, pattern => return [.pattern ⟨text, pattern.getD .empty⟩]

/-- The keywords that both dialects know; `formats` tells whether formats are to be checked. -/
def readShared (dialect : Dialect) (formats : Bool) (parts : Parts) (part : Part) :
    String → Reading (List Keyword)
  | "additionalProperties" => readAdditional parts part
  | "allOf" => do return [.allOf (← readBranches part)]
  | "anyOf" => do return [.anyOf (← readBranches part)]
  | "dependencies" =>
    match part.raw with
    | .object _ => .sequence (part.fields.map readDependency)
    | v => .expected [.object] v
  | "enum" =>
    match part.raw with
    | .array values => return [.oneOfValues values]
    | v => .expected [.array] v
  | "format" =>
    if formats then do
      let name ← readText part.raw
      return if (Format.find? dialect name).isSome then [.format name] else []
    else return []
  | "items" => readItems dialect parts part
  | "maxItems" => readSize dialect .items true part
  | "maxLength" => readSize dialect .characters true part
  | "maxProperties" => readSize dialect .properties true part
  | "maximum" => readInclusive dialect .maximum .exclusiveMaximum parts part
  | "minItems" => readSize dialect .items false part
  | "minLength" => readSize dialect .characters false part
  | "minProperties" => readSize dialect .properties false part
  | "minimum" => readInclusive dialect .minimum .exclusiveMinimum parts part
  | "multipleOf" => do return [.multipleOf (← readNumber part.raw)]
  | "not" => do return [.not part.raw (← part.schema)]
  | "oneOf" => do return [.oneOf (← readBranches part)]
  | "pattern" => readPattern part
  | "patternProperties" =>
    if takesIn parts then return []
    else do return [.patternProperties (← readPatterns part.raw part)]
  | "properties" =>
    if takesIn parts then return [] else do return [.properties (← readDeclared part)]
  | "required" => do return [.required (← readNames part.raw)]
  | "type" => do return [.kind (← readKinds part.raw)]
  | "uniqueItems" =>
    match part.raw with
    | .bool b => return if b then [.uniqueItems] else []
    | v => .expected [.boolean] v
  | _ => return []

/-- A reference. -/
def readReference : Json → Reading (List Keyword)
  | .string target => ⟨[.reference target], [.reference target]⟩
  | v => .expected [.string] v

/-- The keywords that only the newer dialect knows. -/
def readRecent (parts : Parts) (part : Part) : String → Reading (List Keyword)
  | "$ref" => readReference part.raw
  | "const" => return [.constant part.raw]
  | "contains" => do
    let least ← readBesideCount parts "minContains"
    let most ← readBesideCount parts "maxContains"
    return [.contains (← part.schema) least most]
  | "dependentRequired" =>
    match part.raw with
    | .object members => .sequence (members.map readRequirement)
    | v => .expected [.object] v
  | "dependentSchemas" => do
    let declared ← readDeclared part
    return declared.map fun d => .dependentSchema "dependentSchemas" d.1 d.2
  | "exclusiveMaximum" => readBound .exclusiveMaximum part
  | "exclusiveMinimum" => readBound .exclusiveMinimum part
  | "if" => readConditional parts part
  | "prefixItems" => do return [.tuple "prefixItems" (← readBranches part)]
  | "propertyNames" =>
    match part.raw with
    | .object _ => do return [.propertyNames (← part.schema)]
    | .bool false => return [.noPropertyNames]
    | _ => return []
  | "unevaluatedItems" => do return [.unevaluatedItems (← part.schema)]
  | "unevaluatedProperties" => do return [.unevaluatedProperties (← part.schema)]
  | _ => return []

/-- The keywords that only the dialect of a member knows. -/
def readOwn (dialect : Dialect) (parts : Parts) (member : String × Part) :
    Reading (List Keyword) :=
  match dialect with
  | .draft4 =>
    if member.1 = "additionalItems" then readAdditionalItems parts member.2 else pure []
  | .draft2020 => readRecent parts member.2 member.1

/-- The keywords of one member. -/
def readMember (dialect : Dialect) (formats : Bool) (parts : Parts) (member : String × Part) :
    Reading (List Keyword) := do
  let shared ← readShared dialect formats parts member.2 member.1
  let own ← readOwn dialect parts member
  return shared ++ own

/-- The keywords of all members, in order. -/
def readKeywords (dialect : Dialect) (formats : Bool) (parts : Parts) : Reading (List Keyword) :=
  List.flatten <$> .sequence (parts.map (readMember dialect formats parts))

/-! ## Schemas -/

mutual

/-- Read a schema. In the older dialect a reference stands for the whole object it is in. -/
def read (dialect : Dialect) (formats : Bool) : Json → Reading Schema
  | .bool true => pure .always
  | .bool false => pure .never
  | .object members =>
    match dialect, Assoc.get? members "$ref" with
    | .draft4, some target => .node <$> readReference target
    | _, _ => .node <$> readKeywords dialect formats (readParts dialect formats members)
  | v => .expected [.boolean, .object] v

/-- The members of a schema object with the schemas they hold. -/
def readParts (dialect : Dialect) (formats : Bool) : List (String × Json) → Parts
  | [] => []
  | (k, v) :: rest =>
    let role := roleOf dialect k
    let part : Part :=
      { raw := v
        schema := if role = .schema || role = .either then read dialect formats v else pure .always
        list := match v with
          | .array vs => if role = .list || role = .either then readAll dialect formats vs else []
          | _ => []
        fields := match v with
          | .object ms => if role = .fields then readFields dialect formats ms else []
          | _ => [] }
    (k, part) :: readParts dialect formats rest

/-- The schemas of a list. -/
def readAll (dialect : Dialect) (formats : Bool) : List Json → List (Reading Schema)
  | [] => []
  | v :: vs => read dialect formats v :: readAll dialect formats vs

/-- The schemas of an object, with their texts. -/
def readFields (dialect : Dialect) (formats : Bool) :
    List (String × Json) → List (String × Json × Reading Schema)
  | [] => []
  | (k, v) :: rest => (k, v, read dialect formats v) :: readFields dialect formats rest

end

end Schema

end ApiContract
