import ApiContract.Schema.Basic
/-!
# Schemas of schemas

Each dialect has a schema that its schemas satisfy. It refers to itself at every place where a
schema may stand; the reference is `#`. The newer dialect's is a conjunction of vocabularies, and a
schema is judged by one vocabulary after the other, at every level.
-/

namespace ApiContract

namespace Schema

namespace Metaschema

/-! ## Shapes that both dialects use -/

def ofKind (kind : Kind) : Schema := .node [.kind [kind]]

/-- A place for a schema. -/
def schema : Schema := .node [.reference "#"]

/-- A list of at least one schema. -/
def schemaList : Schema := .node [.items 0 schema, .size .items false 1, .kind [.array]]

/-- An object whose values are all of one schema. -/
def objectOf (values : Schema) : Schema := .node [.partition [] [] values, .kind [.object]]

def schemaFields : Schema := objectOf schema

/-- A whole number that is not negative. -/
def count : Schema := .node [.bound .minimum (.int 0), .kind [.integer]]

/-- The name of a kind. -/
def kindName : Schema := .node [.oneOfValues (Kind.all.map fun kind => .string kind.name)]

/-- The name of a kind, or a list of different ones. -/
def kinds : Schema :=
  .node [.anyOf [kindName,
    .node [.items 0 kindName, .size .items false 1, .kind [.array], .uniqueItems]]]

/-! ## Draft 4 -/

/-- A list of at least one text, each once. -/
def textList : Schema :=
  .node [.items 0 (ofKind .string), .size .items false 1, .kind [.array], .uniqueItems]

/-- A flag or a schema. -/
def flagOrSchema : Schema := .node [.anyOf [ofKind .boolean, schema]]

def identifier : Schema := .node [.format "uri", .kind [.string]]

def draft4 : Schema :=
  .node [
    .dependentNames "dependencies" "exclusiveMaximum" ["maximum"],
    .dependentNames "dependencies" "exclusiveMinimum" ["minimum"],
    .properties [
      ("$schema", identifier),
      ("additionalItems", flagOrSchema),
      ("additionalProperties", flagOrSchema),
      ("allOf", schemaList),
      ("anyOf", schemaList),
      ("definitions", schemaFields),
      ("dependencies", objectOf (.node [.anyOf [schema, textList]])),
      ("description", ofKind .string),
      ("enum", ofKind .array),
      ("exclusiveMaximum", ofKind .boolean),
      ("exclusiveMinimum", ofKind .boolean),
      ("format", ofKind .string),
      ("id", identifier),
      ("items", .node [.anyOf [schema, schemaList]]),
      ("maxItems", count),
      ("maxLength", count),
      ("maxProperties", count),
      ("maximum", ofKind .number),
      ("minItems", count),
      ("minLength", count),
      ("minProperties", count),
      ("minimum", ofKind .number),
      ("multipleOf", .node [.bound .exclusiveMinimum (.int 0), .kind [.number]]),
      ("not", schema),
      ("oneOf", schemaList),
      ("pattern", .node [.format "regex", .kind [.string]]),
      ("patternProperties", schemaFields),
      ("properties", schemaFields),
      ("required", textList),
      ("title", ofKind .string),
      ("type", kinds),
      ("uniqueItems", ofKind .boolean)],
    .kind [.object]]

/-! ## The dialect of 2020-12 -/

/-- What every vocabulary asks of a schema. -/
def flagOrObject : Keyword := .kind [.boolean, .object]

/-- A list of texts, each once. -/
def distinctTexts : Schema := .node [.items 0 (ofKind .string), .kind [.array], .uniqueItems]

/-- A text that matches a pattern. -/
def textMatching (text : String) (pattern : Pattern) : Schema :=
  .node [.pattern ⟨text, pattern⟩, .kind [.string]]

/-- An address without a fragment. -/
def address : Schema :=
  textMatching "^[^#]*#?$"
    (.seq (.atStart false) (.seq (.rep (.one (.compl (.single '#')) false) 0 none)
      (.seq (.rep (.one (.single '#') false) 0 (some 1)) (.atEnd false))))

/-- The name of an anchor: a letter or underscore, then letters, digits, hyphens, underscores and
points. -/
def anchorName : Schema :=
  let letter : CharClass := .ofRanges [(65, 90), (95, 95), (97, 122)]
  textMatching "^[A-Za-z_][-A-Za-z0-9._]*$"
    (.seq (.atStart false) (.seq (.one letter false)
      (.seq (.rep (.one (.union letter (.ofRanges [(45, 46), (48, 57)])) false) 0 none)
        (.atEnd false))))

def core : Schema :=
  .node [.properties [
    ("$anchor", anchorName),
    ("$comment", ofKind .string),
    ("$defs", schemaFields),
    ("$dynamicAnchor", anchorName),
    ("$dynamicRef", ofKind .string),
    ("$id", address),
    ("$ref", ofKind .string),
    ("$schema", ofKind .string),
    ("$vocabulary", .node [.partition [] [] (ofKind .boolean),
      .propertyNames (ofKind .string), .kind [.object]])],
    flagOrObject]

def applicator : Schema :=
  .node [.properties [
    ("additionalProperties", schema),
    ("allOf", schemaList),
    ("anyOf", schemaList),
    ("contains", schema),
    ("dependentSchemas", schemaFields),
    ("else", schema),
    ("if", schema),
    ("items", schema),
    ("not", schema),
    ("oneOf", schemaList),
    ("patternProperties", schemaFields),
    ("prefixItems", schemaList),
    ("properties", schemaFields),
    ("propertyNames", schema),
    ("then", schema)],
    flagOrObject]

def unevaluated : Schema :=
  .node [.properties [("unevaluatedItems", schema), ("unevaluatedProperties", schema)],
    flagOrObject]

def validation : Schema :=
  .node [.properties [
    ("dependentRequired", objectOf distinctTexts),
    ("enum", ofKind .array),
    ("exclusiveMaximum", ofKind .number),
    ("exclusiveMinimum", ofKind .number),
    ("maxContains", count),
    ("maxItems", count),
    ("maxLength", count),
    ("maxProperties", count),
    ("maximum", ofKind .number),
    ("minContains", count),
    ("minItems", count),
    ("minLength", count),
    ("minProperties", count),
    ("minimum", ofKind .number),
    ("multipleOf", .node [.bound .exclusiveMinimum (.int 0), .kind [.number]]),
    ("pattern", ofKind .string),
    ("required", distinctTexts),
    ("type", kinds),
    ("uniqueItems", ofKind .boolean)],
    flagOrObject]

def annotation : Schema :=
  .node [.properties [
    ("deprecated", ofKind .boolean),
    ("description", ofKind .string),
    ("examples", ofKind .array),
    ("readOnly", ofKind .boolean),
    ("title", ofKind .string),
    ("writeOnly", ofKind .boolean)],
    flagOrObject]

def formatAnnotation : Schema := .node [.properties [("format", ofKind .string)], flagOrObject]

def content : Schema :=
  .node [.properties [
    ("contentEncoding", ofKind .string),
    ("contentMediaType", ofKind .string),
    ("contentSchema", schema)],
    flagOrObject]

def draft2020 : Schema :=
  .node [
    .allOf [core, applicator, unevaluated, validation, annotation, formatAnnotation, content],
    .properties [
      ("$recursiveAnchor", anchorName),
      ("$recursiveRef", ofKind .string),
      ("definitions", schemaFields),
      ("dependencies", objectOf (.node [.anyOf [schema, distinctTexts]]))],
    flagOrObject]

end Metaschema

end Schema

end ApiContract
