import ApiContract.Proofs.Request.Coercing
import ApiContract.Proofs.Route.Restated
import ApiContract.Proofs.Store.Transparency
/-!
# Sessions with a restated contract

A contract and a restated one make validators that answer requests alike, whatever was asked of them
before: what they have stored differs only in references for the schemas of parameters.
-/

namespace ApiContract

open Schema

/-! ## Stores -/

namespace Store

section

variable {β γ ε : Type} {R : β → γ → Prop} {s : Store β} {t : Store γ}

/-- Whether two stores hold related things under the same keys. -/
structure Rel (R : β → γ → Prop) (s : Store β) (t : Store γ) : Prop where
  enabled : t.enabled = s.enabled
  entries : Assoc.Rel R s.entries t.entries

theorem Rel.empty (enabled : Bool) : Rel R (.empty enabled) (.empty enabled) := ⟨rfl, .nil⟩

/-- Where builds are related, so is what is got, and the store that is left. -/
theorem Rel.getOrBuild (h : Rel R s t) (k : StoreKey) (build : Unit → Except ε β)
    (build' : Unit → Except ε γ) (hb : Except.Rel R (build ()) (build' ())) :
    Except.Rel R (s.getOrBuild k build).1 (t.getOrBuild k build').1 ∧
      Rel R (s.getOrBuild k build).2 (t.getOrBuild k build').2 := by
  have hget := h.entries.get? k.render
  unfold Store.getOrBuild Store.get?
  rw [h.enabled]
  by_cases he : s.enabled = true
  · rw [if_pos he, if_pos he]
    generalize s.entries.get? k.render = v, t.entries.get? k.render = v' at hget
    cases hget with
    | some hv => exact ⟨.ok hv, h⟩
    | none =>
      rcases hb.eq_or with ⟨e, hb, hb'⟩ | ⟨x, y, hb, hb', hxy⟩
      · simp only [hb, hb']
        exact ⟨.error e, h⟩
      · simp only [hb, hb']
        exact ⟨.ok hxy, rfl, h.entries.insert _ hxy⟩
  · rw [if_neg he, if_neg he]
    exact ⟨hb, h⟩

end

end Store

/-! ## Requests -/

/-- Whether two validators of requests are those of a contract and a restated one. -/
structure RequestValidator.Restated (x x' : RequestValidator) (scope : String → Prop) : Prop where
  agree : x.Agree x' scope
  compiler : x.compiler.Agree x'.compiler scope
  security : x.contract.SameSecurity x'.contract scope
  index : List.Forall₂ (PathEntry.Rel (Route.Restated x.contract x'.contract x.compiler scope))
    x.index.entries x'.index.entries

section

variable {scope : String → Prop}

/-- The plans that such validators build are related like this. -/
def RequestValidator.PlanRel (x : RequestValidator) (scope : String → Prop) :
    RequestPlan → RequestPlan → Prop :=
  RequestPlan.Rel (x.contract.Restates x.compiler scope)

namespace RequestValidator.Restated

variable {x x' : RequestValidator} {s s' : Store RequestPlan}

theorem rel_findPlan (h : x.Restated x' scope) (hs : Store.Rel (x.PlanRel scope) s s')
    {route route' : Route} (hr : route.Restated x.contract x'.contract x.compiler scope route')
    (r : Request) :
    Except.Rel (x.PlanRel scope) (x.findPlan s route r).1 (x'.findPlan s' route' r).1 ∧
      Store.Rel (x.PlanRel scope) (x.findPlan s route r).2 (x'.findPlan s' route' r).2 := by
  unfold findPlan
  rw [show route'.template = route.template by rw [hr.same]]
  exact hs.getOrBuild _ _ _ (hr.rel_build h.agree.contract h.security h.compiler _)

/-- **A request is validated alike**, and what is stored stays related. -/
theorem validate_eq (h : x.Restated x' scope) (hs : Store.Rel (x.PlanRel scope) s s')
    (r : Request) :
    (x'.validate s' r).1 = (x.validate s r).1 ∧ (x'.validate s' r).2.1 = (x.validate s r).2.1 ∧
      Store.Rel (x.PlanRel scope) (x.validate s r).2.2 (x'.validate s' r).2.2 := by
  have hlookup := RouteIndex.rel_lookup h.index r.method r.path
  unfold validate
  generalize x.index.lookup r.method r.path = found, x'.index.lookup r.method r.path = found'
    at hlookup
  cases hlookup with
  | unmanaged => exact ⟨rfl, rfl, hs⟩
  | methodNotAllowed _ => exact ⟨rfl, rfl, hs⟩
  | @matched route route' hr params =>
    have htemplate : route'.template = route.template := by rw [hr.same]
    obtain ⟨hplan, hstore⟩ := h.rel_findPlan hs hr r
    simp only [htemplate]
    generalize x.findPlan s route r = p, x'.findPlan s' route' r = p' at hplan hstore
    obtain ⟨plan, store⟩ := p
    obtain ⟨plan', store'⟩ := p'
    cases hplan with
    | error failure => exact ⟨rfl, rfl, hstore⟩
    | ok hplan =>
      have hcheck := check_eq h.agree hplan route.template params r
      simp only [hcheck]
      exact ⟨trivial, trivial, hstore⟩

end RequestValidator.Restated

/-! ## Sessions -/

/-- Whether two validators are those of a contract and a restated one. -/
structure Validator.Restated (x x' : Validator) (scope : String → Prop) : Prop where
  requests : x.requests.Restated x'.requests scope
  config : x'.config = x.config

namespace Validator

/-- **A restated contract has the same issues, or makes a validator of the same kind.** -/
theorem rel_ofContract {c c' : Contract} {config : Config}
    (h : c.Restated c' config.validateFormats scope) :
    Except.Rel (fun x x' => x.Restated x' scope ∧ x.config = config) (ofContract c config)
      (ofContract c' config) := by
  refine h.rel_routes.bind fun routes routes' hroutes => .ok ⟨⟨?_, rfl⟩, rfl⟩
  refine ⟨⟨h.agree, rfl, rfl⟩, h.compiled, h.security, RouteIndex.rel_ofRoutes ?_⟩
  exact hroutes.imp fun r r' hr => ⟨hr, by rw [hr.same], by rw [hr.same]⟩

section

variable {x x' : Validator} {s s' : Stores}

/-- A call is served alike, and leaves related plans. -/
theorem Restated.serve (h : x.Restated x' scope)
    (hs : Store.Rel (x.requests.PlanRel scope) s.requests s'.requests) (call : Call) :
    Store.Rel (x.requests.PlanRel scope) (x.serve s call).2.requests
      (x'.serve s' call).2.requests := by
  cases call with
  | request r =>
    show Store.Rel _ (x.validateRequest s r).2.2.requests (x'.validateRequest s' r).2.2.requests
    unfold validateRequest
    rw [h.config]
    cases x.config.validateRequests with
    | true => exact (h.requests.validate_eq hs r).2.2
    | false => exact hs
  | response r status body =>
    show Store.Rel _ (x.validateResponse s r status body).2.requests
      (x'.validateResponse s' r status body).2.requests
    unfold validateResponse
    rw [h.config]
    cases x.config.validateResponses <;> exact hs

/-- After any session the plans that are stored are related. -/
theorem Restated.storesAfter (h : x.Restated x' scope) (calls : List Call) :
    Store.Rel (x.requests.PlanRel scope) (x.storesAfter calls).requests
      (x'.storesAfter calls).requests := by
  have hstart : Store.Rel (x.requests.PlanRel scope) x.stores.requests x'.stores.requests := by
    unfold stores
    rw [h.config]
    exact .empty _
  unfold Validator.storesAfter
  generalize x.stores = s, x'.stores = s' at hstart
  induction calls generalizing s s' with
  | nil => exact hstart
  | cons call calls ih => exact ih _ _ (h.serve hstart call)

end

/--
**Referring to the schemas of parameters is the same as writing them out**, where no other reference
sees it. A contract and a restated one have the same issues, or make validators that give every
request the same result and hand it back the same, after any session.
-/
theorem validateRequest_restated {c c' : Contract} {config : Config} {scope : String → Prop}
    (h : c.Restated c' config.validateFormats scope) :
    Except.Rel (fun x x' : Validator => ∀ (calls : List Call) (r : Request),
        (x'.validateRequest (x'.storesAfter calls) r).1 =
            (x.validateRequest (x.storesAfter calls) r).1 ∧
          (x'.validateRequest (x'.storesAfter calls) r).2.1 =
            (x.validateRequest (x.storesAfter calls) r).2.1)
      (ofContract c config) (ofContract c' config) := by
  rcases (rel_ofContract h).eq_or with ⟨issues, hc, hc'⟩ | ⟨x, x', hc, hc', hx, -⟩
  · rw [hc, hc']
    exact .error issues
  · rw [hc, hc']
    refine .ok fun calls r => ?_
    obtain ⟨hresult, hback, -⟩ := hx.requests.validate_eq (hx.storesAfter calls) r
    unfold validateRequest
    rw [hx.config]
    split
    · exact ⟨hresult, hback⟩
    · exact ⟨rfl, rfl⟩

end Validator

end

/-! ## A schema that refers to another -/

def toText : Json := .object [("$ref", .string "#/components/schemas/Text")]

/-- A text of at least two characters. -/
def nameSchema : Json := .object [("allOf", .array [toText]), ("minLength", .int 2)]

/-- A contract with components `Name` and `Text`, and with `GET /a` that takes a header of a
schema. -/
def greeting (schema : Json) : Contract where
  root := [
    ("components", .object [("schemas", .object [("Name", nameSchema), ("Text", textSchema)])]),
    ("openapi", .string "3.0.3"),
    ("paths", .object [("/a", .object [("get", .object [
      ("parameters", .array [.object [
        ("in", .string "header"),
        ("name", .string "X-Name"),
        ("required", .bool true),
        ("schema", schema)]]),
      ("responses", .object [])])])])]
  version := "3.0.3"

/-- What judging by the schema comes to is the text that it refers to. -/
theorem comesTo_nameSchema {t : String}
    (h : (Compiler.ofContract (greeting nameSchema) true).ComesTo nameSchema t) :
    t = "#/components/schemas/Text" := by
  induction h with
  | here h => exact List.mem_singleton.mp h
  | onward _ hv hu ih =>
    subst ih
    obtain rfl := Except.ok.inj hv
    exact absurd hu List.not_mem_nil

theorem refers_nameSchema :
    (greeting nameSchema).Refers (.ofContract (greeting nameSchema) true)
      "#/components/schemas/Name" nameSchema := by
  have hcompiles : ((Compiler.ofContract (greeting nameSchema) true).compile
      (Schema.reference "#/components/schemas/Name") "/a").toOption.isSome = true := by
    decide +kernel
  obtain ⟨c, hc⟩ := Option.isSome_iff_exists.mp hcompiles
  refine ⟨⟨⟨_, rfl⟩, by decide +kernel, by decide +kernel,
    ⟨"/a", c, Except.toOption_eq_some_iff.mp hc⟩, fun h => ?_⟩, by decide +kernel, rfl⟩
  exact absurd (comesTo_nameSchema h) (by decide)

theorem restated_greeting :
    (greeting nameSchema).Restated (greeting toName) true Contract.IntoComponents := by
  have hrefs : ∀ t ∈ refs (greeting nameSchema).document, Contract.IntoComponents t := by
    decide +kernel
  have hparameter : Contract.RestatesRaw (greeting nameSchema) (greeting toName)
      (.ofContract (greeting nameSchema) true) Contract.IntoComponents
      (.object [("in", .string "header"), ("name", .string "X-Name"), ("required", .bool true),
        ("schema", nameSchema)])
      (.object [("in", .string "header"), ("name", .string "X-Name"), ("required", .bool true),
        ("schema", toName)]) :=
    .ok (.reference (by decide +kernel) refers_nameSchema rfl ⟨rfl, nofun⟩)
  refine Contract.restated_of_components (fun key hkey => ?_) rfl hrefs ?_
  · simp [greeting, Assoc.get?_cons, Ne.symm hkey]
  · refine .cons ⟨rfl, .object ⟨.other none rfl, fun k hk => ?_⟩⟩ .nil
    by_cases hget : k.1 = "get"
    · rw [hget]
      refine .some (.object ⟨.array (.cons hparameter .nil), fun key hkey => ?_, nofun⟩)
      simp [Assoc.get?_cons, Ne.symm hkey]
    · simp only [Assoc.get?_cons, if_neg (Ne.symm hget), Assoc.get?_nil]
      exact .none

/-- The validator of such a contract. -/
def greetingValidator (schema : Json) : Validator :=
  ⟨greeting schema, .ofRoutes ((greeting schema).routes.toOption.getD []), {}⟩

/-- Both contracts make validators, which give every request the same result after any session. -/
theorem validateRequest_restated_greeting :
    (greeting nameSchema).Restated (greeting toName) true Contract.IntoComponents ∧
      Validator.ofContract (greeting nameSchema) {} = .ok (greetingValidator nameSchema) ∧
      Validator.ofContract (greeting toName) {} = .ok (greetingValidator toName) ∧
      ∀ (calls : List Call) (r : Request),
        ((greetingValidator toName).validateRequest
            ((greetingValidator toName).storesAfter calls) r).1 =
          ((greetingValidator nameSchema).validateRequest
            ((greetingValidator nameSchema).storesAfter calls) r).1 := by
  have hc : Validator.ofContract (greeting nameSchema) {} =
      .ok (greetingValidator nameSchema) := rfl
  have hc' : Validator.ofContract (greeting toName) {} = .ok (greetingValidator toName) := rfl
  refine ⟨restated_greeting, hc, hc', fun calls r => ?_⟩
  have hrel : Except.Rel _ (Validator.ofContract (greeting nameSchema) {})
      (Validator.ofContract (greeting toName) {}) :=
    Validator.validateRequest_restated restated_greeting
  rw [hc, hc'] at hrel
  cases hrel with
  | ok h => exact (h calls r).1

/-! ## Where a reference shows -/

/-- What a contract answers to `GET` of a target that is asked for alone. -/
def Contract.answer? (c : Contract) (target : String) : Option (Except Failure Outcome) :=
  (Validator.ofContract c { schemaCache := false }).toOption.map fun x =>
    (x.validateRequest x.stores (.ofTarget Method.get target)).1

def objectSchema : Json := .object [("type", .string "object")]

def arraySchema : Json := .object [("type", .string "array")]

/-- A schema that the metaschema refuses, and that is read without a fault. -/
def emptilyRequiringSchema : Json := .object [("required", .array [])]

/-- A schema with a pattern that is not one, whose members are of a component. -/
def faultySchema (pattern component : String) : Json :=
  .object [
    ("additionalProperties", .object [("$ref", .string ("#/components/schemas/" ++ component))]),
    ("pattern", .string pattern)]

/-- Components that refer to each other, and do not compile. -/
def faultyComponents : Assoc Json :=
  [("Name", faultySchema "(" "Other"), ("Other", faultySchema ")" "Name")]

/-- A contract of the newer dialect with components, and with `GET /a` that takes `n` in its query. -/
def namingAmong (components : Assoc Json) (schema : Json) : Contract where
  root := [
    ("components", .object [("schemas", .object components)]),
    ("openapi", .string "3.1.0"),
    ("paths", .object [("/a", .object [("get", .object [
      ("parameters", .array [.object [
        ("in", .string "query"),
        ("name", .string "n"),
        ("schema", schema)]]),
      ("responses", .object [])])])])]
  version := "3.1.0"

def integerSchema : Json := .object [("type", .string "integer")]

/-- A contract with `GET /a`, whose parameter `b` has the schema that stands at its parameter `a`. -/
def borrowing (schema : Json) : Contract where
  root := [
    ("components", .object [
      ("parameters", .object [("A", .object [
        ("in", .string "query"),
        ("name", .string "a"),
        ("schema", schema)])]),
      ("schemas", .object [("Name", integerSchema)])]),
    ("openapi", .string "3.0.3"),
    ("paths", .object [("/a", .object [("get", .object [
      ("parameters", .array [
        .object [("$ref", .string "#/components/parameters/A")],
        .object [
          ("in", .string "query"),
          ("name", .string "b"),
          ("schema", .object [("$ref", .string "#/components/parameters/A/schema")])]]),
      ("responses", .object [])])])])]
  version := "3.0.3"

set_option maxRecDepth 10000 in
/--
The schema of a parameter and a reference to it are not the same to all requests. A schema that is
false is blamed by its name, or as a reference. An object in the query is decoded, and an array is
made of one value, where the schema is written out, and not behind a reference. A schema that is not
well formed is refused where it is written out, and not behind a reference, and of the faults of
schemas that refer to each other another is met first. And a reference into a schema that was
replaced is followed no further.
-/
theorem validateRequest_referred_ne :
    ((namingAmong [("Name", .bool false)] (.bool false)).answer? "/a?n=1" =
        some (.error (.schemaValidation [⟨".query.n",
          "False schema does not allow \"1\"", some "n.openapi.validation"⟩])) ∧
      (namingAmong [("Name", .bool false)] toName).answer? "/a?n=1" =
        some (.error (.schemaValidation [⟨".query.n",
          "False schema does not allow \"1\"", some "$ref.openapi.validation"⟩]))) ∧
    ((naming objectSchema objectSchema).answer? "/a?n=%7B%7D" = some (.ok (.validated "/a")) ∧
      (naming objectSchema toName).answer? "/a?n=%7B%7D" =
        some (.error (.schemaValidation [⟨".query.n",
          "\"\x7b\x7d\" is not of type \"object\"", some "type.openapi.validation"⟩]))) ∧
    ((naming arraySchema arraySchema).answer? "/a?n=1" = some (.ok (.validated "/a")) ∧
      (naming arraySchema toName).answer? "/a?n=1" =
        some (.error (.schemaValidation [⟨".query.n",
          "\"1\" is not of type \"array\"", some "type.openapi.validation"⟩]))) ∧
    ((naming emptilyRequiringSchema emptilyRequiringSchema).answer? "/a" =
        some (.error (.schemaCompilation "/a" "invalid schema: [] has less than 1 item")) ∧
      (naming emptilyRequiringSchema toName).answer? "/a" = some (.ok (.validated "/a"))) ∧
    ((namingAmong faultyComponents (faultySchema "(" "Other")).answer? "/a" =
        some (.error (.schemaCompilation "/a" "invalid schema: \"(\" is not a \"regex\"")) ∧
      (namingAmong faultyComponents toName).answer? "/a" =
        some (.error (.schemaCompilation "/a" "invalid schema: \")\" is not a \"regex\""))) ∧
    ((borrowing integerSchema).answer? "/a?b=1" = some (.ok (.validated "/a")) ∧
      (borrowing toName).answer? "/a?b=1" =
        some (.error (.schemaValidation [⟨".query.b",
          "\"1\" is not of type \"integer\"", some "type.openapi.validation"⟩]))) := by
  refine ⟨⟨?_, ?_⟩, ⟨?_, ?_⟩, ⟨?_, ?_⟩, ⟨?_, ?_⟩, ⟨?_, ?_⟩, ?_, ?_⟩ <;> decide +kernel

end ApiContract
