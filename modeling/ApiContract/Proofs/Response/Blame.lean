import ApiContract.Proofs.Failing
import ApiContract.Proofs.Route.Operations
import ApiContract.Proofs.Store.Transparency
/-!
# Who is blamed for a response

A response fails because its status is not declared, because its body breaks its schema, or because
the validators of its route cannot be built. For the first two the server is blamed, and so it is
for a schema that cannot be compiled. A reference that leads nowhere blames the client, though no
client wrote it: references are resolved for responses as they are for requests.
-/

namespace ApiContract

/-! ## Building -/

theorem Compiler.exists_of_compile_error {x : Compiler} {schema : Json} {route : String}
    {f : Failure} (h : x.compile schema route = .error f) :
    ∃ text, f = .schemaCompilation route text := by
  unfold compile at h
  split at h
  · cases h
  · exact ⟨_, (Except.error.inj h).symm⟩

theorem Contract.exists_of_resolve_error {c : Contract} {v : Json} {f : Failure}
    (h : c.resolve v = .error f) : ∃ path fault, f = .contractShape path fault := by
  unfold resolve at h
  split at h
  · unfold resolveReference at h
    split at h
    · split at h
      · cases h
      · exact ⟨_, _, (Except.error.inj h).symm⟩
    · exact ⟨_, _, (Except.error.inj h).symm⟩
  · cases h

/-- The first declared response of a route, in the order of names, for which there is no
validator. -/
def Route.firstUnbuilt? (route : Route) (c : Contract) (compiler : Compiler) :
    Option (String × Json) :=
  route.responses.find? fun e =>
    (ResponseValidators.buildOne c compiler route.template e.2).toOption.isNone

/-- Whether the reference of that response leads nowhere. -/
def Route.Misrefers (route : Route) (c : Contract) (compiler : Compiler) : Prop :=
  ∃ e f, route.firstUnbuilt? c compiler = some e ∧ c.resolve e.2 = .error f

namespace ResponseValidators

variable {c : Contract} {compiler : Compiler} {route : Route} {f : Failure}

/-- One response has no validator because its reference leads nowhere or its schema is refused. -/
theorem buildOne_eq_error {template : String} {response : Json}
    (h : buildOne c compiler template response = .error f) :
    c.resolve response = .error f ∨
      (∃ resolved, c.resolve response = .ok resolved) ∧
        ∃ text, f = .schemaCompilation template text := by
  rcases Except.bind_eq_error_iff.mp h with h | ⟨resolved, hresolved, h⟩
  · exact Or.inl h
  · refine Or.inr ⟨⟨resolved, hresolved⟩, ?_⟩
    cases hs : schemaOf? resolved with
    | none => simp [hs, pure, Except.pure] at h
    | some schema =>
      rw [hs] at h
      rcases Except.bind_eq_error_iff.mp h with h | ⟨_, _, h⟩
      · exact Compiler.exists_of_compile_error h
      · cases h

/-- **Building fails with the first response that has no validator.** -/
theorem build_eq_error_iff :
    build c compiler route = .error f ↔ ∃ e, route.firstUnbuilt? c compiler = some e ∧
      buildOne c compiler route.template e.2 = .error f := by
  unfold build Route.firstUnbuilt?
  rw [Except.bind_eq_error_iff, ← Assoc.mapM_eq_error_iff]
  constructor
  · rintro (h | ⟨_, -, h⟩)
    · exact h
    · cases h
  · intro h
    exact Or.inl h

/-- So the client is blamed exactly for a reference that leads nowhere. -/
theorem status_of_build_error (h : build c compiler route = .error f) :
    (f.status = 500 ↔ ¬ route.Misrefers c compiler) ∧ (f.status = 500 ∨ f.status = 400) := by
  obtain ⟨e, hfirst, he⟩ := build_eq_error_iff.mp h
  have hmisrefers : route.Misrefers c compiler ↔ ∃ f', c.resolve e.2 = .error f' := by
    unfold Route.Misrefers
    simp only [hfirst, Option.some.injEq, exists_and_left, exists_eq_left']
  rw [hmisrefers]
  rcases buildOne_eq_error he with hf | ⟨⟨resolved, hresolved⟩, text, rfl⟩
  · obtain ⟨path, fault, rfl⟩ := Contract.exists_of_resolve_error hf
    refine ⟨⟨fun hstatus => ?_, fun hno => absurd ⟨_, hf⟩ hno⟩, Or.inr rfl⟩
    simp [Failure.status] at hstatus
  · refine ⟨⟨fun _ hf => ?_, fun _ => rfl⟩, Or.inl rfl⟩
    obtain ⟨f', hf⟩ := hf
    rw [hresolved] at hf
    cases hf

/-- Where all validators are built, no reference leads nowhere. -/
theorem not_misrefers_of_build {validators : ResponseValidators}
    (h : build c compiler route = .ok validators) : ¬ route.Misrefers c compiler := by
  rintro ⟨e, f, hfirst, hf⟩
  have hone : buildOne c compiler route.template e.2 = .error f :=
    Except.bind_eq_error_iff.mpr (Or.inl hf)
  rw [build_eq_error_iff.mpr ⟨e, hfirst, hone⟩] at h
  cases h

end ResponseValidators

/-! ## Validating -/

namespace ResponseValidator

variable {x : ResponseValidator} {store : Store ResponseValidators} {r : Request} {status : Nat}
  {body : Json} {f : Failure}

/-- Whether the validators of a route have to be built for a request: none are stored. -/
def MustBuild (store : Store ResponseValidators) (route : Route) (r : Request) : Prop :=
  store.enabled = true →
    store.get? (.of r.method route.template (ContentType.ofHeaders r.headers)) = none

/-- What is stored is found, and else what is built is. -/
theorem fst_findValidators (x : ResponseValidator) (store : Store ResponseValidators)
    (route : Route) (r : Request) :
    (MustBuild store route r ∧ (x.findValidators store route r).1 =
        ResponseValidators.build x.contract x.compiler route) ∨
      (¬ MustBuild store route r ∧ ∃ validators,
        (x.findValidators store route r).1 = .ok validators) := by
  unfold MustBuild findValidators
  cases henabled : store.enabled with
  | false =>
    refine Or.inl ⟨nofun, ?_⟩
    rw [Store.getOrBuild_of_disabled _ _ henabled]
  | true =>
    cases hstored : store.get? (.of r.method route.template (ContentType.ofHeaders r.headers)) with
    | some validators =>
      refine Or.inr ⟨by simp, validators, ?_⟩
      rw [Store.getOrBuild_of_get? _ henabled hstored]
    | none =>
      refine Or.inl ⟨by simp, ?_⟩
      unfold Store.getOrBuild
      rw [if_pos henabled, hstored]
      cases ResponseValidators.build x.contract x.compiler route <;> rfl

/-- A check that fails blames the server. -/
theorem status_of_check_error {validators : ResponseValidators} {target : String}
    (h : check validators target status body = .error f) : f.status = 500 := by
  unfold check at h
  split at h
  · obtain rfl := Except.error.inj h
    rfl
  · cases h
  · split at h
    · cases h
    · obtain rfl := Except.error.inj h
      rfl

/-- A response that fails is that of a route, and fails when its validators are built or when they
are applied. -/
theorem exists_matched_of_validate_error (h : (x.validate store r status body).1 = .error f) :
    ∃ route params, x.index.lookup r.method r.path = .matched route params ∧
      ((x.findValidators store route r).1 = .error f ∨ ∃ validators,
        (x.findValidators store route r).1 = .ok validators ∧
          check validators r.target status body = .error f) := by
  unfold validate at h
  cases hl : x.index.lookup r.method r.path with
  | matched route params =>
    refine ⟨route, params, rfl, ?_⟩
    simp only [hl] at h
    split at h
    · next f' store' hfind =>
      rw [hfind]
      exact Or.inl (congrArg _ (Except.error.inj h))
    · next validators store' hfind =>
      rw [hfind]
      exact Or.inr ⟨validators, rfl, h⟩
  | methodNotAllowed _ => simp [hl] at h
  | unmanaged => simp [hl] at h

end ResponseValidator

namespace Validator

/--
**When the server is blamed for a response that fails.** The status is that of a server error unless
the request matches a route whose validators have to be built, and the first of its declared
responses that has none lacks it because its reference leads nowhere. Then the status is 400.
-/
theorem failed_response_status_iff (x : Validator) (s : Stores) (r : Request) (status : Nat)
    (body : Json) {f : Failure} (h : (x.validateResponse s r status body).1 = .error f) :
    (f.status = 500 ↔ ∀ route params, x.index.lookup r.method r.path = .matched route params →
      ResponseValidator.MustBuild s.responses route r →
        ¬ route.Misrefers x.contract x.compiler) ∧
    (f.status = 500 ∨ f.status = 400) := by
  have hvalidate : (x.responses.validate s.responses r status body).1 = .error f := by
    unfold validateResponse at h
    split at h
    · exact h
    · cases h
  obtain ⟨route, params, hl, hfails⟩ :=
    ResponseValidator.exists_matched_of_validate_error hvalidate
  have honly : (∀ route params, x.index.lookup r.method r.path = .matched route params →
      ResponseValidator.MustBuild s.responses route r →
        ¬ route.Misrefers x.contract x.compiler) ↔
      (ResponseValidator.MustBuild s.responses route r →
        ¬ route.Misrefers x.contract x.compiler) := by
    constructor
    · intro hall
      exact hall route params hl
    · intro hone route' params' hl'
      obtain ⟨rfl, -⟩ := Lookup.matched.inj (hl.symm.trans hl')
      exact hone
  rw [honly]
  rcases ResponseValidator.fst_findValidators x.responses s.responses route r with
    ⟨hmust, hfind⟩ | ⟨hmust, validators, hfind⟩ <;> rw [hfind] at hfails
  · rcases hfails with hbuild | ⟨validators, hbuild, hcheck⟩
    · obtain ⟨hiff, hstatus⟩ := ResponseValidators.status_of_build_error hbuild
      exact ⟨hiff.trans ⟨fun hno _ => hno, fun hno => hno hmust⟩, hstatus⟩
    · have hstatus := ResponseValidator.status_of_check_error hcheck
      exact ⟨⟨fun _ _ => ResponseValidators.not_misrefers_of_build hbuild, fun _ => hstatus⟩,
        Or.inl hstatus⟩
  · -- what is stored was built, so only the check can fail
    rcases hfails with hbuild | ⟨validators', -, hcheck⟩
    · cases hbuild
    · have hstatus := ResponseValidator.status_of_check_error hcheck
      exact ⟨⟨fun _ hmust' => absurd hmust' hmust, fun _ => hstatus⟩, Or.inl hstatus⟩

end Validator

/-! ## A response that is declared nowhere -/

/-- A contract with `GET /a`, whose success refers to a response that does not exist, and `GET /b`,
for which that is so only after a schema that is none. -/
def dangling : Contract where
  root := [
    ("openapi", .string "3.0.3"),
    ("paths", .object [
      ("/a", .object [("get", .object [("responses", .object [
        ("200", .object [("$ref", .string "#/components/responses/Nope")])])])]),
      ("/b", .object [("get", .object [("responses", .object [
        ("200", .object [("content", .object [
          ("application/json", .object [("schema", .object [("type", .int 12)])])])]),
        ("404", .object [("$ref", .string "#/components/responses/Nope")])])])])])]
  version := "3.0.3"

def danglingConfig : Config := { validateResponses := true }

def danglingValidator : Validator :=
  ⟨dangling, .ofRoutes (dangling.routes.toOption.getD []), danglingConfig⟩

/-- What becomes of the response to a request for a path. -/
def danglingResult (path : String) : Except Failure Json :=
  (danglingValidator.validateResponse danglingValidator.stores (.ofTarget Method.get path) 200
    .null).1

set_option maxRecDepth 10000 in
/-- The schema comes first, so the server is blamed. -/
theorem failed_response_status_iff_malformed :
    ∃ f, danglingResult "/b" = .error f ∧ f.status = 500 ∧ ∀ route params,
      danglingValidator.index.lookup .get "/b" = .matched route params →
        ResponseValidator.MustBuild danglingValidator.stores.responses route
          (.ofTarget Method.get "/b") →
            ¬ route.Misrefers dangling danglingValidator.compiler := by
  have h : danglingResult "/b" = .error (.schemaCompilation "/b"
    "invalid schema: 12 is not valid under any of the schemas listed in the 'anyOf' keyword") := by
    decide +kernel
  obtain ⟨hiff, -⟩ := Validator.failed_response_status_iff danglingValidator
    danglingValidator.stores (.ofTarget Method.get "/b") 200 .null h
  exact ⟨_, h, rfl, hiff.mp rfl⟩

set_option maxRecDepth 10000 in
/-- Otherwise the client is. -/
theorem failed_response_status_ne :
    Validator.ofContract dangling danglingConfig = .ok danglingValidator ∧
      ∃ f, danglingResult "/a" = .error f ∧ f.status ≠ 500 := by
  have h : danglingResult "/a" = .error (.contractShape "#/components/responses/Nope"
      (.danglingReference "#/components/responses/Nope")) := by decide +kernel
  exact ⟨rfl, _, h, by decide⟩

end ApiContract
