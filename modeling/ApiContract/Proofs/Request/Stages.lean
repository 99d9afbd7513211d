import ApiContract.Proofs.Failing
import ApiContract.Proofs.Store.History
import ApiContract.Validator
/-!
# The stages of validating a request

What `validateRequest` can do, said once. A call comes as far as a plan or ends before one, and a
call that has a plan ends in one of three ways. What else is known about requests is derived from
these two facts.
-/

namespace ApiContract

/-- The route of a request, the parameters in its path, and the plan that it is checked against. -/
structure Matching where
  route : Route
  params : Assoc String
  plan : RequestPlan

/-- What a plan of a route holds. -/
theorem RequestPlan.build_eq_ok_iff {c : Contract} {compiler : Compiler} {route : Route}
    {contentType : ContentType} {plan : RequestPlan} :
    build c compiler route contentType = .ok plan ↔
      RequestSchema.synthesize c route contentType = .ok plan.schema ∧
        compiler.compile plan.schema.toSchema route.template = .ok plan.validator ∧
        route.securityQueryParameters c = plan.securityQueryParameters := by
  constructor
  · intro h
    obtain ⟨schema, hschema, h⟩ := Except.bind_eq_ok_iff.mp h
    obtain ⟨validator, hvalidator, h⟩ := Except.bind_eq_ok_iff.mp h
    obtain rfl := Except.ok.inj h
    exact ⟨hschema, hvalidator, rfl⟩
  · rintro ⟨hschema, hvalidator, hsecurity⟩
    refine Except.bind_eq_ok_iff.mpr ⟨_, hschema, Except.bind_eq_ok_iff.mpr ⟨_, hvalidator, ?_⟩⟩
    rw [hsecurity]
    rfl

namespace RequestValidator

variable {x : RequestValidator} {store : Store RequestPlan} {r : Request}

/-- What a request is checked against, if the call comes that far: its path and method are declared,
and the plan is stored or can be built. -/
def matching? (x : RequestValidator) (store : Store RequestPlan) (r : Request) : Option Matching :=
  match x.index.lookup r.method r.path with
  | .matched route params =>
    match x.findPlan store route r with
    | (.ok plan, _) => some ⟨route, params, plan⟩
    | (.error _, _) => none
  | _ => none

/-! ## As far as a plan -/

/-- Without a store the plan is built. -/
theorem findPlan_of_disabled (h : store.enabled = false) (route : Route) :
    x.findPlan store route r =
      (RequestPlan.build x.contract x.compiler route (ContentType.ofHeaders r.headers), store) := by
  unfold findPlan
  exact Store.getOrBuild_of_disabled _ _ h

/-- A request that is checked against a plan gets the outcome of the check. -/
theorem validate_of_matching? {m : Matching} (h : x.matching? store r = some m) :
    (x.validate store r).1 = (x.check m.plan m.route.template m.params r).1 ∧
      (x.validate store r).2.1 = (x.check m.plan m.route.template m.params r).2 := by
  unfold matching? at h
  unfold validate
  split at h
  · next route params hl =>
    rw [hl]
    split at h
    · next plan store' hf =>
      simp only [Option.some.injEq] at h
      subst h
      simp only [hf]
      exact ⟨trivial, trivial⟩
    · simp at h
  · simp at h

/-- A call that comes to no plan hands the request back, and validates nothing. -/
theorem validate_of_matching?_none (h : x.matching? store r = none) :
    (x.validate store r).2.1 = r ∧
      ∀ template, (x.validate store r).1 ≠ .ok (.validated template) := by
  unfold matching? at h
  unfold validate
  cases hl : x.index.lookup r.method r.path with
  | methodNotAllowed template => simp
  | unmanaged => simp
  | matched route params =>
    simp only [hl] at h ⊢
    split at h
    · simp at h
    · next f store' hf => simp [hf]

/-- The plan was stored, or it is built for the route. -/
theorem plan_of_matching? {m : Matching} (h : x.matching? store r = some m) :
    store.get? (.of r.method m.route.template (ContentType.ofHeaders r.headers)) = some m.plan ∨
      RequestPlan.build x.contract x.compiler m.route (ContentType.ofHeaders r.headers) =
        .ok m.plan := by
  unfold matching? at h
  split at h
  · split at h
    · next plan store' hf =>
      obtain rfl := Option.some.inj h
      exact Store.get?_or_built (congrArg Prod.fst hf)
    · cases h
  · cases h

/-! ## From the plan on -/

/-- A check refuses a key of the query, finds problems, or accepts and writes back. -/
theorem check_cases (x : RequestValidator) (plan : RequestPlan) (template : String)
    (params : Assoc String) (r : Request) :
    (∃ key, x.refusedKey? plan r = some key ∧
      x.check plan template params r = (.error (.unknownQueryParameter key), r)) ∨
    (x.refusedKey? plan r = none ∧ ∃ problems, problems ≠ [] ∧
      plan.validator.problems (instanceOf (x.prepare plan params r).1
        (x.prepare plan params r).2.body) = problems ∧
      x.check plan template params r =
        (.error (.schemaValidation problems), (x.prepare plan params r).2)) ∨
    (x.refusedKey? plan r = none ∧
      plan.validator.problems (instanceOf (x.prepare plan params r).1
        (x.prepare plan params r).2.body) = [] ∧
      x.check plan template params r = (.ok (.validated template),
        writeBack plan.schema (x.prepare plan params r).1 (x.prepare plan params r).2)) := by
  unfold check
  cases hk : x.refusedKey? plan r with
  | some key => exact Or.inl ⟨key, rfl, rfl⟩
  | none =>
    refine Or.inr ?_
    generalize x.prepare plan params r = prepared
    obtain ⟨values, r'⟩ := prepared
    simp only [true_and]
    cases hp : plan.validator.problems (instanceOf values r'.body) with
    | nil => exact Or.inr ⟨rfl, rfl⟩
    | cons p ps => exact Or.inl ⟨p :: ps, by simp, rfl, rfl⟩

end RequestValidator

namespace Validator

variable {x : Validator} {s : Stores} {r : Request}

/-- What a request is checked against, when requests are validated and the call comes that far. -/
def matching? (x : Validator) (s : Stores) (r : Request) : Option Matching :=
  if x.config.validateRequests then x.requests.matching? s.requests r else none

theorem validateRequest_of_matching? {m : Matching} (h : x.matching? s r = some m) :
    (x.validateRequest s r).1 = (x.requests.check m.plan m.route.template m.params r).1 ∧
      (x.validateRequest s r).2.1 = (x.requests.check m.plan m.route.template m.params r).2 := by
  unfold matching? at h
  split at h
  · next hv =>
    unfold validateRequest
    rw [if_pos hv]
    exact RequestValidator.validate_of_matching? h
  · simp at h

theorem validateRequest_of_matching?_none (h : x.matching? s r = none) :
    (x.validateRequest s r).2.1 = r ∧
      ∀ template, (x.validateRequest s r).1 ≠ .ok (.validated template) := by
  unfold matching? at h
  unfold validateRequest
  split at h
  · next hv =>
    rw [if_pos hv]
    exact RequestValidator.validate_of_matching?_none h
  · next hv => rw [if_neg hv]; exact ⟨rfl, by simp⟩

/-- Requests with one method, path and headers come to one plan, or to one result without any. -/
theorem validateRequest_of_samePath {r' : Request} (hmethod : r.method = r'.method)
    (hpath : r.path = r'.path) (hheaders : r.headers = r'.headers) :
    x.matching? s r' = x.matching? s r ∧
      (x.validateRequest s r').2.2 = (x.validateRequest s r).2.2 ∧
      (x.matching? s r = none → (x.validateRequest s r').1 = (x.validateRequest s r).1) := by
  have hfind : ∀ route, x.requests.findPlan s.requests route r' =
      x.requests.findPlan s.requests route r := by
    intro route
    unfold RequestValidator.findPlan
    rw [hmethod, hheaders]
  unfold matching? validateRequest RequestValidator.matching? RequestValidator.validate
  rw [← hpath, ← hmethod]
  split
  · cases hl : x.requests.index.lookup r.method r.path with
    | methodNotAllowed template => simp [hpath]
    | unmanaged => simp
    | matched route params =>
      simp only [hfind]
      cases x.requests.findPlan s.requests route r with
      | mk found store => cases found <;> simp
  · simp

/-- The values of a request that are judged under a plan. -/
def judged (x : Validator) (m : Matching) (r : Request) : PerLocation (Assoc Json) :=
  (x.requests.prepare m.plan m.params r).1

/-- A request that keeps its contract was judged, without problems, and written back. -/
theorem exists_matching_of_validated {template : String}
    (h : (x.validateRequest s r).1 = .ok (.validated template)) :
    ∃ m, x.matching? s r = some m ∧ m.route.template = template ∧
      m.plan.validator.problems (RequestValidator.instanceOf (x.judged m r)
        (x.requests.prepare m.plan m.params r).2.body) = [] ∧
      (x.validateRequest s r).2.1 = RequestValidator.writeBack m.plan.schema (x.judged m r)
        (x.requests.prepare m.plan m.params r).2 := by
  cases hm : x.matching? s r with
  | none => exact absurd h ((validateRequest_of_matching?_none hm).2 template)
  | some m =>
    obtain ⟨hresult, hrequest⟩ := validateRequest_of_matching? hm
    rw [h] at hresult
    refine ⟨m, rfl, ?_⟩
    rcases x.requests.check_cases m.plan m.route.template m.params r with
      ⟨key, -, hc⟩ | ⟨-, problems, -, -, hc⟩ | ⟨-, hp, hc⟩ <;> rw [hc] at hresult hrequest
    · simp at hresult
    · simp at hresult
    · simp only [Except.ok.injEq, Outcome.validated.injEq] at hresult
      exact ⟨hresult.symm, hp, hrequest⟩

end Validator

end ApiContract
