import ApiContract.Proofs.Request.Stages
import ApiContract.Proofs.Store.History
/-!
# Whether storing shows

A session is a list of calls to one validator. Without stores every call is answered as if it were
made alone. With stores a call may be answered by what an earlier call has built, and whether that
shows depends on the keys: they are texts, so different routes and content types may share one. It
does not show in a session whose keys tell its builds apart.
-/

namespace ApiContract

/-- A call to a validator. -/
inductive Call where
  | request (r : Request)
  | response (r : Request) (status : Nat) (body : Json)

/-- The answer to a call. A request is handed back. -/
inductive Answer where
  | request (result : Except Failure Outcome) (r : Request)
  | response (result : Except Failure Json)
deriving DecidableEq

namespace RequestValidator

variable {x : RequestValidator} {store : Store RequestPlan} {r : Request}

/-- What a request asks of the store. -/
def demand? (x : RequestValidator) (r : Request) : Option (Demand Failure RequestPlan) :=
  match x.index.lookup r.method r.path with
  | .matched route _ =>
    let contentType := ContentType.ofHeaders r.headers
    some ⟨.of r.method route.template contentType,
      RequestPlan.build x.contract x.compiler route contentType⟩
  | _ => none

theorem validate_store : (x.validate store r).2.2 = store.meet (x.demand? r) := by
  unfold validate demand?
  cases x.index.lookup r.method r.path with
  | matched route params =>
    simp only [Store.meet]
    rw [← findPlan]
    cases x.findPlan store route r with
    | mk result store => cases result <;> rfl
  | _ => rfl

/-- A request for which nothing is stored is answered as without a store. -/
theorem validate_of_get?_none {store' : Store RequestPlan} (h' : store'.enabled = false)
    (h : ∀ d, x.demand? r = some d → store.get? d.key = none) :
    (x.validate store r).1 = (x.validate store' r).1 ∧
      (x.validate store r).2.1 = (x.validate store' r).2.1 := by
  unfold validate
  unfold demand? at h
  cases hl : x.index.lookup r.method r.path with
  | matched route params =>
    simp only [hl] at h ⊢
    have hnone := h _ rfl
    simp only [findPlan, Store.getOrBuild, h', Bool.false_eq_true, if_false] at hnone ⊢
    rw [hnone]
    cases RequestPlan.build x.contract x.compiler route (ContentType.ofHeaders r.headers) <;>
      cases store.enabled <;> exact ⟨rfl, rfl⟩
  | _ => exact ⟨rfl, rfl⟩

/-- A request for which a plan is stored is checked against that plan. -/
theorem validate_of_get? {route : Route} {params : Assoc String} {d : Demand Failure RequestPlan}
    {plan : RequestPlan} (h : store.enabled = true)
    (hl : x.index.lookup r.method r.path = .matched route params)
    (hd : x.demand? r = some d) (hp : store.get? d.key = some plan) :
    (x.validate store r).1 = (x.check plan route.template params r).1 ∧
      (x.validate store r).2.1 = (x.check plan route.template params r).2 := by
  unfold demand? at hd
  simp only [hl, Option.some.injEq] at hd
  subst hd
  unfold validate findPlan
  simp [hl, Store.getOrBuild_of_get? _ h hp]

theorem exists_matched_of_demand? {d : Demand Failure RequestPlan} (h : x.demand? r = some d) :
    ∃ route params, x.index.lookup r.method r.path = .matched route params := by
  unfold demand? at h
  split at h
  · next route params hl => exact ⟨route, params, hl⟩
  · simp at h

end RequestValidator

namespace ResponseValidator

variable {x : ResponseValidator} {store : Store ResponseValidators} {r : Request} {status : Nat}
  {body : Json}

/-- What the response to a request asks of the store. -/
def demand? (x : ResponseValidator) (r : Request) : Option (Demand Failure ResponseValidators) :=
  match x.index.lookup r.method r.path with
  | .matched route _ =>
    some ⟨.of r.method route.template (ContentType.ofHeaders r.headers),
      ResponseValidators.build x.contract x.compiler route⟩
  | _ => none

theorem validate_store : (x.validate store r status body).2 = store.meet (x.demand? r) := by
  unfold validate demand?
  cases x.index.lookup r.method r.path with
  | matched route params =>
    simp only [Store.meet]
    rw [← findValidators]
    cases x.findValidators store route r with
    | mk result store => cases result <;> rfl
  | _ => rfl

/-- A response for which nothing is stored is answered as without a store. -/
theorem validate_of_get?_none {store' : Store ResponseValidators} (h' : store'.enabled = false)
    (h : ∀ d, x.demand? r = some d → store.get? d.key = none) :
    (x.validate store r status body).1 = (x.validate store' r status body).1 := by
  unfold validate
  unfold demand? at h
  cases hl : x.index.lookup r.method r.path with
  | matched route params =>
    simp only [hl] at h ⊢
    have hnone := h _ rfl
    simp only [findValidators, Store.getOrBuild, h', Bool.false_eq_true, if_false] at hnone ⊢
    rw [hnone]
    cases ResponseValidators.build x.contract x.compiler route <;> cases store.enabled <;> rfl
  | _ => rfl

/-- A response for which validators are stored is checked against those. -/
theorem validate_of_get? {d : Demand Failure ResponseValidators} {validators : ResponseValidators}
    (h : store.enabled = true) (hd : x.demand? r = some d)
    (hp : store.get? d.key = some validators) :
    (x.validate store r status body).1 = check validators r.target status body := by
  unfold demand? at hd
  split at hd
  · next route params hl =>
    simp only [Option.some.injEq] at hd
    subst hd
    unfold validate findValidators
    simp only [hl, Store.getOrBuild_of_get? _ h hp]
  · simp at hd

end ResponseValidator

namespace Validator

/-! ## Sessions -/

/-- The validator that stores what it builds. -/
def cached (x : Validator) : Validator := { x with config := { x.config with schemaCache := true } }

/-- The validator that builds anew every time. -/
def uncached (x : Validator) : Validator :=
  { x with config := { x.config with schemaCache := false } }

/-- Answer a call. -/
def serve (x : Validator) (s : Stores) : Call → Answer × Stores
  | .request r =>
    let (result, r, s) := x.validateRequest s r
    (.request result r, s)
  | .response r status body =>
    let (result, s) := x.validateResponse s r status body
    (.response result, s)

/-- Answer calls one after the other. -/
def answersFrom (x : Validator) (s : Stores) : List Call → List Answer
  | [] => []
  | c :: calls => (x.serve s c).1 :: x.answersFrom (x.serve s c).2 calls

/-- The answers to a session. -/
def answers (x : Validator) (calls : List Call) : List Answer := x.answersFrom x.stores calls

/-- The stores after a session. -/
def storesAfter (x : Validator) (calls : List Call) : Stores :=
  calls.foldl (fun s c => (x.serve s c).2) x.stores

/-- The answer to a call that is made alone. -/
def alone (x : Validator) (c : Call) : Answer := (x.uncached.serve x.uncached.stores c).1

/-- The answers are those of a function exactly if each call gets its own after those before it. -/
theorem answersFrom_eq_map_iff (x : Validator) (s : Stores) (f : Call → Answer)
    (calls : List Call) :
    x.answersFrom s calls = calls.map f ↔ ∀ before c after, calls = before ++ c :: after →
      (x.serve (before.foldl (fun s c => (x.serve s c).2) s) c).1 = f c := by
  induction calls generalizing s with
  | nil => simp [answersFrom]
  | cons c calls ih =>
    simp only [answersFrom, List.map_cons, List.cons.injEq, ih]
    constructor
    · rintro ⟨hc, hcalls⟩ before c' after h
      cases before with
      | nil =>
        simp only [List.nil_append, List.cons.injEq] at h
        rw [← h.1]
        exact hc
      | cons b before =>
        simp only [List.cons_append, List.cons.injEq] at h
        rw [List.foldl_cons, ← h.1]
        exact hcalls before c' after h.2
    · intro h
      refine ⟨h [] c calls rfl, fun before c' after hc => ?_⟩
      exact h (c :: before) c' after (by rw [hc]; rfl)

/-! ## What a session stores -/

/-- What a call asks of the store of plans. -/
def planDemand? (x : Validator) : Call → Option (Demand Failure RequestPlan)
  | .request r => if x.config.validateRequests then x.requests.demand? r else none
  | .response .. => none

/-- What a call asks of the store of response validators. -/
def responseDemand? (x : Validator) : Call → Option (Demand Failure ResponseValidators)
  | .request _ => none
  | .response r _ _ => if x.config.validateResponses then x.responses.demand? r else none

theorem serve_stores (x : Validator) (s : Stores) (c : Call) :
    (x.serve s c).2 =
      ⟨s.requests.meet (x.planDemand? c), s.responses.meet (x.responseDemand? c)⟩ := by
  cases c with
  | request r =>
    simp only [serve, validateRequest, planDemand?, responseDemand?]
    split
    · simp only [RequestValidator.validate_store]
      rfl
    · rfl
  | response r status body =>
    simp only [serve, validateResponse, planDemand?, responseDemand?]
    split
    · simp only [ResponseValidator.validate_store]
      rfl
    · rfl

theorem storesAfter_eq (x : Validator) (calls : List Call) :
    x.storesAfter calls = ⟨(calls.map x.planDemand?).foldl Store.meet x.stores.requests,
      (calls.map x.responseDemand?).foldl Store.meet x.stores.responses⟩ := by
  unfold storesAfter
  generalize x.stores = s
  induction calls generalizing s with
  | nil => rfl
  | cons c calls ih => rw [List.foldl_cons, ih, serve_stores]; rfl

/-- Stores are switched on or off by the validator alone. -/
theorem enabled_storesAfter (x : Validator) (calls : List Call) :
    (x.storesAfter calls).requests.enabled = x.config.schemaCache ∧
      (x.storesAfter calls).responses.enabled = x.config.schemaCache := by
  rw [storesAfter_eq]
  exact ⟨Store.enabled_foldl_meet _ _, Store.enabled_foldl_meet _ _⟩

/-- The plan that a session has stored for a request. -/
def storedPlan? (x : Validator) (before : List Call) (r : Request) : Option RequestPlan :=
  (x.planDemand? (.request r)).bind fun d =>
    Demand.firstBuilt? (before.map x.planDemand?) d.key

/-- The validators that a session has stored for the response to a request. -/
def storedValidators? (x : Validator) (before : List Call) (r : Request) (status : Nat)
    (body : Json) : Option ResponseValidators :=
  (x.responseDemand? (.response r status body)).bind fun d =>
    Demand.firstBuilt? (before.map x.responseDemand?) d.key

theorem get?_storesAfter_requests (x : Validator) (before : List Call) (key : StoreKey) :
    (x.cached.storesAfter before).requests.get? key =
      Demand.firstBuilt? (before.map x.planDemand?) key := by
  rw [storesAfter_eq]
  exact Store.get?_foldl_meet rfl _ key

theorem get?_storesAfter_responses (x : Validator) (before : List Call) (key : StoreKey) :
    (x.cached.storesAfter before).responses.get? key =
      Demand.firstBuilt? (before.map x.responseDemand?) key := by
  rw [storesAfter_eq]
  exact Store.get?_foldl_meet rfl _ key

/-! ## Whether it shows -/

/-- Whether what a call finds stored gives it the answer that it gets alone. -/
def Undisturbed (x : Validator) (before : List Call) : Call → Prop
  | .request r => ∀ plan route params, x.storedPlan? before r = some plan →
    x.index.lookup r.method r.path = .matched route params →
    let (result, r') := x.requests.check plan route.template params r
    .request result r' = x.alone (.request r)
  | .response r status body => ∀ validators,
    x.storedValidators? before r status body = some validators →
    .response (ResponseValidator.check validators r.target status body) =
      x.alone (.response r status body)

/-- Without stores every call is answered as if alone. -/
theorem answers_uncached (x : Validator) (calls : List Call) :
    x.uncached.answers calls = calls.map x.alone := by
  -- a store that is switched off stays as it is
  have hstores : ∀ before, x.uncached.storesAfter before = x.uncached.stores := by
    intro before
    induction before with
    | nil => rfl
    | cons b before ih =>
      unfold storesAfter at ih ⊢
      rw [List.foldl_cons, serve_stores, Store.meet_of_disabled rfl, Store.meet_of_disabled rfl]
      exact ih
  exact (answersFrom_eq_map_iff _ _ _ _).mpr fun before c _ _ =>
    congrArg (fun s => (x.uncached.serve s c).1) (hstores before)

/-- With stores a request is answered as if alone, exactly if nothing disturbs it. -/
theorem serve_request_eq_alone_iff (x : Validator) (before : List Call) (r : Request) :
    (x.cached.serve (x.cached.storesAfter before) (.request r)).1 = x.alone (.request r) ↔
      x.Undisturbed before (.request r) := by
  have henabled : (x.cached.storesAfter before).requests.enabled = true :=
    (x.cached.enabled_storesAfter before).1
  have hget := x.get?_storesAfter_requests before
  generalize x.cached.storesAfter before = s at henabled hget
  simp only [Undisturbed, storedPlan?, planDemand?, serve, alone, validateRequest]
  rw [show x.cached.config.validateRequests = x.config.validateRequests from rfl,
    show x.uncached.config.validateRequests = x.config.validateRequests from rfl,
    show x.cached.requests = x.requests from rfl, show x.uncached.requests = x.requests from rfl]
  cases x.config.validateRequests with
  | false => simp
  | true =>
    simp only [if_true]
    cases hstored : (x.requests.demand? r).bind fun d =>
        Demand.firstBuilt? (before.map x.planDemand?) d.key with
    | none =>
      have hnone : ∀ d, x.requests.demand? r = some d → s.requests.get? d.key = none := by
        intro d hd
        rw [hget]
        simpa [hd] using hstored
      have hanswer := @RequestValidator.validate_of_get?_none _ _ _ x.uncached.stores.requests rfl
        hnone
      simp [hanswer]
    | some plan =>
      obtain ⟨d, hd, hplan⟩ := Option.bind_eq_some_iff.mp hstored
      obtain ⟨route, params, hl⟩ := RequestValidator.exists_matched_of_demand? hd
      obtain ⟨hresult, hrequest⟩ := RequestValidator.validate_of_get? henabled hl hd
        ((hget d.key).trans hplan)
      rw [hresult, hrequest]
      -- the route that was looked up and the plan that is stored are the only ones
      constructor
      · intro h plan' route' params' hplan' hl'
        cases hplan'
        cases hl.symm.trans hl'
        exact h
      · intro h
        exact h plan route params rfl hl

/-- With stores a response is answered as if alone, exactly if nothing disturbs it. -/
theorem serve_response_eq_alone_iff (x : Validator) (before : List Call) (r : Request)
    (status : Nat) (body : Json) :
    (x.cached.serve (x.cached.storesAfter before) (.response r status body)).1 =
        x.alone (.response r status body) ↔
      x.Undisturbed before (.response r status body) := by
  have henabled : (x.cached.storesAfter before).responses.enabled = true :=
    (x.cached.enabled_storesAfter before).2
  have hget := x.get?_storesAfter_responses before
  generalize x.cached.storesAfter before = s at henabled hget
  simp only [Undisturbed, storedValidators?, responseDemand?, serve, alone, validateResponse]
  rw [show x.cached.config.validateResponses = x.config.validateResponses from rfl,
    show x.uncached.config.validateResponses = x.config.validateResponses from rfl,
    show x.cached.responses = x.responses from rfl,
    show x.uncached.responses = x.responses from rfl]
  cases x.config.validateResponses with
  | false => simp
  | true =>
    simp only [if_true]
    cases hstored : (x.responses.demand? r).bind fun d =>
        Demand.firstBuilt? (before.map x.responseDemand?) d.key with
    | none =>
      have hnone : ∀ d, x.responses.demand? r = some d → s.responses.get? d.key = none := by
        intro d hd
        rw [hget]
        simpa [hd] using hstored
      have hanswer := @ResponseValidator.validate_of_get?_none _ _ _ status body
        x.uncached.stores.responses rfl hnone
      simp [hanswer]
    | some validators =>
      obtain ⟨d, hd, hvalidators⟩ := Option.bind_eq_some_iff.mp hstored
      have hanswer := @ResponseValidator.validate_of_get? _ _ _ status body _ _ henabled hd
        ((hget d.key).trans hvalidators)
      simp [hanswer]

theorem serve_eq_alone_iff (x : Validator) (before : List Call) (c : Call) :
    (x.cached.serve (x.cached.storesAfter before) c).1 = x.alone c ↔ x.Undisturbed before c := by
  cases c with
  | request r => exact x.serve_request_eq_alone_iff before r
  | response r status body => exact x.serve_response_eq_alone_iff before r status body

/-! ## Keys that tell builds apart -/

/-- Whether calls whose keys are one text ask for one build. -/
structure KeysTell (x : Validator) (calls : List Call) : Prop where
  plans : ∀ c ∈ calls, ∀ c' ∈ calls, ∀ d d', x.planDemand? c = some d →
    x.planDemand? c' = some d' → d.key.render = d'.key.render → d.built = d'.built
  validators : ∀ c ∈ calls, ∀ c' ∈ calls, ∀ d d', x.responseDemand? c = some d →
    x.responseDemand? c' = some d' → d.key.render = d'.key.render → d.built = d'.built

/-- A request whose plan can be built is, alone, checked against it. -/
theorem alone_request_of_built {x : Validator} {r : Request} {d : Demand Failure RequestPlan}
    {plan : RequestPlan} {route : Route} {params : Assoc String}
    (hl : x.index.lookup r.method r.path = .matched route params)
    (hd : x.planDemand? (.request r) = some d) (hb : d.built = .ok plan) :
    x.alone (.request r) = .request (x.requests.check plan route.template params r).1
      (x.requests.check plan route.template params r).2 := by
  simp only [planDemand?] at hd
  split at hd
  · next hv =>
    simp only [RequestValidator.demand?, show x.requests.index = x.index from rfl, hl,
      Option.some.injEq] at hd
    subst hd
    simp only at hb
    have hvalidate : x.requests.validate x.uncached.stores.requests r =
        ((x.requests.check plan route.template params r).1,
          (x.requests.check plan route.template params r).2, x.uncached.stores.requests) := by
      unfold RequestValidator.validate
      rw [show x.requests.index = x.index from rfl, hl]
      simp only [RequestValidator.findPlan_of_disabled
        (show x.uncached.stores.requests.enabled = false from rfl), hb]
    simp only [alone, serve, validateRequest, show x.uncached.requests = x.requests from rfl,
      show x.uncached.config.validateRequests = true from hv, if_true, hvalidate]
  · simp at hd

/-- A response whose validators can be built is, alone, checked against them. -/
theorem alone_response_of_built {x : Validator} {r : Request} {status : Nat} {body : Json}
    {d : Demand Failure ResponseValidators} {validators : ResponseValidators}
    (hd : x.responseDemand? (.response r status body) = some d) (hb : d.built = .ok validators) :
    x.alone (.response r status body) =
      .response (ResponseValidator.check validators r.target status body) := by
  simp only [responseDemand?] at hd
  split at hd
  · next hv =>
    unfold ResponseValidator.demand? at hd
    split at hd
    · next route params hl =>
      obtain rfl := Option.some.inj hd
      simp only at hb
      have hvalidate : x.responses.validate x.uncached.stores.responses r status body =
          (ResponseValidator.check validators r.target status body,
            x.uncached.stores.responses) := by
        unfold ResponseValidator.validate ResponseValidator.findValidators
        rw [hl]
        simp only [Store.getOrBuild_of_disabled _ _
          (show x.uncached.stores.responses.enabled = false from rfl), hb]
      simp only [alone, serve, validateResponse, show x.uncached.responses = x.responses from rfl,
        show x.uncached.config.validateResponses = true from hv, if_true, hvalidate]
    · simp at hd
  · simp at hd

/-- What a session has stored for a call was asked for by a call before it. -/
theorem exists_before_of_firstBuilt? {β : Type} {ask : Call → Option (Demand Failure β)}
    {before : List Call} {key : StoreKey} {built : β}
    (h : Demand.firstBuilt? (before.map ask) key = some built) :
    ∃ b ∈ before, ∃ d, ask b = some d ∧ d.key.render = key.render ∧ d.built = .ok built := by
  obtain ⟨d, hmem, hkey, hbuilt⟩ := Demand.exists_of_firstBuilt? h
  obtain ⟨b, hb, hask⟩ := List.mem_map.mp hmem
  exact ⟨b, hb, d, hask, hkey, hbuilt⟩

/-- Where keys tell builds apart, no call is disturbed. -/
theorem KeysTell.undisturbed {x : Validator} {calls before after : List Call} {c : Call}
    (h : x.KeysTell calls) (hcalls : calls = before ++ c :: after) : x.Undisturbed before c := by
  have hc : c ∈ calls := by simp [hcalls]
  have hbefore : ∀ b ∈ before, b ∈ calls := fun b hb => by simp [hcalls, hb]
  cases c with
  | request r =>
    intro plan route params hstored hl
    obtain ⟨d, hd, hfirst⟩ := Option.bind_eq_some_iff.mp hstored
    obtain ⟨b, hb, d', hd', hkey, hbuilt⟩ := exists_before_of_firstBuilt? hfirst
    rw [← h.plans _ hc b (hbefore b hb) d d' hd hd' hkey.symm] at hbuilt
    exact (alone_request_of_built hl hd hbuilt).symm
  | response r status body =>
    intro validators hstored
    obtain ⟨d, hd, hfirst⟩ := Option.bind_eq_some_iff.mp hstored
    obtain ⟨b, hb, d', hd', hkey, hbuilt⟩ := exists_before_of_firstBuilt? hfirst
    rw [← h.validators _ hc b (hbefore b hb) d d' hd hd' hkey.symm] at hbuilt
    exact (alone_response_of_built hd hbuilt).symm

/--
**When storing does not show.** The answers to a session are those without stores exactly if no call
is disturbed by what was stored before it. So they are where calls whose keys are one text ask for
one build.
-/
theorem answers_cached_eq_uncached_iff (x : Validator) (calls : List Call) :
    (x.cached.answers calls = x.uncached.answers calls ↔
      ∀ before c after, calls = before ++ c :: after → x.Undisturbed before c) ∧
    (x.KeysTell calls → x.cached.answers calls = x.uncached.answers calls) := by
  have hiff : x.cached.answers calls = x.uncached.answers calls ↔
      ∀ before c after, calls = before ++ c :: after → x.Undisturbed before c := by
    rw [answers_uncached]
    refine (answersFrom_eq_map_iff _ _ _ _).trans ?_
    exact forall_congr' fun before => forall_congr' fun c => forall_congr' fun after =>
      imp_congr_right fun _ => x.serve_eq_alone_iff before c
  exact ⟨hiff, fun h => hiff.mpr fun _ _ _ hcalls => h.undisturbed hcalls⟩

end Validator

/-! ## Two routes with one key -/

/-- A contract with `GET /a`, whose query may hold an integer `n`, and `GET /a-b`, which has no
query. -/
def hyphenated : Contract where
  root := [
    ("openapi", .string "3.0.3"),
    ("paths", .object [
      ("/a", .object [("get", .object [
        ("parameters", .array [.object [
          ("in", .string "query"),
          ("name", .string "n"),
          ("schema", .object [("type", .string "integer")])]]),
        ("responses", .object [])])]),
      ("/a-b", .object [("get", .object [("responses", .object [])])])])]
  version := "3.0.3"

def hyphenatedValidator : Validator :=
  ⟨hyphenated, .ofRoutes (hyphenated.routes.toOption.getD []), {}⟩

/-- A call to `/a`, with `b-c` for its content type. -/
def firstCall : Call :=
  .request ((Request.ofTarget Method.get "/a").withHeader "content-type" "b-c")

/-- A call to `/a-b`, with `c` for its content type: the key is another, but not its text. -/
def secondCall : Call :=
  .request ((Request.ofTarget Method.get "/a-b?n=1").withHeader "content-type" "c")

/-- A call to `/a-b`, with `d` for its content type: the text of the key is another too. -/
def otherCall : Call :=
  .request ((Request.ofTarget Method.get "/a-b?n=1").withHeader "content-type" "d")

theorem keysTell_otherCall : hyphenatedValidator.KeysTell [firstCall, otherCall] := by
  have hkeys : (hyphenatedValidator.planDemand? firstCall).map (·.key.render) ≠
      (hyphenatedValidator.planDemand? otherCall).map (·.key.render) := by decide +kernel
  constructor
  · intro c hc c' hc' d d' hd hd' hkey
    have hsame : c = c' → d.built = d'.built := by
      rintro rfl
      rw [Option.some.inj (hd.symm.trans hd')]
    have hequal : (hyphenatedValidator.planDemand? c).map (·.key.render) =
        (hyphenatedValidator.planDemand? c').map (·.key.render) := by
      rw [hd, hd', Option.map_some, Option.map_some, hkey]
    rcases List.mem_pair.mp hc with rfl | rfl <;> rcases List.mem_pair.mp hc' with rfl | rfl
    · exact hsame rfl
    · exact absurd hequal hkeys
    · exact absurd hequal.symm hkeys
    · exact hsame rfl
  · intro c hc _ _ d _ hd
    rcases List.mem_pair.mp hc with rfl | rfl <;> cases hd

/-- Both routes are answered as without stores where the content types keep their keys apart. -/
theorem answers_cached_eq_uncached_otherCall :
    hyphenatedValidator.KeysTell [firstCall, otherCall] ∧
      hyphenatedValidator.cached.answers [firstCall, otherCall] =
        hyphenatedValidator.uncached.answers [firstCall, otherCall] :=
  ⟨keysTell_otherCall,
    (Validator.answers_cached_eq_uncached_iff _ _).2 keysTell_otherCall⟩

set_option maxRecDepth 10000 in
/-- The plan of one route is taken for the other. -/
theorem answers_cached_ne_uncached :
    Validator.ofContract hyphenated {} = .ok hyphenatedValidator ∧
      hyphenatedValidator.cached.answers [firstCall, secondCall] ≠
        hyphenatedValidator.uncached.answers [firstCall, secondCall] :=
  ⟨rfl, by decide +kernel⟩

end ApiContract
