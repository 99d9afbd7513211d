import ApiContract.Proofs.Assoc.Ascending
import ApiContract.Proofs.Media.Spellings
import ApiContract.Proofs.Route.Operations
import ApiContract.Proofs.Store.Transparency
import Mathlib.Data.List.Infix
import Mathlib.Data.List.Nodup
import Mathlib.Data.List.Perm.Subperm
/-!
# Whether the store of plans is bounded

A plan is stored under its bucket, which is taken from a header of the client, so a contract bounds
its plans only where it bounds the buckets of the headers that it accepts. It does so exactly when
every header for which a plan is built is pinned: a route that declares no content accepts every
header, and wildcards accept subtypes without end, but routes that declare plain media types accept
no others.
-/

namespace ApiContract

/-! ## What is stored was asked for -/

namespace Store

variable {β ε : Type}

/-- Whether one of some demands has a key in text, and its build succeeds. -/
def Built (ds : List (Option (Demand ε β))) (text : String) : Prop :=
  ∃ d x, some d ∈ ds ∧ d.key.render = text ∧ d.built = .ok x

/-- One demand adds nothing but its own key, and only if its build succeeds. -/
theorem mem_keys_meet {s : Store β} {d : Option (Demand ε β)} {text : String}
    (h : text ∈ (s.meet d).entries.keys) : text ∈ s.entries.keys ∨ Built [d] text := by
  cases d with
  | none => exact Or.inl h
  | some d =>
    simp only [meet, getOrBuild] at h
    split at h
    · split at h
      · exact Or.inl h
      · split at h
        · next x hbuilt =>
          rcases Assoc.mem_keys_insert.mp h with rfl | h
          · exact Or.inr ⟨d, x, by simp, rfl, hbuilt⟩
          · exact Or.inl h
        · exact Or.inl h
    · exact Or.inl h

theorem mem_keys_foldl_meet {s : Store β} {ds : List (Option (Demand ε β))} {text : String}
    (h : text ∈ (ds.foldl meet s).entries.keys) : text ∈ s.entries.keys ∨ Built ds text := by
  induction ds generalizing s with
  | nil => exact Or.inl h
  | cons d ds ih =>
    rcases ih h with h | ⟨d', x, hmem, hkey, hbuilt⟩
    · rcases mem_keys_meet h with h | ⟨d', x, hmem, hkey, hbuilt⟩
      · exact Or.inl h
      · exact Or.inr ⟨d', x, List.mem_cons.mpr (Or.inl (List.mem_singleton.mp hmem)), hkey, hbuilt⟩
    · exact Or.inr ⟨d', x, List.mem_cons_of_mem _ hmem, hkey, hbuilt⟩

theorem ascending_meet {s : Store β} (h : s.entries.Ascending) (d : Option (Demand ε β)) :
    (s.meet d).entries.Ascending := by
  cases d with
  | none => exact h
  | some d =>
    simp only [meet, getOrBuild]
    split
    · split
      · exact h
      · split
        · exact h.insert _ _
        · exact h
    · exact h

theorem ascending_foldl_meet {s : Store β} (h : s.entries.Ascending)
    (ds : List (Option (Demand ε β))) : (ds.foldl meet s).entries.Ascending := by
  induction ds generalizing s with
  | nil => exact h
  | cons d ds ih => exact ih (ascending_meet h d)

/-- What was built for is stored. -/
theorem mem_keys_of_built {s : Store β} (henabled : s.enabled = true)
    {ds : List (Option (Demand ε β))} {text : String} (h : Built ds text) :
    text ∈ (ds.foldl meet s).entries.keys := by
  obtain ⟨d, x, hmem, rfl, hbuilt⟩ := h
  have hget := get?_foldl_meet henabled ds d.key
  have hsome : (Demand.firstBuilt? ds d.key).isSome = true := by
    refine List.findSome?_isSome_iff.mpr ⟨some d, hmem, ?_⟩
    simp [Demand.offer?, hbuilt, Except.toOption]
  refine Assoc.contains_iff_mem_keys.mp ?_
  rw [Assoc.contains_eq, ← get?, hget]
  cases s.get? d.key with
  | some y => rfl
  | none => simpa using hsome

end Store

/-! ## Plans for two headers -/

/-- The content that a route declares for the bodies of its requests. -/
def Contract.declaredContent (c : Contract) (route : Route) : Assoc Json :=
  ((route.requestBody.bind fun raw => (c.resolve raw).toOption).bind fun requestBody =>
    (requestBody.member? "content").bind Json.asObject?).getD []

theorem Synthesis.bodySchema_of_select? {c : Contract} {template : String} {content : Assoc Json}
    {h h' : MediaHeader} {schema : Json}
    (hschema : Synthesis.bodySchema c template content (some h) = .ok schema)
    (hselect : MediaType.select? content h' = MediaType.select? content h) :
    Synthesis.bodySchema c template content (some h') = .ok schema := by
  unfold Synthesis.bodySchema at hschema ⊢
  cases hs : MediaType.select? content h with
  | none =>
    simp only [hs] at hschema
    cases hschema
  | some entry =>
    simp only [hs] at hschema hselect
    simp only [hselect]
    exact hschema

/-- The body of a request depends on its header through the entry that the header selects. -/
theorem Synthesis.body_of_select? {c : Contract} {route : Route} {h h' : MediaHeader}
    {body : Json × Bool} (hbody : Synthesis.body c route (some h) = .ok body)
    (hselect : MediaType.select? (c.declaredContent route) h' =
      MediaType.select? (c.declaredContent route) h) :
    Synthesis.body c route (some h') = .ok body := by
  unfold Synthesis.body at hbody ⊢
  unfold Contract.declaredContent at hselect
  cases hraw : route.requestBody with
  | none =>
    rw [hraw] at hbody
    exact hbody
  | some raw =>
    simp only [hraw, Option.bind_some] at hbody hselect ⊢
    obtain ⟨requestBody, hresolve, hbody⟩ := Except.bind_eq_ok_iff.mp hbody
    refine Except.bind_eq_ok_iff.mpr ⟨requestBody, hresolve, ?_⟩
    simp only [hresolve, Except.toOption, Option.bind_some] at hselect
    cases hcontent : (requestBody.member? "content").bind Json.asObject? with
    | none =>
      rw [hcontent] at hbody
      exact hbody
    | some content =>
      simp only [hcontent, Option.getD_some] at hbody hselect ⊢
      obtain ⟨schema, hschema, hbody⟩ := Except.bind_eq_ok_iff.mp hbody
      exact Except.bind_eq_ok_iff.mpr
        ⟨schema, Synthesis.bodySchema_of_select? hschema hselect, hbody⟩

/-- Headers that select the same entry have the same plan. -/
theorem RequestPlan.build_of_select? {c : Contract} {compiler : Compiler} {route : Route}
    {h h' : MediaHeader} {plan : RequestPlan}
    (hbuild : RequestPlan.build c compiler route (some h) = .ok plan)
    (hselect : MediaType.select? (c.declaredContent route) h' =
      MediaType.select? (c.declaredContent route) h) :
    RequestPlan.build c compiler route (some h') = .ok plan := by
  obtain ⟨hschema, hrest⟩ := RequestPlan.build_eq_ok_iff.mp hbuild
  refine RequestPlan.build_eq_ok_iff.mpr ⟨?_, hrest⟩
  obtain ⟨declared, hdeclared, hschema⟩ := Except.bind_eq_ok_iff.mp hschema
  obtain ⟨body, hbody, hschema⟩ := Except.bind_eq_ok_iff.mp hschema
  exact Except.bind_eq_ok_iff.mpr ⟨declared, hdeclared, Except.bind_eq_ok_iff.mpr
    ⟨body, Synthesis.body_of_select? hbody hselect, hschema⟩⟩

/-- A header that selects nothing of what is declared has no plan. -/
theorem RequestPlan.exists_select?_of_build {c : Contract} {compiler : Compiler} {route : Route}
    {h : MediaHeader} {plan : RequestPlan}
    (hbuild : RequestPlan.build c compiler route (some h) = .ok plan)
    (hdeclared : c.declaredContent route ≠ []) :
    ∃ entry, MediaType.select? (c.declaredContent route) h = some entry := by
  obtain ⟨declared, -, hschema⟩ :=
    Except.bind_eq_ok_iff.mp (RequestPlan.build_eq_ok_iff.mp hbuild).1
  obtain ⟨body, hbody, -⟩ := Except.bind_eq_ok_iff.mp hschema
  unfold Synthesis.body at hbody
  unfold Contract.declaredContent at hdeclared ⊢
  cases hraw : route.requestBody with
  | none => simp [hraw] at hdeclared
  | some raw =>
    simp only [hraw, Option.bind_some] at hbody hdeclared ⊢
    obtain ⟨requestBody, hresolve, hbody⟩ := Except.bind_eq_ok_iff.mp hbody
    simp only [hresolve, Except.toOption, Option.bind_some] at hdeclared ⊢
    cases hcontent : (requestBody.member? "content").bind Json.asObject? with
    | none => simp [hcontent] at hdeclared
    | some content =>
      simp only [hcontent, Option.getD_some] at hbody ⊢
      obtain ⟨schema, hschema, -⟩ := Except.bind_eq_ok_iff.mp hbody
      unfold Synthesis.bodySchema at hschema
      cases hselect : MediaType.select? content h with
      | none =>
        simp only [hselect] at hschema
        cases hschema
      | some entry => exact ⟨entry, rfl⟩

namespace Validator

variable {contract : Contract} {config : Config} {x : Validator}

/-! ## What a session of requests stores -/

theorem mem_keys_storesAfter_iff {requests : List Request} {text : String} :
    text ∈ (x.storesAfter (requests.map .request)).requests.entries.keys ↔
      x.config.schemaCache = true ∧ x.config.validateRequests = true ∧
        ∃ r ∈ requests, ∃ d plan, x.requests.demand? r = some d ∧ d.key.render = text ∧
          d.built = .ok plan := by
  rw [storesAfter_eq]
  constructor
  · intro h
    cases hcache : x.config.schemaCache with
    | false =>
      rw [Store.foldl_meet_of_disabled hcache] at h
      exact absurd h List.not_mem_nil
    | true =>
      rcases Store.mem_keys_foldl_meet h with h | ⟨d, plan, hmem, hkey, hbuilt⟩
      · exact absurd h List.not_mem_nil
      · rw [List.map_map] at hmem
        obtain ⟨r, hr, hd⟩ := List.mem_map.mp hmem
        simp only [Function.comp, planDemand?] at hd
        split at hd
        · next hvalidate => exact ⟨rfl, hvalidate, r, hr, d, plan, hd, hkey, hbuilt⟩
        · cases hd
  · rintro ⟨hcache, hvalidate, r, hr, d, plan, hd, hkey, hbuilt⟩
    refine Store.mem_keys_of_built hcache ⟨d, plan, ?_, hkey, hbuilt⟩
    rw [List.map_map]
    refine List.mem_map.mpr ⟨r, hr, ?_⟩
    simp [planDemand?, hvalidate, hd]

/-- A session stores each key once. -/
theorem nodup_keys_storesAfter (requests : List Request) :
    (x.storesAfter (requests.map .request)).requests.entries.keys.Nodup := by
  have hempty : Assoc.Ascending x.stores.requests.entries := List.Pairwise.nil
  rw [storesAfter_eq]
  exact (Store.ascending_foldl_meet hempty _).nodup

theorem length_keys_storesAfter (requests : List Request) :
    (x.storesAfter (requests.map .request)).requests.entries.keys.length =
      (x.storesAfter (requests.map .request)).requests.size := List.length_map _

/-! ## The bound -/

/-- The keys under which a route may have a plan, if all headers that it accepts are pinned: one
for each text that begins a key of its content, and one for requests without a content type. -/
def pinnedKeys (c : Contract) (route : Route) : List String :=
  (ContentType.notProvided ::
    (c.declaredContent route).keys.flatMap fun key => key.toList.inits.map String.ofList).map
      fun bucket => (StoreKey.mk route.method route.template bucket).render

/-- Whether every header for which a request has a plan is pinned. -/
def AllPinned (x : Validator) : Prop :=
  ∀ (r : Request) (route : Route) (params : Assoc String) (header : MediaHeader)
    (plan : RequestPlan), x.index.lookup r.method r.path = .matched route params →
    ContentType.ofHeaders r.headers = some header →
    RequestPlan.build x.contract x.compiler route (some header) = .ok plan →
    header.IsPinned (x.contract.declaredContent route)

/-- What is built for a request goes under a key of its route. -/
theorem mem_pinnedKeys_of_demand? (hpinned : x.AllPinned) {routes : List Route}
    (hindex : x.index = .ofRoutes routes) {r : Request} {d : Demand Failure RequestPlan}
    {plan : RequestPlan} (hd : x.requests.demand? r = some d) (hbuilt : d.built = .ok plan) :
    d.key.render ∈ routes.flatMap (pinnedKeys x.contract) := by
  obtain ⟨route, params, hlookup⟩ := RequestValidator.exists_matched_of_demand? hd
  unfold RequestValidator.demand? at hd
  rw [hlookup] at hd
  obtain rfl := Option.some.inj hd
  have hlookup' : (RouteIndex.ofRoutes routes).lookup r.method r.path = .matched route params :=
    hindex ▸ hlookup
  obtain ⟨hmem, hmethod, -⟩ := RouteIndex.mem_and_params_of_matched hlookup'
  refine List.mem_flatMap.mpr ⟨route, hmem, List.mem_map.mpr ⟨_, ?_, by rw [hmethod]; rfl⟩⟩
  cases hheader : ContentType.ofHeaders r.headers with
  | none => exact List.mem_cons_self
  | some header =>
    rw [hheader] at hbuilt
    obtain ⟨key, hkey, hfront⟩ := MediaType.bucket_prefix_of_isPinned
      (hpinned r route params header plan hlookup hheader hbuilt)
    refine List.mem_cons_of_mem _ (List.mem_flatMap.mpr ⟨key, hkey, ?_⟩)
    exact List.mem_map.mpr ⟨_, (List.mem_inits _ _).mpr hfront, String.ofList_toList⟩

/-- **Routes that declare plain content pin every header.** -/
theorem allPinned_of_isPlain {routes : List Route} (hindex : x.index = .ofRoutes routes)
    (hplain : ∀ route ∈ routes, x.contract.declaredContent route ≠ [] ∧
      MediaType.IsPlain (x.contract.declaredContent route)) : x.AllPinned := by
  intro r route params header plan hlookup _ hbuild
  have hlookup' : (RouteIndex.ofRoutes routes).lookup r.method r.path = .matched route params :=
    hindex ▸ hlookup
  obtain ⟨hdeclared, hcontent⟩ :=
    hplain route (RouteIndex.mem_and_params_of_matched hlookup').1
  obtain ⟨entry, hselect⟩ := RequestPlan.exists_select?_of_build hbuild hdeclared
  exact MediaType.isPinned_of_isPlain hcontent hselect

/-- The keys of pinned headers bound what a session stores. -/
theorem size_storesAfter_le {routes : List Route} (hindex : x.index = .ofRoutes routes)
    (hpinned : x.config.schemaCache = true → x.config.validateRequests = true → x.AllPinned)
    (requests : List Request) :
    (x.storesAfter (requests.map .request)).requests.size ≤
      (routes.flatMap (pinnedKeys x.contract)).length := by
  have hsubset : (x.storesAfter (requests.map .request)).requests.entries.keys ⊆
      routes.flatMap (pinnedKeys x.contract) := by
    intro text htext
    obtain ⟨hcache, hvalidate, r, -, d, plan, hd, rfl, hbuilt⟩ := mem_keys_storesAfter_iff.mp htext
    exact mem_pinnedKeys_of_demand? (hpinned hcache hvalidate) hindex hd hbuilt
  rw [← length_keys_storesAfter]
  exact (List.subperm_of_subset (nodup_keys_storesAfter requests) hsubset).length_le

/-! ## Without a bound -/

/-- A request that is sent with another content type asks for another plan of the same route. -/
theorem demand?_withHeader {r : Request} {route : Route} {params : Assoc String} {text : String}
    {header : MediaHeader} (hlookup : x.index.lookup r.method r.path = .matched route params)
    (hparse : ContentType.parse (some text) = some header) :
    x.requests.demand? (r.withHeader "content-type" text) =
      some ⟨.of r.method route.template (some header),
        RequestPlan.build x.contract x.compiler route (some header)⟩ := by
  have hlower : Text.lowerString "content-type" = "content-type" := by decide
  have hheader : ContentType.ofHeaders (r.withHeader "content-type" text).headers = some header := by
    simp only [ContentType.ofHeaders, Request.withHeader, hlower, Assoc.get?_insert_self]
    exact hparse
  have hlookup' : x.index.lookup (r.withHeader "content-type" text).method
      (r.withHeader "content-type" text).path = .matched route params := hlookup
  unfold RequestValidator.demand?
  simp only [show x.requests.index = x.index from rfl, hlookup', hheader]
  rfl

/-- One header that is accepted without being pinned fills the store beyond every bound. -/
theorem exists_lt_size_storesAfter (hcache : x.config.schemaCache = true)
    (hvalidate : x.config.validateRequests = true) (hpinned : ¬ x.AllPinned) (bound : Nat) :
    ∃ requests : List Request,
      bound < (x.storesAfter (requests.map .request)).requests.size := by
  simp only [AllPinned, not_forall] at hpinned
  obtain ⟨r, route, params, header, plan, hlookup, hheader, hbuild, hpinned⟩ := hpinned
  obtain ⟨spell, hinjective, hspell⟩ := MediaType.exists_spellings hheader hpinned
  let key (n : Nat) : String := (StoreKey.mk r.method route.template (spell n)).render
  have hkey : Function.Injective key := by
    intro m n hmn
    have hlist := congrArg String.toList hmn
    simp only [key, StoreKey.render, String.toList_append] at hlist
    exact hinjective (String.toList_inj.mp (List.append_cancel_left hlist))
  let requests := (List.range (bound + 1)).map fun n => r.withHeader "content-type" (spell n)
  have hsubset : (List.range (bound + 1)).map key ⊆
      (x.storesAfter (requests.map .request)).requests.entries.keys := by
    intro text htext
    obtain ⟨n, hn, rfl⟩ := List.mem_map.mp htext
    obtain ⟨header', hparse, hbucket, hselect⟩ := hspell n
    refine mem_keys_storesAfter_iff.mpr ⟨hcache, hvalidate, _, List.mem_map.mpr ⟨n, hn, rfl⟩, _,
      plan, demand?_withHeader hlookup hparse, ?_, RequestPlan.build_of_select? hbuild hselect⟩
    simp [key, StoreKey.of, hbucket]
  have hnodup : ((List.range (bound + 1)).map key).Nodup := List.nodup_range.map hkey
  have hle := (List.subperm_of_subset hnodup hsubset).length_le
  rw [length_keys_storesAfter, List.length_map, List.length_range] at hle
  exact ⟨requests, hle⟩

/-- **A contract bounds the plans that a validator stores, exactly if every header for which it has
a plan is pinned.** -/
theorem plans_bounded_iff (hx : ofContract contract config = .ok x) :
    (∃ bound, ∀ requests : List Request,
        (x.storesAfter (requests.map .request)).requests.size ≤ bound) ↔
      (config.schemaCache = true → config.validateRequests = true → x.AllPinned) := by
  obtain ⟨-, rfl, routes, -, hindex⟩ := parts_of_ofContract hx
  constructor
  · rintro ⟨bound, hbound⟩ hcache hvalidate
    by_contra hpinned
    obtain ⟨requests, hlt⟩ := exists_lt_size_storesAfter hcache hvalidate hpinned bound
    exact absurd (hbound requests) (Nat.not_le.mpr hlt)
  · intro hpinned
    exact ⟨_, size_storesAfter_le hindex hpinned⟩

end Validator

/-! ## Routes with and without content -/

/-- A contract with `POST /a`, whose requests have bodies of JSON. -/
def writing : Contract where
  root := [
    ("openapi", .string "3.0.3"),
    ("paths", .object [("/a", .object [("post", .object [
      ("requestBody", .object [("content", .object [("application/json", .object [])])]),
      ("responses", .object [])])])])]
  version := "3.0.3"

def writingValidator : Validator :=
  ⟨writing, .ofRoutes (writing.routes.toOption.getD []), {}⟩

set_option maxRecDepth 10000 in
/-- Bodies of JSON bound the plans. -/
theorem plans_bounded_iff_writing :
    Validator.ofContract writing {} = .ok writingValidator ∧
      ∃ bound, ∀ requests : List Request,
        (writingValidator.storesAfter (requests.map .request)).requests.size ≤ bound := by
  have hx : Validator.ofContract writing {} = .ok writingValidator := rfl
  have hplain : ∀ route ∈ writing.routes.toOption.getD [],
      writing.declaredContent route ≠ [] ∧
        MediaType.IsPlain (writing.declaredContent route) := by decide +kernel
  exact ⟨hx, (Validator.plans_bounded_iff hx).mpr fun _ _ =>
    Validator.allPinned_of_isPlain rfl hplain⟩

/-- A contract with `GET /a`, which declares no content for the bodies of its requests. -/
def bodiless : Contract where
  root := [
    ("openapi", .string "3.0.3"),
    ("paths", .object [("/a", .object [("get", .object [("responses", .object [])])])])]
  version := "3.0.3"

def bodilessValidator : Validator :=
  ⟨bodiless, .ofRoutes (bodiless.routes.toOption.getD []), {}⟩

/-- The route of `GET /a`. -/
def bodilessRoute : Route where
  method := .get
  template := "/a"
  operationId := none
  placeholders := []
  parameters := []
  requestBody := none
  responses := []
  security := none

set_option maxRecDepth 10000 in
/-- Every content type has a plan of its own, and nothing bounds them. -/
theorem plans_not_bounded :
    Validator.ofContract bodiless {} = .ok bodilessValidator ∧
      ¬ ∃ bound, ∀ requests : List Request,
        (bodilessValidator.storesAfter (requests.map .request)).requests.size ≤ bound := by
  have hpinned : ¬ bodilessValidator.AllPinned := by
    have hlookup : bodilessValidator.index.lookup .get "/a" = .matched bodilessRoute [] := by
      decide +kernel
    have hheader : ContentType.parse (some "a") = some ⟨"a", "a", "a", none⟩ := by decide
    have hbuild : (RequestPlan.build bodiless bodilessValidator.compiler bodilessRoute
        (some ⟨"a", "a", "a", none⟩)).toOption.isSome = true := by decide +kernel
    intro h
    cases hplan : RequestPlan.build bodiless bodilessValidator.compiler bodilessRoute
        (some ⟨"a", "a", "a", none⟩) with
    | error f => simp [hplan, Except.toOption] at hbuild
    | ok plan =>
      rcases h ((Request.ofTarget .get "/a").withHeader "content-type" "a") bodilessRoute [] _ plan
        hlookup hheader hplan with hbucket | ⟨charset, hcharset, -⟩
      · exact absurd hbucket (by decide)
      · cases hcharset
  refine ⟨rfl, ?_⟩
  rintro ⟨bound, hbound⟩
  obtain ⟨requests, hlt⟩ :=
    Validator.exists_lt_size_storesAfter (x := bodilessValidator) rfl rfl hpinned bound
  exact absurd (hbound requests) (Nat.not_le.mpr hlt)

end ApiContract
