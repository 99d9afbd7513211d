import ApiContract.Proofs.Route.Indexing
import Mathlib.Data.List.Nodup
import Mathlib.Data.List.TakeWhile
/-!
# Which route a request finds

Templates are tried in one order. A request finds the operation under the first template that
matches its path and declares its method. Where none does, it is told the first template that
matches the path, and where no template matches the path it is left alone.
-/

namespace ApiContract

theorem Method.eq_of_name_eq {m n : Method} (h : m.name = n.name) : m = n := by
  cases m
  cases n
  subst h
  rfl

namespace RouteIndex

/-- Whether a template matches a path. -/
def Matches (template path : String) : Prop :=
  ((PathPattern.ofTemplate template).fill? path.toList).isSome = true

instance (template path : String) : Decidable (Matches template path) :=
  inferInstanceAs (Decidable (_ = true))

/-! ## The first template -/

/-- Whether a template is the first of those with a property, among the templates of some routes in
the order in which they are tried. -/
def IsFirst (routes : List Route) (p : String → Prop) (template : String) : Prop :=
  template ∈ routes.map (·.template) ∧ p template ∧
    ∀ u ∈ routes.map (·.template), p u → u = template ∨ Precedes routes template u

instance (routes : List Route) (p : String → Prop) [DecidablePred p] (template : String) :
    Decidable (IsFirst routes p template) :=
  inferInstanceAs (Decidable (_ ∧ _ ∧ _))

theorem Precedes.asymm {routes : List Route} {t u : String} (h : Precedes routes t u) :
    ¬ Precedes routes u t := by
  unfold Precedes at *
  omega

theorem IsFirst.unique {routes : List Route} {p : String → Prop} {t u : String}
    (ht : IsFirst routes p t) (hu : IsFirst routes p u) : t = u := by
  rcases ht.2.2 u hu.1 hu.2.1 with h | h
  · exact h.symm
  · rcases hu.2.2 t ht.1 ht.2.1 with h' | h'
    · exact h'
    · exact absurd h' h.asymm

/-- The template of the first entry with a property is the first template with it. -/
theorem isFirst_of_entries {routes : List Route} {p : String → Prop} {before after : List PathEntry}
    {e : PathEntry} (hentries : (ofRoutes routes).entries = before ++ e :: after)
    (hp : p e.template) (hbefore : ∀ e' ∈ before, ¬ p e'.template) :
    IsFirst routes p e.template := by
  obtain ⟨hholds, horder⟩ := holds_ofRoutes routes
  rw [hentries] at hholds horder
  refine ⟨hholds.appears e (by simp), hp, fun u hu hpu => ?_⟩
  obtain ⟨r, hr, rfl⟩ := List.mem_map.mp hu
  obtain ⟨e', he', ht, -⟩ := hholds.complete r hr
  rw [← ht] at hpu ⊢
  obtain ⟨-, hcons, -⟩ := List.pairwise_append.mp horder
  rcases List.mem_append.mp he' with he' | he'
  · exact absurd hpu (hbefore e' he')
  · rcases List.mem_cons.mp he' with rfl | he'
    · exact Or.inl rfl
    · exact Or.inr ((List.pairwise_cons.mp hcons).1 e' he')

/-! ## Looking up among entries -/

/-- What a look-up comes to: the first entry that matches the path and has the method, or else the
template of the first that matches the path. -/
theorem lookupIn_cases (method : Method) (path : List Char) (first : Option String)
    (entries : List PathEntry) :
    (∃ before e after fillers route, entries = before ++ e :: after ∧
      e.pattern.fill? path = some fillers ∧ e.operations.get? method.name = some route ∧
      (∀ e' ∈ before, (e'.pattern.fill? path).isSome = true →
        e'.operations.get? method.name = none) ∧
      lookupIn method path first entries = .matched route (paramsOf e fillers)) ∨
    ((∀ e ∈ entries, (e.pattern.fill? path).isSome = true →
        e.operations.get? method.name = none) ∧
      lookupIn method path first entries =
        match first.or
          ((entries.find? fun e => (e.pattern.fill? path).isSome).map (·.template)) with
        | some template => .methodNotAllowed template
        | none => .unmanaged) := by
  induction entries generalizing first with
  | nil => exact Or.inr ⟨by simp, by cases first <;> rfl⟩
  | cons e es ih =>
    cases hfill : e.pattern.fill? path with
    | none =>
      -- an entry that does not match the path is passed over
      have hstep : lookupIn method path first (e :: es) = lookupIn method path first es := by
        simp [lookupIn, hfill]
      rw [hstep]
      rcases ih first with ⟨before, e', after, fillers, route, rfl, hf, ho, hbefore, hlookup⟩ |
        ⟨hnone, hlookup⟩
      · refine Or.inl ⟨e :: before, e', after, fillers, route, rfl, hf, ho, ?_, hlookup⟩
        exact List.forall_mem_cons.mpr ⟨by simp [hfill], hbefore⟩
      · refine Or.inr ⟨List.forall_mem_cons.mpr ⟨by simp [hfill], hnone⟩, ?_⟩
        rw [hlookup, List.find?_cons_of_neg (by simp [hfill])]
    | some fillers =>
      cases hop : e.operations.get? method.name with
      | some route =>
        exact Or.inl ⟨[], e, es, fillers, route, rfl, hfill, hop, by simp,
          by simp [lookupIn, hfill, hop]⟩
      | none =>
        -- an entry that only matches the path is remembered, if it is the first
        have hstep : lookupIn method path first (e :: es) =
            lookupIn method path (some (first.getD e.template)) es := by
          simp [lookupIn, hfill, hop]
        rw [hstep]
        rcases ih (some (first.getD e.template)) with
          ⟨before, e', after, fillers', route, rfl, hf, ho, hbefore, hlookup⟩ | ⟨hnone, hlookup⟩
        · refine Or.inl ⟨e :: before, e', after, fillers', route, rfl, hf, ho, ?_, hlookup⟩
          exact List.forall_mem_cons.mpr ⟨fun _ => hop, hbefore⟩
        · refine Or.inr ⟨List.forall_mem_cons.mpr ⟨fun _ => hop, hnone⟩, ?_⟩
          rw [hlookup, List.find?_cons_of_pos (by simp [hfill])]
          cases first <;> rfl

/-! ## Looking up among routes -/

theorem lookup_of_not_mem (x : RouteIndex) (method : Method) {path : String}
    (h : '?' ∉ path.toList) :
    x.lookup method path = lookupIn method path.toList none x.entries := by
  rw [lookup, Text.before_of_not_mem h]

/-- Whether one of some routes has a template and a method. -/
def Declares (routes : List Route) (method : Method) (template : String) : Prop :=
  ∃ r ∈ routes, r.template = template ∧ r.method = method

instance (routes : List Route) (method : Method) (template : String) :
    Decidable (Declares routes method template) :=
  inferInstanceAs (Decidable (∃ r ∈ routes, _))

/-- An entry has a method exactly if its template is declared with the method. -/
theorem isSome_get?_iff_declares {routes : List Route} {e : PathEntry}
    (he : e ∈ (ofRoutes routes).entries) (method : Method) :
    (e.operations.get? method.name).isSome = true ↔ Declares routes method e.template := by
  obtain ⟨hholds, -⟩ := holds_ofRoutes routes
  constructor
  · intro h
    obtain ⟨r, hr⟩ := Option.isSome_iff_exists.mp h
    obtain ⟨hmem, ht, hname⟩ := (hholds.sound e he).operation _ r hr
    exact ⟨r, hmem, ht, Method.eq_of_name_eq hname⟩
  · rintro ⟨r, hr, ht, rfl⟩
    obtain ⟨e', he', ht', hsome⟩ := hholds.complete r hr
    rw [← List.inj_on_of_nodup_map (nodup_templates routes) he' he (ht'.trans ht)]
    exact hsome

/-- The operation of an entry is the route with its template and the method. -/
theorem mem_of_operation {routes : List Route} {e : PathEntry}
    (he : e ∈ (ofRoutes routes).entries) {method : Method} {route : Route}
    (h : e.operations.get? method.name = some route) :
    route ∈ routes ∧ route.template = e.template ∧ route.method = method := by
  obtain ⟨hmem, ht, hname⟩ := ((holds_ofRoutes routes).1.sound e he).operation _ route h
  exact ⟨hmem, ht, Method.eq_of_name_eq hname⟩

theorem isSome_fill?_iff_matches {routes : List Route} {e : PathEntry}
    (he : e ∈ (ofRoutes routes).entries) (path : String) :
    (e.pattern.fill? path.toList).isSome = true ↔ Matches e.template path := by
  rw [((holds_ofRoutes routes).1.sound e he).pattern]
  rfl

/-- What looking up among routes comes to, in each of its three cases. -/
theorem lookup_ofRoutes_cases (routes : List Route) (method : Method) {path : String}
    (h : '?' ∉ path.toList) :
    (∃ route params, (ofRoutes routes).lookup method path = .matched route params ∧
      route ∈ routes ∧ route.method = method ∧
      IsFirst routes (fun t => Matches t path ∧ Declares routes method t) route.template) ∨
    ((∀ r ∈ routes, Matches r.template path → r.method ≠ method) ∧
      ((∃ template, (ofRoutes routes).lookup method path = .methodNotAllowed template ∧
        IsFirst routes (Matches · path) template) ∨
      ((ofRoutes routes).lookup method path = .unmanaged ∧
        ∀ r ∈ routes, ¬ Matches r.template path))) := by
  obtain ⟨hholds, -⟩ := holds_ofRoutes routes
  rw [lookup_of_not_mem _ _ h]
  rcases lookupIn_cases method path.toList none (ofRoutes routes).entries with
    ⟨before, e, after, fillers, route, hentries, hfill, hop, hbefore, hlookup⟩ | ⟨hnone, hlookup⟩
  · have hmem : ∀ e' ∈ before ++ e :: after, e' ∈ (ofRoutes routes).entries := by
      intro e' he'
      rw [hentries]
      exact he'
    have he := hmem e (by simp)
    obtain ⟨hroute, ht, hmethod⟩ := mem_of_operation he hop
    refine Or.inl ⟨route, _, hlookup, hroute, hmethod, ?_⟩
    rw [ht]
    refine isFirst_of_entries hentries ⟨?_, route, hroute, ht, hmethod⟩ ?_
    · exact (isSome_fill?_iff_matches he path).mp (by simp [hfill])
    · rintro e' he' ⟨hmatches, hdeclares⟩
      have hin := hmem e' (List.mem_append_left _ he')
      rw [← isSome_fill?_iff_matches hin] at hmatches
      rw [← isSome_get?_iff_declares hin, hbefore e' he' hmatches] at hdeclares
      simp at hdeclares
  · refine Or.inr ⟨fun r hr hmatches hmethod => ?_, ?_⟩
    · obtain ⟨e, he, ht, -⟩ := hholds.complete r hr
      rw [← ht, ← isSome_fill?_iff_matches he] at hmatches
      have hdeclares := (isSome_get?_iff_declares he method).mpr ⟨r, hr, ht.symm, hmethod⟩
      rw [hnone e he hmatches] at hdeclares
      simp at hdeclares
    · rw [hlookup, Option.none_or]
      cases hfind : (ofRoutes routes).entries.find?
          fun e => (e.pattern.fill? path.toList).isSome with
      | none =>
        refine Or.inr ⟨rfl, fun r hr hmatches => ?_⟩
        obtain ⟨e, he, ht, -⟩ := hholds.complete r hr
        rw [← ht, ← isSome_fill?_iff_matches he] at hmatches
        exact List.find?_eq_none.mp hfind e he hmatches
      | some e =>
        obtain ⟨hfill, before, after, hentries, hbefore⟩ :=
          List.find?_eq_some_iff_append.mp hfind
        have he : e ∈ (ofRoutes routes).entries := by simp [hentries]
        refine Or.inl ⟨e.template, rfl, isFirst_of_entries hentries ?_ fun e' he' hmatches => ?_⟩
        · exact (isSome_fill?_iff_matches he path).mp hfill
        · have hin : e' ∈ (ofRoutes routes).entries := by simp [hentries, he']
          rw [← isSome_fill?_iff_matches hin] at hmatches
          exact absurd hmatches (by simpa using hbefore e' he')

/--
**Which route a request finds.** No two routes have both their template and their method in common.
Then the operation that is found is the one under the first template that matches the path and
declares the method; a method is not allowed where templates match the path and none of them
declares the method, and the first that matches is told; and a path is left alone exactly if no
template matches it.
-/
theorem lookup_ofRoutes (routes : List Route)
    (hdistinct : (routes.map fun r => (r.method, r.template)).Nodup) (method : Method)
    (path : String) (hpath : '?' ∉ path.toList) :
    (∀ route, (∃ params, (ofRoutes routes).lookup method path = .matched route params) ↔
      route ∈ routes ∧ route.method = method ∧
        IsFirst routes (fun t => Matches t path ∧ Declares routes method t) route.template) ∧
    (∀ template, (ofRoutes routes).lookup method path = .methodNotAllowed template ↔
      (∀ r ∈ routes, Matches r.template path → r.method ≠ method) ∧
        IsFirst routes (Matches · path) template) ∧
    ((ofRoutes routes).lookup method path = .unmanaged ↔
      ∀ r ∈ routes, ¬ Matches r.template path) := by
  -- a template with a property is no first one where none has it
  have hfirst : ∀ {p : String → Prop} {t : String}, IsFirst routes p t →
      (∀ r ∈ routes, ¬ p r.template) → False := by
    rintro p t ⟨ht, hp, -⟩ hnone
    obtain ⟨r, hr, rfl⟩ := List.mem_map.mp ht
    exact hnone r hr hp
  have hundeclared : (∀ r ∈ routes, Matches r.template path → r.method ≠ method) →
      ∀ r ∈ routes, ¬ (Matches r.template path ∧ Declares routes method r.template) := by
    rintro hnone r - ⟨hmatches, r', hr', ht, hmethod⟩
    exact hnone r' hr' (by rwa [ht]) hmethod
  rcases lookup_ofRoutes_cases routes method hpath with
    ⟨route, params, hlookup, hroute, hmethod, hf⟩ |
    ⟨hnone, ⟨template, hlookup, hf⟩ | ⟨hlookup, hno⟩⟩ <;> rw [hlookup]
  · refine ⟨fun route' => ?_, fun template => ?_, ?_⟩
    · constructor
      · rintro ⟨params', h⟩
        cases h
        exact ⟨hroute, hmethod, hf⟩
      · rintro ⟨hroute', hmethod', hf'⟩
        have heq := List.inj_on_of_nodup_map hdistinct hroute' hroute
          (Prod.ext (hmethod'.trans hmethod.symm) (hf'.unique hf))
        exact ⟨params, by rw [heq]⟩
    · refine ⟨nofun, fun h => (hfirst hf (hundeclared h.1)).elim⟩
    · refine ⟨nofun, fun h => (hfirst hf fun r hr hp => h r hr hp.1).elim⟩
  · refine ⟨fun route' => ?_, fun template' => ?_, ?_⟩
    · exact ⟨nofun, fun h => (hfirst h.2.2 (hundeclared hnone)).elim⟩
    · constructor
      · intro h
        cases h
        exact ⟨hnone, hf⟩
      · rintro ⟨-, hf'⟩
        rw [hf.unique hf']
    · exact ⟨nofun, fun h => (hfirst hf h).elim⟩
  · refine ⟨fun route' => ?_, fun template' => ?_, ?_⟩
    · exact ⟨nofun, fun h => (hfirst h.2.2 (hundeclared hnone)).elim⟩
    · exact ⟨nofun, fun h => (hfirst h.2 hno).elim⟩
    · exact ⟨fun _ => hno, fun _ => rfl⟩

/-! ## A template without placeholders -/

/-- A route with nothing but a template and a method. -/
def plainRoute (method : Method) (template : String) : Route where
  method
  template
  operationId := none
  placeholders := Template.names template.toList
  parameters := []
  requestBody := none
  responses := []
  security := none

/-- Any pet can be read, and one's own can be added to. -/
def petRoutes (add : Method) : List Route :=
  [plainRoute .get "/pets/{id}", plainRoute add "/pets/mine"]

/-- The template without placeholders does not hide the one that has the method, but comes first
where neither has it. -/
theorem lookup_ofRoutes_petRoutes :
    ((petRoutes ⟨"POST", rfl⟩).map fun r => (r.method, r.template)).Nodup ∧
      '?' ∉ "/pets/mine".toList ∧
      (∃ params, (ofRoutes (petRoutes ⟨"POST", rfl⟩)).lookup .get "/pets/mine" =
        .matched (plainRoute .get "/pets/{id}") params) ∧
      (ofRoutes (petRoutes ⟨"POST", rfl⟩)).lookup ⟨"PUT", rfl⟩ "/pets/mine" =
        .methodNotAllowed "/pets/mine" := by
  have hdistinct : ((petRoutes ⟨"POST", rfl⟩).map fun r => (r.method, r.template)).Nodup := by
    decide
  have hpath : '?' ∉ "/pets/mine".toList := by decide
  refine ⟨hdistinct, hpath, ?_, ?_⟩
  · exact ((lookup_ofRoutes _ hdistinct _ _ hpath).1 _).mpr
      ⟨List.mem_cons_self, rfl, by decide +kernel⟩
  · exact ((lookup_ofRoutes _ hdistinct _ _ hpath).2.1 _).mpr
      ⟨by decide +kernel, by decide +kernel⟩

end RouteIndex

end ApiContract
