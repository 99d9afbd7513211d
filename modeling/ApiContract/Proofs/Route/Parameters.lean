import ApiContract.Proofs.Route.Filling
import ApiContract.Proofs.Route.Precedence
/-!
# The parameters in a path

A path that matches a template fills each of its placeholders once. So a request has parameters in
its path exactly if the template of its route has placeholders.
-/

namespace ApiContract

/-- Every placeholder is filled once. -/
theorem PathPattern.length_of_fill? {p : PathPattern} {path : List Char}
    {fillers : List (List Char)} (h : p.fill? path = some fillers) :
    fillers.length = p.names.length := by
  cases p with
  | root =>
    simp only [fill?] at h
    split at h
    · obtain rfl := Option.some.inj h
      rfl
    · simp at h
  | parts ps => exact (Template.fits_of_fill? h).length

namespace RouteIndex

/-- There are parameters where there are placeholders. -/
theorem paramsOf_ne_nil {e : PathEntry} {path : List Char} {fillers : List (List Char)}
    (h : e.pattern.fill? path = some fillers) (hnames : e.pattern.names ≠ []) :
    paramsOf e fillers ≠ [] := by
  have hlength := PathPattern.length_of_fill? h
  unfold paramsOf
  cases hn : e.pattern.names with
  | nil => exact absurd hn hnames
  | cons name names =>
    cases fillers with
    | nil => simp [hn] at hlength
    | cons filler fillers =>
      intro hnil
      have hcontains := Assoc.contains_insertAll []
        (((name :: names).zip (filler :: fillers)).map fun e =>
          (e.1, String.ofList (Percent.decodeText e.2))) name
      rw [show Assoc.insertAll [] _ = [] from hnil] at hcontains
      simp [Assoc.contains, Assoc.get?_cons] at hcontains

/-- A route that is found stands in an entry that the path matches. -/
theorem exists_entry_of_matched {x : RouteIndex} {method : Method} {path : String} {route : Route}
    {params : Assoc String} (h : x.lookup method path = .matched route params) :
    ∃ e ∈ x.entries, e.operations.get? method.name = some route ∧ ∃ fillers,
      e.pattern.fill? (Text.before (· = '?') path.toList) = some fillers ∧
        params = paramsOf e fillers := by
  unfold lookup at h
  rcases lookupIn_cases method (Text.before (· = '?') path.toList) none x.entries with
    ⟨before, e, after, fillers, route', hentries, hfill, hop, -, hlookup⟩ | ⟨-, hlookup⟩ <;>
    rw [hlookup] at h
  · cases h
    exact ⟨e, by simp [hentries], hop, fillers, hfill, rfl⟩
  · split at h <;> simp at h

/-- The route that a request finds is one of those that are indexed, and if its template has
placeholders then the request has parameters in its path. -/
theorem mem_and_params_of_matched {routes : List Route} {method : Method} {path : String}
    {route : Route} {params : Assoc String}
    (h : (ofRoutes routes).lookup method path = .matched route params) :
    route ∈ routes ∧ route.method = method ∧
      ((PathPattern.ofTemplate route.template).names ≠ [] → params ≠ []) := by
  obtain ⟨e, he, hop, fillers, hfill, rfl⟩ := exists_entry_of_matched h
  obtain ⟨hmem, ht, hmethod⟩ := mem_of_operation he hop
  refine ⟨hmem, hmethod, fun hnames => paramsOf_ne_nil hfill ?_⟩
  rw [((holds_ofRoutes routes).1.sound e he).pattern, ← ht]
  exact hnames

end RouteIndex

end ApiContract
