import ApiContract.Route.Index
/-!
# What an index of routes holds

An index has one entry for each template of its routes, with the operations under that template.
The entries stand in the order in which the templates are tried: one with fewer placeholders comes
before one with more, and of equally many the one that appears first among the routes.
-/

namespace ApiContract

namespace PathEntry

/-- The entry of a template that has no operations yet. -/
def bare (template : String) : PathEntry := ⟨template, .ofTemplate template, []⟩

/-- An entry with one more operation. -/
def add (e : PathEntry) (route : Route) : PathEntry :=
  { e with operations := e.operations.insert route.method.name route }

end PathEntry

namespace RouteIndex

/-- How many placeholders a template has. -/
def placeholderCount (template : String) : Nat := (PathPattern.ofTemplate template).names.length

/-- Where the first route with a template stands. -/
def appearance (routes : List Route) (template : String) : Nat :=
  (routes.map (·.template)).idxOf template

/-- Whether, of the templates of some routes, one is tried before another. -/
def Precedes (routes : List Route) (t u : String) : Prop :=
  placeholderCount t < placeholderCount u ∨
    (placeholderCount t = placeholderCount u ∧ appearance routes t < appearance routes u)

instance (routes : List Route) (t u : String) : Decidable (Precedes routes t u) :=
  inferInstanceAs (Decidable (_ ∨ _))

/-! ## Adding a route -/

/-- A route is added to the entry of its template, or to a bare one at the end. -/
theorem addRoute_cases (entries : List PathEntry) (route : Route) :
    ∃ before e after, addRoute entries route = before ++ e.add route :: after ∧
      e.template = route.template ∧
      (entries = before ++ e :: after ∨
        (entries = before ∧ after = [] ∧ e = .bare route.template ∧
          ∀ e' ∈ entries, e'.template ≠ route.template)) := by
  induction entries with
  | nil => exact ⟨[], .bare route.template, [], rfl, rfl, Or.inr ⟨rfl, rfl, rfl, by simp⟩⟩
  | cons e es ih =>
    unfold addRoute
    by_cases he : e.template = route.template
    · exact ⟨[], e, es, by rw [if_pos he]; rfl, he, Or.inl rfl⟩
    · obtain ⟨before, e', after, hadd, he', hes⟩ := ih
      refine ⟨e :: before, e', after, by rw [if_neg he, hadd]; rfl, he', ?_⟩
      rcases hes with rfl | ⟨rfl, hafter, hbare, hnew⟩
      · exact Or.inl rfl
      · exact Or.inr ⟨rfl, hafter, hbare, List.forall_mem_cons.mpr ⟨he, hnew⟩⟩

/-- Whether an entry is about its template, and holds nothing but operations of some routes. -/
structure Sound (routes : List Route) (e : PathEntry) : Prop where
  pattern : e.pattern = .ofTemplate e.template
  operation : ∀ name r, e.operations.get? name = some r →
    r ∈ routes ∧ r.template = e.template ∧ r.method.name = name

theorem Sound.bare (routes : List Route) (template : String) : Sound routes (.bare template) :=
  ⟨rfl, fun _ _ h => by simp [PathEntry.bare] at h⟩

theorem Sound.append {routes : List Route} {e : PathEntry} (h : Sound routes e) (route : Route) :
    Sound (routes ++ [route]) e :=
  ⟨h.pattern, fun name r hr =>
    ⟨List.mem_append_left _ (h.operation name r hr).1, (h.operation name r hr).2⟩⟩

theorem Sound.add {routes : List Route} {e : PathEntry} (h : Sound routes e) {route : Route}
    (ht : e.template = route.template) : Sound (routes ++ [route]) (e.add route) := by
  refine ⟨h.pattern, fun name r hr => ?_⟩
  simp only [PathEntry.add, Assoc.get?_insert] at hr
  split at hr
  · next hn =>
    obtain rfl := Option.some.inj hr
    exact ⟨by simp, ht.symm, hn⟩
  · exact (h.append route).operation name r hr

/-- Whether entries hold the operations of some routes, and nothing else. -/
structure Holds (routes : List Route) (entries : List PathEntry) : Prop where
  sound : ∀ e ∈ entries, Sound routes e
  appears : ∀ e ∈ entries, e.template ∈ routes.map (·.template)
  complete : ∀ r ∈ routes, ∃ e ∈ entries, e.template = r.template ∧
    (e.operations.get? r.method.name).isSome = true

theorem Holds.addRoute {routes : List Route} {entries : List PathEntry} (h : Holds routes entries)
    (route : Route) : Holds (routes ++ [route]) (addRoute entries route) := by
  obtain ⟨before, e, after, hadd, ht, hentries⟩ := addRoute_cases entries route
  have hsound : Sound routes e := by
    rcases hentries with rfl | ⟨-, -, rfl, -⟩
    · exact h.sound e (by simp)
    · exact .bare routes _
  -- all other entries stay
  have hmem : ∀ x, x ∈ before ++ after → x ∈ entries := by
    intro x hx
    rcases hentries with rfl | ⟨rfl, rfl, -, -⟩
    · simp only [List.mem_append, List.mem_cons] at hx ⊢
      exact hx.imp_right Or.inr
    · simpa using hx
  have hcases : ∀ x ∈ before ++ e.add route :: after, x = e.add route ∨ x ∈ entries := by
    intro x hx
    simp only [List.mem_append, List.mem_cons] at hx hmem
    rcases hx with hx | hx | hx
    · exact Or.inr (hmem x (Or.inl hx))
    · exact Or.inl hx
    · exact Or.inr (hmem x (Or.inr hx))
  rw [hadd]
  refine ⟨fun x hx => ?_, fun x hx => ?_, fun r hr => ?_⟩
  · rcases hcases x hx with rfl | hx
    · exact hsound.add ht
    · exact (h.sound x hx).append route
  · rw [List.map_append]
    rcases hcases x hx with rfl | hx
    · exact List.mem_append_right _ (by simp [PathEntry.add, ht])
    · exact List.mem_append_left _ (h.appears x hx)
  · have hself : e.add route ∈ before ++ e.add route :: after := by simp
    rcases List.mem_append.mp hr with hr | hr
    · obtain ⟨x, hx, hxt, hsome⟩ := h.complete r hr
      rcases hentries with rfl | ⟨rfl, rfl, -, -⟩
      · simp only [List.mem_append, List.mem_cons] at hx
        rcases hx with hx | rfl | hx
        · exact ⟨x, by simp [hx], hxt, hsome⟩
        · -- the operation is still there, unless it was replaced
          refine ⟨_, hself, hxt, ?_⟩
          simp only [PathEntry.add, Assoc.get?_insert]
          split
          · rfl
          · exact hsome
        · exact ⟨x, by simp [hx], hxt, hsome⟩
      · exact ⟨x, by simp [hx], hxt, hsome⟩
    · obtain rfl := List.mem_singleton.mp hr
      exact ⟨_, hself, ht, by simp [PathEntry.add]⟩

/-! ## The order of appearance -/

/-- Whether entries stand in the order in which their templates appear among routes. -/
def InOrder (routes : List Route) (entries : List PathEntry) : Prop :=
  (entries.map (·.template)).Pairwise fun t u => appearance routes t < appearance routes u

theorem appearance_append {routes : List Route} {template : String}
    (h : template ∈ routes.map (·.template)) (route : Route) :
    appearance (routes ++ [route]) template = appearance routes template := by
  unfold appearance
  rw [List.map_append, List.idxOf_append, if_pos h]

/-- A template that is new appears behind all others. -/
theorem appearance_lt_of_new {routes : List Route} {template : String} {route : Route}
    (h : template ∈ routes.map (·.template)) (hnew : route.template ∉ routes.map (·.template)) :
    appearance (routes ++ [route]) template < appearance (routes ++ [route]) route.template := by
  rw [appearance_append h]
  unfold appearance
  rw [List.map_append, List.idxOf_append, if_neg hnew]
  have hlt := List.idxOf_lt_length_of_mem h
  omega

theorem InOrder.addRoute {routes : List Route} {entries : List PathEntry}
    (h : InOrder routes entries) (hholds : Holds routes entries) (route : Route) :
    InOrder (routes ++ [route]) (addRoute entries route) := by
  have hkeep : InOrder (routes ++ [route]) entries := by
    refine List.Pairwise.imp_of_mem (fun {t u} ht hu htu => ?_) h
    obtain ⟨e, he, rfl⟩ := List.mem_map.mp ht
    obtain ⟨e', he', rfl⟩ := List.mem_map.mp hu
    rw [appearance_append (hholds.appears e he), appearance_append (hholds.appears e' he')]
    exact htu
  obtain ⟨before, e, after, hadd, ht, rfl | ⟨rfl, rfl, -, hnew⟩⟩ := addRoute_cases entries route
  · rw [hadd]
    simpa [InOrder, PathEntry.add] using hkeep
  · rw [hadd]
    unfold InOrder
    rw [List.map_append, List.pairwise_append]
    refine ⟨hkeep, by simp, fun t hmem u hu => ?_⟩
    obtain ⟨e', he', rfl⟩ := List.mem_map.mp hmem
    simp only [List.map_cons, List.map_nil, List.mem_singleton] at hu
    rw [hu, show (e.add route).template = route.template from ht]
    refine appearance_lt_of_new (hholds.appears e' he') fun hin => ?_
    obtain ⟨r, hr, hrt⟩ := List.mem_map.mp hin
    obtain ⟨e'', he'', ht'', -⟩ := hholds.complete r hr
    exact hnew e'' he'' (ht''.trans hrt)

/-- **What grouping routes by template gives.** -/
theorem holds_foldl_addRoute (routes : List Route) :
    Holds routes (routes.foldl addRoute []) ∧ InOrder routes (routes.foldl addRoute []) := by
  have hrun : ∀ (later done : List Route) (entries : List PathEntry), Holds done entries →
      InOrder done entries → Holds (done ++ later) (later.foldl addRoute entries) ∧
        InOrder (done ++ later) (later.foldl addRoute entries) := by
    intro later
    induction later with
    | nil =>
      intro done entries h ho
      rw [List.append_nil]
      exact ⟨h, ho⟩
    | cons route later ih =>
      intro done entries h ho
      rw [← List.singleton_append, ← List.append_assoc]
      exact ih _ _ (h.addRoute route) (ho.addRoute h route)
  exact hrun routes [] [] ⟨by simp, by simp, by simp⟩ List.Pairwise.nil

/-! ## The order of trying -/

/-- Whether an entry has fewer placeholders than another, or as many and is related to it. -/
def Ranks (r : PathEntry → PathEntry → Prop) (e e' : PathEntry) : Prop :=
  e.pattern.names.length < e'.pattern.names.length ∨
    (e.pattern.names.length = e'.pattern.names.length ∧ r e e')

theorem mem_place {entry x : PathEntry} {entries : List PathEntry} :
    x ∈ place entry entries ↔ x = entry ∨ x ∈ entries := by
  induction entries with
  | nil => simp [place]
  | cons e es ih =>
    unfold place
    split
    · simp
    · simp only [List.mem_cons, ih]
      exact or_left_comm

theorem mem_byPlaceholders {x : PathEntry} {entries : List PathEntry} :
    x ∈ byPlaceholders entries ↔ x ∈ entries := by
  induction entries with
  | nil => rfl
  | cons e es ih =>
    rw [show byPlaceholders (e :: es) = place e (byPlaceholders es) from rfl, mem_place, ih,
      List.mem_cons]

/-- An entry is placed before those with more placeholders, and before the others that it is
related to. -/
theorem pairwise_place {r : PathEntry → PathEntry → Prop} {entry : PathEntry}
    {entries : List PathEntry} (h : entries.Pairwise (Ranks r)) (hr : ∀ e ∈ entries, r entry e) :
    (place entry entries).Pairwise (Ranks r) := by
  induction entries with
  | nil => exact List.pairwise_singleton _ _
  | cons e es ih =>
    obtain ⟨he, hes⟩ := List.pairwise_cons.mp h
    obtain ⟨hre, hres⟩ := List.forall_mem_cons.mp hr
    unfold place
    by_cases hle : entry.pattern.names.length ≤ e.pattern.names.length
    · rw [if_pos hle, List.pairwise_cons]
      refine ⟨fun x hx => ?_, h⟩
      -- nothing that follows has fewer placeholders than the first
      have hx' : entry.pattern.names.length ≤ x.pattern.names.length := by
        rcases List.mem_cons.mp hx with rfl | hx
        · exact hle
        · rcases he x hx with hlt | ⟨heq, -⟩ <;> omega
      rcases Nat.lt_or_eq_of_le hx' with hlt | heq
      · exact Or.inl hlt
      · exact Or.inr ⟨heq, hr x hx⟩
    · rw [if_neg hle, List.pairwise_cons]
      refine ⟨fun x hx => ?_, ih hes hres⟩
      rcases mem_place.mp hx with rfl | hx
      · exact Or.inl (by omega)
      · exact he x hx

/-- Ordering by placeholders is stable. -/
theorem pairwise_byPlaceholders {r : PathEntry → PathEntry → Prop} {entries : List PathEntry}
    (h : entries.Pairwise r) : (byPlaceholders entries).Pairwise (Ranks r) := by
  induction entries with
  | nil => exact List.Pairwise.nil
  | cons e es ih =>
    obtain ⟨he, hes⟩ := List.pairwise_cons.mp h
    exact pairwise_place (ih hes) fun x hx => he x (mem_byPlaceholders.mp hx)

/-- **What the index of a list of routes holds, and in which order.** -/
theorem holds_ofRoutes (routes : List Route) :
    Holds routes (ofRoutes routes).entries ∧
      (ofRoutes routes).entries.Pairwise fun e e' => Precedes routes e.template e'.template := by
  obtain ⟨hholds, horder⟩ := holds_foldl_addRoute routes
  have hmem : ∀ e, e ∈ (ofRoutes routes).entries ↔ e ∈ routes.foldl addRoute [] :=
    fun e => mem_byPlaceholders
  have hofRoutes : Holds routes (ofRoutes routes).entries := by
    refine ⟨fun e he => hholds.sound e ((hmem e).mp he),
      fun e he => hholds.appears e ((hmem e).mp he), fun r hr => ?_⟩
    obtain ⟨e, he, hrest⟩ := hholds.complete r hr
    exact ⟨e, (hmem e).mpr he, hrest⟩
  refine ⟨hofRoutes, List.Pairwise.imp_of_mem (fun {e e'} he he' h => ?_)
    (pairwise_byPlaceholders (List.pairwise_map.mp horder))⟩
  unfold Ranks at h
  rw [(hofRoutes.sound e he).pattern, (hofRoutes.sound e' he').pattern] at h
  exact h

/-- No two entries are for one template. -/
theorem nodup_templates (routes : List Route) :
    ((ofRoutes routes).entries.map (·.template)).Nodup := by
  refine List.pairwise_map.mpr ((holds_ofRoutes routes).2.imp fun {e e'} h heq => ?_)
  rw [heq] at h
  unfold Precedes at h
  omega

end RouteIndex

end ApiContract
