import ApiContract.Proofs.Route.Flaws
import ApiContract.Proofs.Route.Precedence
import Mathlib.Data.List.Perm.Basic
/-!
# Listing the operations of a contract

No operation is lost or duplicated between a contract and its index. A route is known by its
template and its method, and no two operations of a contract have a route with the same two. So the
index holds every route once, and its listing is in strict order of them.
-/

namespace ApiContract

namespace Assoc

variable {β : Type}

/-- What is put under a new key is one more entry. -/
theorem perm_insert {m : Assoc β} {key : String} (h : m.get? key = none) (value : β) :
    (m.insert key value).Perm ((key, value) :: m) := by
  induction m with
  | nil => exact List.Perm.refl _
  | cons e m ih =>
    obtain ⟨k, v⟩ := e
    rw [get?_cons] at h
    unfold Assoc.insert
    by_cases hlt : key < k
    · rw [if_pos hlt]
    · by_cases heq : k = key
      · rw [if_pos heq] at h
        cases h
      · rw [if_neg heq] at h
        rw [if_neg hlt, if_neg (Ne.symm heq)]
        exact ((ih h).cons (k, v)).trans (List.Perm.swap _ _ _)

end Assoc

namespace Route

/-- What a route is known by. -/
def key (r : Route) : String × String := (r.template, r.method.name)

/-- Whether a route is listed before another. -/
def Before (r r' : Route) : Prop :=
  r.template < r'.template ∨ (r.template = r'.template ∧ r.method.name < r'.method.name)

instance (r r' : Route) : Decidable (r.Before r') := inferInstanceAs (Decidable (_ ∨ _))

theorem Before.trans {r r' r'' : Route} (h : r.Before r') (h' : r'.Before r'') :
    r.Before r'' := by
  rcases h with h | ⟨heq, h⟩
  · rcases h' with h' | ⟨heq', -⟩
    · exact Or.inl (String.lt_trans h h')
    · exact Or.inl (heq' ▸ h)
  · rcases h' with h' | ⟨heq', h'⟩
    · exact Or.inl (heq ▸ h')
    · exact Or.inr ⟨heq.trans heq', String.lt_trans h h'⟩

/-- Of two routes with different keys one is listed before the other. -/
theorem before_or_before {r r' : Route} (h : r.key ≠ r'.key) : r.Before r' ∨ r'.Before r := by
  by_cases ht : r.template = r'.template
  · have hm : r.method.name ≠ r'.method.name := fun hm => h (Prod.ext ht hm)
    exact (Text.lt_or_gt_of_ne hm).imp (fun hlt => Or.inr ⟨ht, hlt⟩) fun hlt => Or.inr ⟨ht.symm, hlt⟩
  · exact (Text.lt_or_gt_of_ne ht).imp Or.inl Or.inl

end Route

namespace RouteIndex

/-! ## Every route has its place in the index -/

/-- The operations of some entries. -/
def operations (entries : List PathEntry) : Assoc Route := entries.flatMap (·.operations)

/-- A route that is new is one more operation. -/
theorem perm_addRoute {done : List Route} {entries : List PathEntry} (h : Holds done entries)
    {route : Route} (hnew : route.key ∉ done.map Route.key) :
    (operations (addRoute entries route)).Perm
      ((route.method.name, route) :: operations entries) := by
  obtain ⟨before, e, after, hadd, ht, hentries⟩ := addRoute_cases entries route
  have hnone : e.operations.get? route.method.name = none := by
    rcases hentries with rfl | ⟨-, -, rfl, -⟩
    · rw [Option.eq_none_iff_forall_ne_some]
      intro r hr
      obtain ⟨hmem, hrt, hrm⟩ := (h.sound e (by simp)).operation _ r hr
      exact hnew (List.mem_map.mpr ⟨r, hmem, Prod.ext (hrt.trans ht) hrm⟩)
    · rfl
  have hop : (e.add route).operations.Perm ((route.method.name, route) :: e.operations) :=
    Assoc.perm_insert hnone route
  have hsum : operations (addRoute entries route) =
      operations before ++ ((e.add route).operations ++ operations after) := by
    simp [operations, hadd]
  have hparts : operations entries = operations before ++ (e.operations ++ operations after) := by
    rcases hentries with rfl | ⟨rfl, rfl, rfl, -⟩
    · simp [operations]
    · simp [operations, PathEntry.bare]
  rw [hsum, hparts]
  exact ((hop.append_right _).append_left _).trans List.perm_middle

/-- Grouping routes by template keeps each of them. -/
theorem perm_foldl_addRoute {routes : List Route} (h : (routes.map Route.key).Nodup) :
    (operations (routes.foldl addRoute [])).Perm (routes.map fun r => (r.method.name, r)) := by
  have hrun : ∀ (later done : List Route) (entries : List PathEntry), Holds done entries →
      ((done ++ later).map Route.key).Nodup →
      (operations (later.foldl addRoute entries)).Perm
        ((later.map fun r => (r.method.name, r)) ++ operations entries) := by
    intro later
    induction later with
    | nil =>
      intro done entries _ _
      exact List.Perm.refl _
    | cons route later ih =>
      intro done entries hholds hnodup
      have hnew : route.key ∉ done.map Route.key := by
        intro hmem
        rw [List.map_append, List.nodup_append] at hnodup
        exact hnodup.2.2 _ hmem _ List.mem_cons_self rfl
      have hrest : ((done ++ [route] ++ later).map Route.key).Nodup := by simpa using hnodup
      exact (ih _ _ (hholds.addRoute route) hrest).trans
        (((perm_addRoute hholds hnew).append_left _).trans List.perm_middle)
  simpa [operations] using hrun routes [] [] ⟨by simp, by simp, by simp⟩ h

theorem perm_place (entry : PathEntry) (entries : List PathEntry) :
    (place entry entries).Perm (entry :: entries) := by
  induction entries with
  | nil => exact List.Perm.refl _
  | cons e es ih =>
    unfold place
    split
    · exact List.Perm.refl _
    · exact (ih.cons e).trans (List.Perm.swap _ _ _)

theorem perm_byPlaceholders (entries : List PathEntry) :
    (byPlaceholders entries).Perm entries := by
  induction entries with
  | nil => exact List.Perm.refl _
  | cons e es ih => exact (perm_place e (byPlaceholders es)).trans (ih.cons e)

/-- An index holds every route once. -/
theorem perm_operations {routes : List Route} (h : (routes.map Route.key).Nodup) :
    (operations (ofRoutes routes).entries).Perm (routes.map fun r => (r.method.name, r)) :=
  ((perm_byPlaceholders _).flatMap_right _).trans (perm_foldl_addRoute h)

/-- The size of an index is the number of its routes. -/
theorem size_ofRoutes {routes : List Route} (h : (routes.map Route.key).Nodup) :
    (ofRoutes routes).size = routes.length :=
  (perm_operations h).length_eq.trans (List.length_map _)

/-! ## The listing -/

theorem perm_insertRoute (route : Route) (routes : List Route) :
    (insertRoute route routes).Perm (route :: routes) := by
  induction routes with
  | nil => exact List.Perm.refl _
  | cons r rs ih =>
    unfold insertRoute
    split
    · exact List.Perm.refl _
    · exact (ih.cons r).trans (List.Perm.swap _ _ _)

theorem perm_foldr_insertRoute (routes : List Route) :
    (routes.foldr insertRoute []).Perm routes := by
  induction routes with
  | nil => exact List.Perm.refl _
  | cons r rs ih => exact (perm_insertRoute r _).trans (ih.cons r)

/-- A route is put behind those that are listed before it. -/
theorem pairwise_insertRoute {route : Route} {routes : List Route}
    (h : routes.Pairwise Route.Before) (hnew : ∀ r ∈ routes, r.key ≠ route.key) :
    (insertRoute route routes).Pairwise Route.Before := by
  induction routes with
  | nil => exact List.pairwise_singleton _ _
  | cons r rs ih =>
    obtain ⟨hr, hrs⟩ := List.pairwise_cons.mp h
    obtain ⟨hne, hnews⟩ := List.forall_mem_cons.mp hnew
    have hbefore : (decide (route.template < r.template) ||
        (decide (route.template = r.template) && decide (route.method.name < r.method.name))) =
          true ↔ route.Before r := by
      simp [Route.Before]
    unfold insertRoute
    by_cases hlt : route.Before r
    · rw [if_pos (hbefore.mpr hlt), List.pairwise_cons]
      refine ⟨fun x hx => ?_, h⟩
      rcases List.mem_cons.mp hx with rfl | hx
      · exact hlt
      · exact hlt.trans (hr x hx)
    · have hgt : r.Before route := (Route.before_or_before hne).resolve_right hlt
      rw [if_neg (mt hbefore.mp hlt), List.pairwise_cons]
      refine ⟨fun x hx => ?_, ih hrs hnews⟩
      rcases List.mem_cons.mp ((perm_insertRoute route rs).mem_iff.mp hx) with rfl | hx
      · exact hgt
      · exact hr x hx

theorem pairwise_foldr_insertRoute {routes : List Route} (h : (routes.map Route.key).Nodup) :
    (routes.foldr insertRoute []).Pairwise Route.Before := by
  induction routes with
  | nil => exact List.Pairwise.nil
  | cons r rs ih =>
    obtain ⟨hr, hrs⟩ := List.nodup_cons.mp h
    refine pairwise_insertRoute (ih hrs) fun r' hr' heq => hr ?_
    exact List.mem_map.mpr ⟨r', (perm_foldr_insertRoute rs).mem_iff.mp hr', heq⟩

/-- **The listing of an index has every route once, in strict order.** -/
theorem routes_ofRoutes {routes : List Route} (h : (routes.map Route.key).Nodup) :
    (ofRoutes routes).routes.Perm routes ∧ (ofRoutes routes).routes.Pairwise Route.Before := by
  have hperm : ((ofRoutes routes).entries.flatMap fun e => e.operations.map (·.2)).Perm routes := by
    have hmap := (perm_operations h).map (·.2)
    simpa [operations, List.map_flatMap, Function.comp_def] using hmap
  exact ⟨(perm_foldr_insertRoute _).trans hperm,
    pairwise_foldr_insertRoute ((hperm.map Route.key).nodup_iff.mpr h)⟩

end RouteIndex

/-! ## The operations of a contract -/

namespace Contract

variable {c : Contract}

/-- The operations of a contract by path and key, in the order in which they are read. -/
def operationPlaces (c : Contract) : List (String × String) :=
  (c.paths?.getD []).flatMap fun e =>
    (operationKeys.filter fun k => (e.2.member? k.1).isSome).map fun k => (e.1, k.1)

theorem mem_operationPlaces_iff {path key : String} :
    (path, key) ∈ c.operationPlaces ↔ ∃ v, c.Declares path key v := by
  have hmember : ∀ v : Json, (v.member? key).isSome = true ↔
      ∃ item : Assoc Json, v = .object item ∧ ∃ w, item.get? key = some w := by
    intro v
    cases v with
    | object item => simp [Json.member?, Json.asObject?, Option.isSome_iff_exists]
    | _ => simp [Json.member?, Json.asObject?]
  simp only [operationPlaces, List.mem_flatMap, List.mem_map, List.mem_filter, Prod.exists,
    Prod.mk.injEq]
  constructor
  · rintro ⟨_, v, hpath, _, method, ⟨hkey, hsome⟩, rfl, rfl⟩
    obtain ⟨item, rfl, w, hw⟩ := (hmember v).mp hsome
    exact ⟨w, item, hpath, List.mem_map.mpr ⟨_, hkey, rfl⟩, hw⟩
  · rintro ⟨w, item, hpath, hkey, hw⟩
    obtain ⟨k, hk, rfl⟩ := List.mem_map.mp hkey
    exact ⟨path, .object item, hpath, k.1, k.2,
      ⟨hk, (hmember _).mpr ⟨item, rfl, w, hw⟩⟩, rfl, rfl⟩

/-- No operation stands in two places. -/
theorem nodup_operationPlaces (h : ((c.paths?.getD []).map (·.1)).Nodup) :
    c.operationPlaces.Nodup := by
  have hkeys : (operationKeys.map (·.1)).Nodup := by decide
  refine List.nodup_flatMap.mpr ⟨fun e _ => ?_, ?_⟩
  · refine List.pairwise_map.mpr (((List.pairwise_map.mp hkeys).filter _).imp fun hne heq => ?_)
    exact hne (congrArg Prod.snd heq)
  · refine (List.pairwise_map.mp h).imp fun hne place hplace hplace' => hne ?_
    obtain ⟨_, -, rfl⟩ := List.mem_map.mp hplace
    obtain ⟨_, -, heq⟩ := List.mem_map.mp hplace'
    exact (congrArg Prod.fst heq).symm

/-- Without flaws the routes of a path are those of its operations. -/
theorem map_key_readPath {path : String} {v : Json} (h : Flaw.ofPath path v = []) :
    (readPath c c.basePath path v).1.map Route.key =
      (operationKeys.filter fun k => (v.member? k.1).isSome).map fun k =>
        (c.basePath ++ path, k.1.toUpper) := by
  have hupper : ∀ k ∈ operationKeys, k.2.name = k.1.toUpper := by decide +kernel
  cases v with
  | object item =>
    have hflaws : ∀ k ∈ operationKeys, ∀ w, Assoc.get? item k.1 = some w →
        Flaw.ofOperation path k.1 w = [] := by
      intro k hk w hw
      have hnone := (List.append_eq_nil_iff.mp h).2
      simpa [hw] using List.flatMap_eq_nil_iff.mp hnone k hk
    simp only [readPath, readOperations, List.flatMap_map]
    generalize operationKeys = keys at hupper hflaws
    induction keys with
    | nil => rfl
    | cons k keys ih =>
      obtain ⟨hk, hkeys⟩ := List.forall_mem_cons.mp hupper
      obtain ⟨hkflaws, hkeysflaws⟩ := List.forall_mem_cons.mp hflaws
      rw [List.flatMap_cons, List.map_append, ih hkeys hkeysflaws, List.filter_cons]
      cases hv : Assoc.get? item k.1 with
      | none => simp [Json.member?, Json.asObject?, hv]
      | some w =>
        cases w with
        | object members =>
          simp [Json.member?, Json.asObject?, hv, Route.key, readOperation, hk]
        | _ => cases hkflaws _ hv
  | _ => cases h

/-- The routes are known by the places of their operations. -/
theorem map_key_of_routes {routes : List Route} (h : c.routes = .ok routes) :
    routes.map Route.key =
      c.operationPlaces.map fun e => (c.basePath ++ e.1, e.2.toUpper) := by
  rw [routes_eq] at h
  split at h
  · next hflaws =>
    obtain rfl := Except.ok.inj h
    rw [operationPlaces, List.map_flatMap, List.map_flatMap]
    refine List.flatMap_congr fun e he => ?_
    rw [map_key_readPath (List.flatMap_eq_nil_iff.mp hflaws e he), List.map_map]
    rfl
  · cases h

/-- No two operations of a contract have a route with the same template and method. -/
theorem nodup_key_of_routes {routes : List Route} (h : c.routes = .ok routes)
    (hpaths : ((c.paths?.getD []).map (·.1)).Nodup) : (routes.map Route.key).Nodup := by
  have hupper : ∀ key ∈ operationKeys.map (·.1), ∀ key' ∈ operationKeys.map (·.1),
      key.toUpper = key'.toUpper → key = key' := by decide +kernel
  have hkey : ∀ place ∈ c.operationPlaces, place.2 ∈ operationKeys.map (·.1) := by
    intro place hplace
    obtain ⟨_, _, -, hkey, -⟩ := mem_operationPlaces_iff.mp hplace
    exact hkey
  rw [map_key_of_routes h]
  refine (nodup_operationPlaces hpaths).map_on fun place hplace place' hplace' heq => ?_
  obtain ⟨htemplate, hmethod⟩ := Prod.mk.inj heq
  have hlist := congrArg String.toList htemplate
  rw [String.toList_append, String.toList_append] at hlist
  exact Prod.ext (String.toList_inj.mp (List.append_cancel_left hlist))
    (hupper _ (hkey place hplace) _ (hkey place' hplace') hmethod)

/-- Whether an index lists the operations that stand in some places, and those are all the
operations of a contract. -/
structure ListsOperations (c : Contract) (x : RouteIndex) (places : List (String × String)) :
    Prop where
  nodup : places.Nodup
  complete : ∀ path key, (path, key) ∈ places ↔ ∃ v, c.Declares path key v
  keys : (x.routes.map Route.key).Perm
    (places.map fun e => (c.basePath ++ e.1, e.2.toUpper))
  operation : ∀ r ∈ x.routes, ∃ o : Operation, o.StandsIn c ∧ o.route c = r
  ordered : x.routes.Pairwise Route.Before
  size : x.size = places.length

/-- The index of a contract without flaws lists its operations. -/
theorem listsOperations_ofRoutes (hc : c.document.isOrdered = true) {routes : List Route}
    (h : c.routes = .ok routes) : c.ListsOperations (.ofRoutes routes) c.operationPlaces := by
  have hpaths := nodup_paths hc
  have hnodup := nodup_key_of_routes h hpaths
  obtain ⟨hperm, hordered⟩ := RouteIndex.routes_ofRoutes hnodup
  have hkeys := map_key_of_routes h
  refine ⟨nodup_operationPlaces hpaths, fun _ _ => mem_operationPlaces_iff,
    hkeys ▸ hperm.map Route.key, fun r hr => ?_, hordered, ?_⟩
  · exact (mem_routes_iff h).mp (hperm.mem_iff.mp hr)
  · have hlength := congrArg List.length hkeys
    rw [List.length_map, List.length_map] at hlength
    exact (RouteIndex.size_ofRoutes hnodup).trans hlength

/-- **No operation is lost or duplicated.** A contract is refused exactly when it has a flaw, with
one issue for each of its flaws; else its index lists every operation once. -/
theorem operations_listed_once (hc : c.document.isOrdered = true) :
    ((∃ issues, c.routes = .error issues) ↔ ∃ f : Flaw, f.StandsIn c) ∧
      ∃ flaws : List Flaw, flaws.Nodup ∧ (∀ f, f ∈ flaws ↔ f.StandsIn c) ∧
        (flaws ≠ [] → c.routes = .error (flaws.map Flaw.issue)) ∧
        (flaws = [] → ∃ routes places, c.routes = .ok routes ∧
          c.ListsOperations (.ofRoutes routes) places) := by
  have herror : c.flaws ≠ [] → c.routes = .error (c.flaws.map Flaw.issue) := by
    intro hflaws
    rw [routes_eq, if_neg hflaws]
  have hok : c.flaws = [] → ∃ routes, c.routes = .ok routes := by
    intro hflaws
    rw [routes_eq, if_pos hflaws]
    exact ⟨_, rfl⟩
  refine ⟨?_, c.flaws, nodup_flaws (nodup_paths hc), fun f => mem_flaws_iff, herror, ?_⟩
  · constructor
    · rintro ⟨issues, hissues⟩
      have hne : c.flaws ≠ [] := by
        intro hflaws
        obtain ⟨routes, hroutes⟩ := hok hflaws
        rw [hroutes] at hissues
        cases hissues
      obtain ⟨f, hf⟩ := List.exists_mem_of_ne_nil _ hne
      exact ⟨f, mem_flaws_iff.mp hf⟩
    · rintro ⟨f, hf⟩
      exact ⟨_, herror (List.ne_nil_of_mem (mem_flaws_iff.mpr hf))⟩
  · intro hflaws
    obtain ⟨routes, hroutes⟩ := hok hflaws
    exact ⟨routes, c.operationPlaces, hroutes, listsOperations_ofRoutes hc hroutes⟩

/-- A contract with three operations under two paths, behind the path of a server. -/
def catalogued : Contract where
  root := [("openapi", .string "3.0.3"),
    ("paths", .object [
      ("/pets", .object [("get", .object []), ("post", .object []), ("summary", .string "all")]),
      ("/pets/\x7bid\x7d", .object [("delete", .object []), ("parameters", .array [])])]),
    ("servers", .array [.object [("url", .string "/v1/")]])]
  version := "3.0.3"

theorem operations_listed_once_catalogued :
    ((∃ issues, catalogued.routes = .error issues) ↔ ∃ f : Flaw, f.StandsIn catalogued) ∧
      ∃ flaws : List Flaw, flaws.Nodup ∧ (∀ f, f ∈ flaws ↔ f.StandsIn catalogued) ∧
        (flaws ≠ [] → catalogued.routes = .error (flaws.map Flaw.issue)) ∧
        (flaws = [] → ∃ routes places, catalogued.routes = .ok routes ∧
          catalogued.ListsOperations (.ofRoutes routes) places) :=
  operations_listed_once (by decide)

example : (catalogued.routes.map fun routes => (RouteIndex.ofRoutes routes).routes.map Route.key) =
    .ok [("/v1/pets", "GET"), ("/v1/pets", "POST"), ("/v1/pets/\x7bid\x7d", "DELETE")] := by
  decide +kernel

end Contract

end ApiContract
