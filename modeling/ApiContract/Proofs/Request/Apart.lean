import ApiContract.Proofs.Assoc.Related
import ApiContract.Proofs.Request.Prepared
/-!
# Treating the two views apart

Where the fresh query and the host hold the same value, it is reshaped once for both. Both could as
well be treated apart, each directive being applied to the fresh query by itself and to the map of
the host by itself. This makes no difference to the fresh query, and to the host only in the signs
of zeros: values that differ in them alone count as the same, and then the host takes over the
value of the fresh query.
-/

namespace ApiContract

namespace Directive

/-- On maps that hold the same values a directive leaves the same values. -/
theorem applyIn_related (d : Directive) {m m' : Assoc Json}
    (h : Assoc.Rel (fun v w => v.same w = true) m m') :
    Assoc.Rel (fun v w => v.same w = true) (d.applyIn m) (d.applyIn m') := by
  unfold applyIn
  have hget := h.get? d.name
  generalize m.get? d.name = entry, m'.get? d.name = entry' at hget
  cases hget with
  | none => exact h
  | @some v w hvw =>
    simp only [isPresent_same hvw]
    split
    · have hconvert := d.reshape.convert?_same hvw
      generalize d.reshape.convert? v = x, d.reshape.convert? w = y at hconvert
      cases hconvert with
      | none => exact h
      | some hxy => exact h.insert _ hxy
    · exact h

/-- What a directive makes of a map in its place, told by a value that is the same as the one the
map holds. -/
theorem applyIn_of_same (d : Directive) {m : Assoc Json} {v w : Json} (hw : m.get? d.name = some w)
    (hvw : v.same w = true) (hpresent : isPresent (some v) = true) :
    (∃ x y, d.reshape.convert? v = some x ∧ x.same y = true ∧ d.applyIn m = m.insert d.name y) ∨
      (d.reshape.convert? v = none ∧ d.applyIn m = m) := by
  have hconvert := d.reshape.convert?_same hvw
  unfold applyIn
  rw [isPresent_same hvw] at hpresent
  simp only [hw, hpresent, if_true]
  generalize d.reshape.convert? v = x, d.reshape.convert? w = y at hconvert
  cases hconvert with
  | none => exact Or.inr ⟨rfl, rfl⟩
  | some hxy => exact Or.inl ⟨_, _, rfl, hxy, rfl⟩

end Directive

namespace RequestValidator

open Directive

/-- Apply a directive to the fresh query, if it is for the query, and to the values of the host,
each in its place. -/
def applyApart (state : Assoc Json × Request) (d : Directive) : Assoc Json × Request :=
  (if d.location = .query then d.applyIn state.1 else state.1,
    state.2.modifyValues d.applyIn d.location)

/-- How the two views stand beside those that are treated apart: the host may hold a value of the
fresh query in place of one that is the same. -/
structure StandsBeside (state apart : Assoc Json × Request) : Prop where
  fresh : state.1 = apart.1
  others : { state.2 with query := apart.2.query } = apart.2
  same : Assoc.Rel (fun v w => v.same w = true) state.2.query apart.2.query
  held : ∀ name, state.2.query.get? name = apart.2.query.get? name ∨
    state.2.query.get? name = state.1.get? name

theorem StandsBeside.refl (state : Assoc Json × Request) : StandsBeside state state :=
  ⟨rfl, rfl, .refl Json.same_refl _, fun _ => Or.inl rfl⟩

/-- What is treated apart is the same but for the query of the host. -/
theorem StandsBeside.exists_host {query : Assoc Json} {r : Request} {apart : Assoc Json × Request}
    (h : StandsBeside (query, r) apart) :
    ∃ host, apart = (query, { r with query := host }) ∧
      Assoc.Rel (fun v w => v.same w = true) r.query host ∧
      ∀ name, r.query.get? name = host.get? name ∨ r.query.get? name = query.get? name :=
  ⟨apart.2.query, Prod.ext h.fresh.symm h.others.symm, h.same, h.held⟩

/-- Treating apart here too keeps them so. -/
theorem StandsBeside.applyApart_both {state apart : Assoc Json × Request}
    (h : StandsBeside state apart) (d : Directive) :
    StandsBeside (applyApart state d) (applyApart apart d) := by
  obtain ⟨query, r⟩ := state
  obtain ⟨host, rfl, hsame, hheld⟩ := h.exists_host
  unfold applyApart
  cases hl : d.location with
  | query =>
    refine ⟨rfl, rfl, d.applyIn_related hsame, fun name => ?_⟩
    simp only [Request.modifyValues, if_true, get?_applyIn]
    split
    · exact (hheld name).imp (congrArg _) (congrArg _)
    · exact hheld name
  | _ => exact ⟨rfl, rfl, hsame, hheld⟩

/-- So does reshaping a value of the fresh query for both views, if what is treated apart comes to
one that is the same. -/
theorem StandsBeside.insert_both {query : Assoc Json} {r : Request} {host : Assoc Json}
    (h : StandsBeside (query, r) (query, { r with query := host })) (name : String) {x y : Json}
    (hxy : x.same y = true) :
    StandsBeside (query.insert name x, { r with query := r.query.insert name x })
      (query.insert name x, { r with query := host.insert name y }) := by
  refine ⟨rfl, rfl, h.same.insert _ hxy, fun key => ?_⟩
  by_cases hkey : name = key
  · subst hkey
    exact Or.inr ((Assoc.get?_insert_self _ _ _).trans (Assoc.get?_insert_self _ _ _).symm)
  · simp only [Assoc.get?_insert_of_ne _ _ hkey]
    exact h.held key

/-- **One directive keeps the views beside those that are treated apart.** -/
theorem StandsBeside.step {state apart : Assoc Json × Request} (h : StandsBeside state apart)
    (d : Directive) : StandsBeside (applyDirective state d) (applyApart apart d) := by
  obtain ⟨query, r⟩ := state
  rcases applyDirective_cases query r d with
    hapart | ⟨hl, v, w, hv, hw, hvw, hpresent, hshared⟩
  · rw [hapart]
    exact h.applyApart_both d
  · -- the value that they share is reshaped for both
    obtain ⟨host, rfl, hsame, -⟩ := h.exists_host
    have happly : applyApart (query, { r with query := host }) d =
        (d.applyIn query, { r with query := d.applyIn host }) := by
      simp only [applyApart, hl, Request.modifyValues, if_true]
    have hfresh : (applyDirective (query, r) d).1 = d.applyIn query := by
      rw [applyDirective_fst, if_pos hl]
    obtain ⟨w', hw', hww'⟩ : ∃ w', host.get? d.name = some w' ∧ w.same w' = true := by
      have hget := hsame.get? d.name
      rw [hw] at hget
      generalize host.get? d.name = entry at hget
      cases hget with
      | some hww' => exact ⟨_, rfl, hww'⟩
    rw [happly, ← hfresh]
    rcases d.applyIn_of_same hw' (Json.same_trans hvw hww') hpresent with
      ⟨x, y, hx, hxy, hhost⟩ | ⟨hnone, hhost⟩ <;> rw [hhost]
    · obtain ⟨x', hx', hshared⟩ | ⟨hx', -⟩ := hshared
      · obtain rfl := Option.some.inj (hx.symm.trans hx')
        rw [hshared]
        exact h.insert_both d.name hxy
      · exact absurd hx (by simp [hx'])
    · obtain ⟨x', hx', -⟩ | ⟨-, hshared⟩ := hshared
      · exact absurd hx' (by simp [hnone])
      · rw [hshared]
        exact h

/-- So does a list of directives. -/
theorem standsBeside_applyDirectives (ds : List Directive) (query : Assoc Json) (r : Request) :
    StandsBeside (applyDirectives ds query r) (ds.foldl applyApart (query, r)) :=
  List.foldl_rel (.refl (query, r)) fun d _ _ _ h => h.step d

/-- Treated apart, views that agree on a name go on agreeing on it. -/
theorem agree_foldl_applyApart (ds : List Directive) {state : Assoc Json × Request} {name : String}
    (h : state.1.get? name = state.2.query.get? name) :
    (ds.foldl applyApart state).1.get? name = (ds.foldl applyApart state).2.query.get? name := by
  induction ds generalizing state with
  | nil => exact h
  | cons d ds ih =>
    refine ih ?_
    unfold applyApart
    cases hd : d.location with
    | query => simp only [if_true, Request.modifyValues, get?_applyIn, h]
    | _ => exact h

/-- **Where the views agree on a name, the host is left with the value of the fresh query.** -/
theorem get?_query_applyDirectives (ds : List Directive) {query : Assoc Json} {r : Request}
    {name : String} (h : query.get? name = r.query.get? name) :
    (applyDirectives ds query r).2.query.get? name =
      (applyDirectives ds query r).1.get? name := by
  have hbeside := standsBeside_applyDirectives ds query r
  rcases hbeside.held name with hheld | hheld
  · rw [hheld, hbeside.fresh]
    exact (agree_foldl_applyApart ds h).symm
  · exact hheld

/--
**Reshaping a shared value once shows in the signs of zeros alone.** Directives leave the fresh
query as if they were applied to it by itself, and the request as if they were applied to the maps
of the host by themselves, except that the query of the host may differ in the signs of zeros: there
it holds the value that it would hold, or else the one of the fresh query. Under a name for which
both views hold the same value before, they hold the same value afterwards; and if it is one value,
signs of zeros included, then it is one value afterwards, the one that the host would hold.
-/
theorem applyDirectives_beside_apart (ds : List Directive) (query : Assoc Json) (r : Request) :
    let shared := applyDirectives ds query r
    let apart := ds.foldl applyApart (query, r)
    shared.1 = apart.1 ∧
      { shared.2 with query := apart.2.query } = apart.2 ∧
      Assoc.Rel (fun v w => v.same w = true) shared.2.query apart.2.query ∧
      (∀ name, shared.2.query.get? name = apart.2.query.get? name ∨
        shared.2.query.get? name = shared.1.get? name) ∧
      (∀ name, Json.SameEntry (query.get? name) (r.query.get? name) →
        Json.SameEntry (shared.1.get? name) (shared.2.query.get? name)) ∧
      ∀ name, query.get? name = r.query.get? name →
        shared.2.query.get? name = shared.1.get? name ∧
          shared.2.query.get? name = apart.2.query.get? name := by
  intro shared apart
  have hbeside : StandsBeside shared apart := standsBeside_applyDirectives ds query r
  refine ⟨hbeside.fresh, hbeside.others, hbeside.same, hbeside.held, fun name h => ?_,
    fun name h => ?_⟩
  · have hfresh : shared.1.get? name =
        (query.get? name).map (reshapeAll (directivesOf ds .query) name) := by
      rw [show shared.1 = applyAll (directivesOf ds .query) query from applyDirectives_fst query r ds,
        get?_applyAll]
    have hhost : Json.SameEntry (shared.2.query.get? name)
        ((r.query.get? name).map (reshapeAll (directivesOf ds .query) name)) :=
      query_applyDirectives query r ds name
    rw [hfresh]
    exact (h.map (reshapeAll_same _ name)).trans hhost.symm
  · have hshared : shared.2.query.get? name = shared.1.get? name := get?_query_applyDirectives ds h
    refine ⟨hshared, ?_⟩
    rw [hshared, hbeside.fresh]
    exact agree_foldl_applyApart ds h

end RequestValidator

/-! ## A zero that loses its sign -/

/-- The schema of an array of texts, or of an object. -/
def textsOrObject : Json := .object [
  ("items", .object [("type", .string "string")]),
  ("type", .array [.string "array", .string "object"])]

def explodedParameter : Json := .object [
  ("in", .string "query"), ("name", .string "n"), ("schema", textsOrObject)]

def delimitedParameter : Json := .object [
  ("explode", .bool false), ("in", .string "query"), ("name", .string "m"),
  ("schema", textsOrObject)]

/-- A contract with `GET /a`, whose query may hold texts or an object, under `n` with a value for
each text and under `m` with one value for all. -/
def undecided : Contract where
  root := [
    ("openapi", .string "3.1.0"),
    ("paths", .object [("/a", .object [("get", .object [
      ("parameters", .array [explodedParameter, delimitedParameter]),
      ("responses", .object [])])])])]
  version := "3.1.0"

def undecidedValidator : Validator :=
  ⟨undecided, .ofRoutes (undecided.routes.toOption.getD []), {}⟩

/-- A request whose target holds a zero with a sign, and its host one without. -/
def signedZero : Request :=
  { Request.ofTarget Method.get "/a?n=-0.0" with query := [("n", .string "0.0")] }

set_option maxRecDepth 10000 in
/-- Both zeros are decoded, and then count as one value: the host is handed back the sign. -/
theorem applyDirectives_apart_ne :
    Validator.ofContract undecided {} = .ok undecidedValidator ∧
      ∃ m, undecidedValidator.matching? undecidedValidator.stores signedZero = some m ∧
        (RequestValidator.applyDirectives m.plan.schema.directives
            (Query.parse signedZero.target) signedZero).2 ≠
          (m.plan.schema.directives.foldl RequestValidator.applyApart
            (Query.parse signedZero.target, signedZero)).2 ∧
        (m.plan.schema.directives.foldl RequestValidator.applyApart
          (Query.parse signedZero.target, signedZero)).2.query =
            [("n", .array [.number (.real (.zero false))])] ∧
        (undecidedValidator.validateRequest undecidedValidator.stores signedZero).2.1.query =
            [("n", .array [.number (.real (.zero true))])] := by
  have h : (undecidedValidator.matching? undecidedValidator.stores signedZero).map
      (·.plan.schema.directives) =
        some [⟨.parseJson, "n", .query⟩, ⟨.parseJson, "m", .query⟩, ⟨.splitArray ',', "m", .query⟩,
          ⟨.wrapSingle, "n", .query⟩] := by decide +kernel
  obtain ⟨m, hm, hdirectives⟩ := Option.map_eq_some_iff.mp h
  refine ⟨rfl, m, hm, ?_, ?_, by decide +kernel⟩ <;> rw [hdirectives] <;> decide +kernel

end ApiContract
