import ApiContract.Proofs.Parameter.Reshaping
import ApiContract.Request.Validation
/-!
# Directives on the two views of a request

`applyDirectives` works on two views at once, the fresh query and the maps of the host, and reshapes
a query value only once where both hold the same. The views can nevertheless be told apart: the
fresh query is what the query directives make of it, and each map of the host is what the directives
of its location make of that map. For the query of the host this holds up to the signs of zeros,
which the comparison of the views does not see.
-/

namespace ApiContract

namespace Request

/-! ## The values of a host -/

/-- The value that a host holds for a parameter. -/
def value? (r : Request) (l : Location) (name : String) : Option Json :=
  (r.values? l).bind (Assoc.get? · name)

theorem values?_modifyValues (r : Request) (f : Assoc Json → Assoc Json) (l k : Location) :
    (r.modifyValues f l).values? k = if l = k then (r.values? k).map f else r.values? k := by
  cases l <;> cases k <;> rfl

/-- Two requests that differ in the values of parameters alone. -/
structure SameFrame (r r' : Request) : Prop where
  method : r.method = r'.method
  target : r.target = r'.target
  signedCookies : r.signedCookies = r'.signedCookies
  body : r.body = r'.body
  cookies : r.cookies.isSome = r'.cookies.isSome

namespace SameFrame

theorem refl (r : Request) : SameFrame r r := ⟨rfl, rfl, rfl, rfl, rfl⟩

theorem trans {r r' r'' : Request} (h : SameFrame r r') (h' : SameFrame r' r'') :
    SameFrame r r'' :=
  ⟨h.method.trans h'.method, h.target.trans h'.target, h.signedCookies.trans h'.signedCookies,
    h.body.trans h'.body, h.cookies.trans h'.cookies⟩

theorem modifyValues (r : Request) (f : Assoc Json → Assoc Json) (l : Location) :
    SameFrame (r.modifyValues f l) r := by
  cases l <;> exact ⟨rfl, rfl, rfl, rfl, by simp [Request.modifyValues]⟩

end SameFrame

end Request

namespace RequestValidator

open Directive

variable (query : Assoc Json) (r : Request)

/-! ## One directive -/

/-- What a directive does, in one place: both views are treated apart, or the value that they share
is converted for both, or it does not convert. -/
theorem applyDirective_cases (d : Directive) :
    (applyDirective (query, r) d =
      (if d.location = .query then d.applyIn query else query,
        r.modifyValues d.applyIn d.location)) ∨
    (d.location = .query ∧ ∃ v w, query.get? d.name = some v ∧ r.query.get? d.name = some w ∧
      v.same w = true ∧ isPresent (some v) = true ∧
      ((∃ x, d.reshape.convert? v = some x ∧ applyDirective (query, r) d =
          (query.insert d.name x, { r with query := r.query.insert d.name x })) ∨
        (d.reshape.convert? v = none ∧ applyDirective (query, r) d = (query, r)))) := by
  unfold applyDirective
  simp only
  by_cases hl : d.location = .query
  · by_cases hp : isPresent (query.get? d.name) = true
    · rw [if_pos (by simp [hl, hp])]
      cases hv : query.get? d.name with
      | none => simp [hv, isPresent] at hp
      | some v =>
        cases hw : r.query.get? d.name with
        | none => exact Or.inl (by simp [hl])
        | some w =>
          by_cases hs : v.same w = true
          · refine Or.inr ⟨hl, v, w, rfl, rfl, hs, by rw [← hv]; exact hp, ?_⟩
            simp only [hs, if_true]
            cases hc : d.reshape.convert? v with
            | none => exact Or.inr ⟨rfl, rfl⟩
            | some x => exact Or.inl ⟨x, rfl, rfl⟩
          · exact Or.inl (by simp [hl, hs])
    · rw [if_neg (by simp [hp])]
      refine Or.inl ?_
      have hq : d.applyIn query = query := by
        unfold applyIn
        split
        · rfl
        · next v hv => rw [hv] at hp; rw [if_neg hp]
      rw [if_pos hl, hq]
  · rw [if_neg (by simp [hl]), if_neg hl]
    exact Or.inl rfl

/-- The fresh query is treated as if it were alone. -/
theorem applyDirective_fst (d : Directive) :
    (applyDirective (query, r) d).1 = if d.location = .query then d.applyIn query else query := by
  rcases applyDirective_cases query r d with h | ⟨hl, v, w, hv, -, -, hp, h⟩
  · rw [h]
  · rw [if_pos hl]
    rcases h with ⟨x, hx, h⟩ | ⟨hx, h⟩
    · rw [h]
      simp [applyIn, hv, hp, hx]
    · rw [h]
      simp [applyIn, hv, hp, hx]

theorem sameFrame_applyDirective (d : Directive) :
    (applyDirective (query, r) d).2.SameFrame r := by
  rcases applyDirective_cases query r d with h | ⟨-, v, w, -, -, -, -, ⟨x, -, h⟩ | ⟨-, h⟩⟩ <;>
    rw [h]
  · exact Request.SameFrame.modifyValues r d.applyIn d.location
  · exact ⟨rfl, rfl, rfl, rfl, rfl⟩
  · exact Request.SameFrame.refl r

/-- The maps of the host other than its query are treated as if they were alone. -/
theorem values?_applyDirective (d : Directive) {l : Location} (hl : l ≠ .query) :
    (applyDirective (query, r) d).2.values? l =
      if d.location = l then (r.values? l).map d.applyIn else r.values? l := by
  rcases applyDirective_cases query r d with h | ⟨hd, v, w, -, -, -, -, h⟩
  · rw [h, Request.values?_modifyValues]
  · rw [if_neg (by rw [hd]; exact Ne.symm hl)]
    rcases h with ⟨x, -, h⟩ | ⟨-, h⟩ <;> rw [h]
    cases l with
    | query => exact absurd rfl hl
    | _ => rfl

/-- So is the query of the host, up to the signs of zeros. -/
theorem query_applyDirective (d : Directive) (key : String) :
    Json.SameEntry ((applyDirective (query, r) d).2.query.get? key)
      (if d.location = .query ∧ d.name = key then (r.query.get? key).map d.reshaped
        else r.query.get? key) := by
  rcases applyDirective_cases query r d with h | ⟨hl, v, w, hv, hw, hs, hp, h⟩
  · rw [h]
    by_cases hl : d.location = .query
    · simp only [hl, Request.modifyValues, true_and, get?_applyIn]
      exact Json.SameEntry.refl _
    · rw [if_neg (by simp [hl])]
      cases hd : d.location <;> first | exact absurd hd hl | exact Json.SameEntry.refl _
  · by_cases hk : d.name = key
    · subst hk
      rw [if_pos ⟨hl, rfl⟩, hw, Option.map_some]
      have hr : (d.reshaped v).same (d.reshaped w) = true := d.reshaped_same hs
      rcases h with ⟨x, hx, h⟩ | ⟨hx, h⟩ <;> rw [h]
      · -- the host gets the value of the fresh query, which is reshaped from the same
        have hx' : d.reshaped v = x := by simp [reshaped, hp, hx]
        rw [hx'] at hr
        simp only [Assoc.get?_insert_self]
        exact .some hr
      · have hx' : d.reshaped v = v := by simp [reshaped, hp, hx]
        rw [hx'] at hr
        rw [hw]
        exact .some (Json.same_trans (Json.same_symm hs) hr)
    · rw [if_neg (by simp [hk])]
      rcases h with ⟨x, -, h⟩ | ⟨-, h⟩ <;> rw [h]
      · exact .of_eq (Assoc.get?_insert_of_ne _ _ hk)
      · exact .refl _

/-! ## All directives -/

variable (ds : List Directive)

/-- The directives of a location, in order. -/
def directivesOf (l : Location) : List Directive := ds.filter (·.location = l)

theorem directivesOf_cons (d : Directive) (l : Location) :
    directivesOf (d :: ds) l =
      if d.location = l then d :: directivesOf ds l else directivesOf ds l := by
  simp [directivesOf, List.filter_cons]

theorem applyDirectives_cons (d : Directive) :
    applyDirectives (d :: ds) query r =
      applyDirectives ds (applyDirective (query, r) d).1 (applyDirective (query, r) d).2 := rfl

theorem applyDirectives_fst :
    (applyDirectives ds query r).1 = applyAll (directivesOf ds .query) query := by
  induction ds generalizing query r with
  | nil => rfl
  | cons d ds ih =>
    rw [applyDirectives_cons, ih, applyDirective_fst, directivesOf_cons]
    split <;> rfl

theorem sameFrame_applyDirectives : (applyDirectives ds query r).2.SameFrame r := by
  induction ds generalizing query r with
  | nil => exact Request.SameFrame.refl r
  | cons d ds ih =>
    rw [applyDirectives_cons]
    exact (ih _ _).trans (sameFrame_applyDirective query r d)

theorem values?_applyDirectives {l : Location} (hl : l ≠ .query) :
    (applyDirectives ds query r).2.values? l =
      (r.values? l).map (applyAll (directivesOf ds l)) := by
  induction ds generalizing query r with
  | nil => cases h : r.values? l <;> simp [applyDirectives, h, directivesOf, applyAll]
  | cons d ds ih =>
    rw [applyDirectives_cons, ih, values?_applyDirective _ _ _ hl, directivesOf_cons]
    split
    · rw [Option.map_map]
      rfl
    · rfl

theorem query_applyDirectives (key : String) :
    Json.SameEntry ((applyDirectives ds query r).2.query.get? key)
      ((r.query.get? key).map (reshapeAll (directivesOf ds .query) key)) := by
  induction ds generalizing query r with
  | nil => exact .of_eq (by cases h : r.query.get? key <;> simp [applyDirectives, h, directivesOf])
  | cons d ds ih =>
    rw [applyDirectives_cons, directivesOf_cons]
    refine (ih _ _).trans ?_
    -- the rest treats alike what the first directive leaves the same
    have hstep := (query_applyDirective query r d key).map
      (reshapeAll_same (directivesOf ds .query) key)
    refine hstep.trans (.of_eq ?_)
    by_cases hl : d.location = .query
    · by_cases hk : d.name = key
      · rw [if_pos ⟨hl, hk⟩, if_pos hl, Option.map_map]
        exact congrArg (Option.map · _) (funext fun v => by simp [hk])
      · rw [if_neg (by simp [hk]), if_pos hl]
        exact congrArg (Option.map · _) (funext fun v => by simp [hk])
    · rw [if_neg (by simp [hl]), if_neg hl]

/-- **What the directives do to the values of the host**, at every location. -/
theorem value?_applyDirectives (l : Location) (key : String) :
    Json.SameEntry ((applyDirectives ds query r).2.value? l key)
      ((r.value? l key).map (reshapeAll (directivesOf ds l) key)) := by
  by_cases hl : l = .query
  · subst hl
    exact query_applyDirectives query r ds key
  · refine .of_eq ?_
    unfold Request.value?
    rw [values?_applyDirectives _ _ _ hl]
    cases r.values? l with
    | none => rfl
    | some values => exact get?_applyAll _ values key

end RequestValidator

end ApiContract
