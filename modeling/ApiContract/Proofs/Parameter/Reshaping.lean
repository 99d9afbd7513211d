import ApiContract.Parameter.Directive
import ApiContract.Proofs.Json.Parsing
import ApiContract.Proofs.Json.Sameness
/-!
# Reshaping a value

What the directives of one parameter do to its value. Values that are the same are reshaped to
values that are the same, and reshaping never goes in circles: a reshaped value stands higher than
the one before it, in the order of texts by falling length, then other values, then arrays by their
length. So a list of directives hands a value back only if none of them changes it.
-/

namespace ApiContract

namespace Text

/-- A text that is one piece has no separator, and is that piece. -/
theorem eq_of_splitOn_singleton {sep : Char} {cs piece : List Char} (h : splitOn sep cs = [piece]) :
    piece = cs := by
  induction cs generalizing piece with
  | nil => simpa using h.symm
  | cons c cs ih =>
    unfold splitOn at h
    split at h
    · simp only [List.cons.injEq] at h
      exact absurd h.2 (splitOn_ne_nil sep cs)
    · split at h
      · next p ps hp =>
        simp only [List.cons.injEq] at h
        obtain ⟨rfl, rfl⟩ := h
        rw [ih hp]
      · next hn => exact absurd hn (splitOn_ne_nil sep cs)

end Text

namespace Reshape

/-! ## Values that are the same -/

/-- Splitting the items of an array, as `convert?` does it. -/
def splitItem (delimiter : Char) : Json → List Json
  | .string raw => split delimiter raw
  | other => [other]

theorem convert?_splitArray_array (delimiter : Char) (items : List Json) :
    (splitArray delimiter).convert? (.array items)
      = some (.array (items.flatMap (splitItem delimiter))) := by
  simp only [convert?, Option.some.injEq, Json.array.injEq]
  exact congrArg (List.flatMap · items) (funext fun v => by cases v <;> rfl)

theorem itemsMatchBy_append {rel : Number → Number → Bool} {as bs cs ds : List Json}
    (h : Json.itemsMatchBy rel as bs = true) (h' : Json.itemsMatchBy rel cs ds = true) :
    Json.itemsMatchBy rel (as ++ cs) (bs ++ ds) = true := by
  induction as generalizing bs with
  | nil => cases bs <;> simp_all [Json.itemsMatchBy]
  | cons a as ih =>
    cases bs with
    | nil => simp [Json.itemsMatchBy] at h
    | cons b bs =>
      simp only [Json.itemsMatchBy, Bool.and_eq_true, List.cons_append] at h ⊢
      exact ⟨h.1, ih h.2⟩

theorem splitItem_same (delimiter : Char) {v w : Json} (h : v.same w = true) :
    Json.itemsMatchBy Number.same (splitItem delimiter v) (splitItem delimiter w) = true := by
  cases v <;> cases w <;> simp_all [Json.same, Json.matchesBy, splitItem, Json.itemsMatchBy]
  exact Json.itemsMatchBy_self Number.same_refl _

theorem splitItems_same (delimiter : Char) {as bs : List Json}
    (h : Json.itemsMatchBy Number.same as bs = true) :
    Json.itemsMatchBy Number.same (as.flatMap (splitItem delimiter))
      (bs.flatMap (splitItem delimiter)) = true := by
  induction as generalizing bs with
  | nil => cases bs <;> simp_all [Json.itemsMatchBy]
  | cons a as ih =>
    cases bs with
    | nil => simp [Json.itemsMatchBy] at h
    | cons b bs =>
      simp only [Json.itemsMatchBy, Bool.and_eq_true, List.flatMap_cons] at h ⊢
      exact itemsMatchBy_append (splitItem_same delimiter h.1) (ih h.2)

/-- Values that are the same are converted alike. -/
theorem convert?_same (x : Reshape) {v w : Json} (h : v.same w = true) :
    Json.SameEntry (x.convert? v) (x.convert? w) := by
  cases x with
  | parseJson =>
    cases v <;> cases w <;> simp_all [Json.same, Json.matchesBy, convert?] <;>
      exact Json.SameEntry.refl _
  | splitArray delimiter =>
    cases v <;> cases w <;>
      simp only [Json.same, Json.matchesBy, Bool.false_eq_true, beq_iff_eq] at h
    case array.array as bs =>
      rw [convert?_splitArray_array, convert?_splitArray_array]
      exact .some (splitItems_same delimiter h)
    case string.string a b => subst h; exact Json.SameEntry.refl _
    all_goals exact .none
  | wrapSingle =>
    have hw : (Json.array [v]).same (.array [w]) = true := by
      simpa [Json.same, Json.matchesBy, Json.itemsMatchBy] using h
    cases v <;> cases w <;> simp only [Json.same, Json.matchesBy, Bool.false_eq_true] at h
    case array.array => exact .none
    all_goals exact .some hw

/-! ## No way back -/

/-- Where a value stands: texts by falling length, then other values, then arrays by length. -/
def height : Json → Int
  | .string s => -(s.length : Int) - 1
  | .array items => items.length + 1
  | _ => 0

theorem height_of_same {v w : Json} (h : v.same w = true) : height v = height w := by
  have hlen : ∀ {as bs : List Json}, Json.itemsMatchBy Number.same as bs = true →
      as.length = bs.length := by
    intro as
    induction as with
    | nil => intro bs h; cases bs <;> simp_all [Json.itemsMatchBy]
    | cons a as ih =>
      intro bs h
      cases bs with
      | nil => simp [Json.itemsMatchBy] at h
      | cons b bs =>
        simp only [Json.itemsMatchBy, Bool.and_eq_true] at h
        simp [ih h.2]
  cases v <;> cases w <;> simp_all [Json.same, Json.matchesBy, height]
  exact_mod_cast hlen h

/-- An item is split into itself alone, or into more. -/
theorem splitItem_cases (delimiter : Char) (v : Json) :
    splitItem delimiter v = [v] ∨ 1 < (splitItem delimiter v).length := by
  cases v with
  | string raw =>
    simp only [splitItem, split, List.length_map]
    cases h : Text.splitOn delimiter raw.toList with
    | nil => exact absurd h (Text.splitOn_ne_nil _ _)
    | cons p ps =>
      cases ps with
      | nil =>
        have hp := Text.eq_of_splitOn_singleton h
        subst hp
        exact Or.inl (by simp)
      | cons q qs => exact Or.inr (by simp)
  | _ => exact Or.inl rfl

/-- Splitting the items of an array changes nothing, or makes it longer. -/
theorem splitItems_cases (delimiter : Char) (items : List Json) :
    items.flatMap (splitItem delimiter) = items ∨
      items.length < (items.flatMap (splitItem delimiter)).length := by
  induction items with
  | nil => exact Or.inl rfl
  | cons v vs ih =>
    have hv : 1 ≤ (splitItem delimiter v).length := by
      rcases splitItem_cases delimiter v with h | h
      · simp [h]
      · omega
    simp only [List.flatMap_cons, List.length_append, List.length_cons]
    rcases ih with h | h
    · rcases splitItem_cases delimiter v with h' | h'
      · exact Or.inl (by rw [h, h']; rfl)
      · rw [h]
        exact Or.inr (by omega)
    · exact Or.inr (by omega)

/-- **A conversion changes nothing, or raises the value.** -/
theorem convert?_eq_or_height_lt {x : Reshape} {v w : Json} (h : x.convert? v = some w) :
    w = v ∨ height v < height w := by
  cases x with
  | parseJson =>
    cases v <;> simp only [convert?, reduceCtorEq] at h
    next raw =>
    refine Or.inr ?_
    cases w with
    | string s =>
      have := Json.length_lt_of_parse? h
      simp only [height]
      omega
    | _ => simp only [height]; omega
  | splitArray delimiter =>
    cases v with
    | string raw =>
      simp only [convert?, Option.some.injEq] at h
      subst h
      refine Or.inr ?_
      simp only [height]
      omega
    | array items =>
      rw [convert?_splitArray_array, Option.some.injEq] at h
      subst h
      rcases splitItems_cases delimiter items with h | h
      · exact Or.inl (by rw [h])
      · refine Or.inr ?_
        simp only [height]
        omega
    | _ => simp [convert?] at h
  | wrapSingle =>
    cases v <;> simp only [convert?, Option.some.injEq, reduceCtorEq] at h <;> subst h <;>
      exact Or.inr (by simp [height]; try omega)

end Reshape

namespace Directive

/-! ## One directive -/

/-- What a directive makes of a value. -/
def reshaped (d : Directive) (v : Json) : Json :=
  if isPresent (some v) then (d.reshape.convert? v).getD v else v

theorem isPresent_same {v w : Json} (h : v.same w = true) :
    isPresent (some v) = isPresent (some w) := by
  cases v <;> cases w <;> simp_all [Json.same, Json.matchesBy, isPresent]

theorem reshaped_same (d : Directive) {v w : Json} (h : v.same w = true) :
    (d.reshaped v).same (d.reshaped w) = true := by
  unfold reshaped
  rw [isPresent_same h]
  split
  · have hc := d.reshape.convert?_same h
    generalize d.reshape.convert? v = a at hc
    generalize d.reshape.convert? w = b at hc
    cases hc with
    | none => exact h
    | some h' => exact h'
  · exact h

theorem reshaped_eq_or_height_lt (d : Directive) (v : Json) :
    d.reshaped v = v ∨ Reshape.height v < Reshape.height (d.reshaped v) := by
  unfold reshaped
  split
  · cases hc : d.reshape.convert? v with
    | none => exact Or.inl rfl
    | some w => exact Reshape.convert?_eq_or_height_lt hc
  · exact Or.inl rfl

/-- What a directive does to the values of a location: it reshapes the one of its name. -/
theorem get?_applyIn (d : Directive) (values : Assoc Json) (key : String) :
    (d.applyIn values).get? key =
      if d.name = key then (values.get? key).map d.reshaped else values.get? key := by
  unfold applyIn
  by_cases hk : d.name = key
  · subst hk
    simp only [if_true]
    cases hv : values.get? d.name with
    | none => simp [hv]
    | some v =>
      simp only [Option.map_some, reshaped]
      split
      · cases hc : d.reshape.convert? v with
        | none => simp [hv]
        | some w => simp
      · exact hv
  · simp only [hk, if_false]
    split
    · rfl
    · split
      · split
        · exact Assoc.get?_insert_of_ne _ _ hk
        · rfl
      · rfl

/-! ## Several directives -/

/-- What directives make of the value of a name, one after the other. -/
def reshapeAll (ds : List Directive) (name : String) (v : Json) : Json :=
  ds.foldl (fun v d => if d.name = name then d.reshaped v else v) v

@[simp] theorem reshapeAll_nil (name : String) (v : Json) : reshapeAll [] name v = v := rfl

@[simp] theorem reshapeAll_cons (d : Directive) (ds : List Directive) (name : String) (v : Json) :
    reshapeAll (d :: ds) name v =
      reshapeAll ds name (if d.name = name then d.reshaped v else v) := rfl

/-- Apply directives to the values of one location, one after the other. -/
def applyAll (ds : List Directive) (values : Assoc Json) : Assoc Json :=
  ds.foldl (fun values d => d.applyIn values) values

theorem get?_applyAll (ds : List Directive) (values : Assoc Json) (key : String) :
    (applyAll ds values).get? key = (values.get? key).map (reshapeAll ds key) := by
  induction ds generalizing values with
  | nil => cases h : values.get? key <;> simp [applyAll, h]
  | cons d ds ih =>
    rw [show applyAll (d :: ds) values = applyAll ds (d.applyIn values) from rfl, ih, get?_applyIn]
    cases values.get? key <;> by_cases hk : d.name = key <;> simp [hk]

theorem contains_applyAll (ds : List Directive) (values : Assoc Json) (key : String) :
    (applyAll ds values).contains key = values.contains key := by
  simp [Assoc.contains_eq, get?_applyAll]

theorem reshapeAll_same (ds : List Directive) (name : String) {v w : Json}
    (h : v.same w = true) : (reshapeAll ds name v).same (reshapeAll ds name w) = true := by
  induction ds generalizing v w with
  | nil => exact h
  | cons d ds ih =>
    rw [reshapeAll_cons, reshapeAll_cons]
    split
    · exact ih (d.reshaped_same h)
    · exact ih h

theorem height_le_reshapeAll (ds : List Directive) (name : String) (v : Json) :
    Reshape.height v ≤ Reshape.height (reshapeAll ds name v) := by
  induction ds generalizing v with
  | nil => exact Int.le_refl _
  | cons d ds ih =>
    rw [reshapeAll_cons]
    split
    · rcases d.reshaped_eq_or_height_lt v with h | h
      · rw [h]
        exact ih v
      · exact Int.le_trans (Int.le_of_lt h) (ih _)
    · exact ih v

/-- **Directives hand a value back exactly if none of them changes it.** -/
theorem reshapeAll_same_iff (ds : List Directive) (name : String) (v : Json) :
    (reshapeAll ds name v).same v = true ↔ ∀ d ∈ ds, d.name = name → d.reshaped v = v := by
  induction ds with
  | nil => simp [Json.same_refl]
  | cons d ds ih =>
    simp only [List.forall_mem_cons]
    by_cases hn : d.name = name
    · rw [reshapeAll_cons, if_pos hn]
      constructor
      · intro h
        -- the rest raises the value or leaves it, so it cannot undo what the first one raised
        have hd : d.reshaped v = v := by
          rcases d.reshaped_eq_or_height_lt v with hd | hd
          · exact hd
          · have hle := height_le_reshapeAll ds name (d.reshaped v)
            rw [Reshape.height_of_same h] at hle
            omega
        rw [hd] at h
        exact ⟨fun _ => hd, ih.mp h⟩
      · rintro ⟨hd, hds⟩
        rw [hd hn]
        exact ih.mpr hds
    · rw [reshapeAll_cons, if_neg hn, ih]
      exact ⟨fun h => ⟨fun hn' => absurd hn' hn, h⟩, fun h => h.2⟩

end Directive

end ApiContract
