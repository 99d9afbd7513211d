import ApiContract.Pattern.Basic
/-!
# Where a pattern matches

The positions where a match can end, part by part: one thing after another, one character, characters
that are repeated, and a part that may be left out.
-/

namespace ApiContract

namespace CharClass

/-! ## Classes -/

theorem holds_single_iff {c d : Char} : (single c).holds d.toNat = true ↔ d = c := by
  rw [single, holds, Bool.and_eq_true, decide_eq_true_eq, decide_eq_true_eq]
  constructor
  · rintro ⟨hle, hge⟩
    exact Char.toNat_inj.mp (Nat.le_antisymm hge hle)
  · rintro rfl
    exact ⟨Nat.le_refl _, Nat.le_refl _⟩

theorem holds_other_iff {c d : Char} :
    (compl (.union .none (.single c))).holds d.toNat = true ↔ d ≠ c := by
  rw [holds, holds, holds, Bool.false_or, Bool.not_eq_true', ← Bool.not_eq_true, holds_single_iff]

end CharClass

namespace Pattern

variable {text : Array Char} {i j : Nat}

/-! ## Sets of positions -/

theorem mem_fresh {p : Nat} {seen ps : List Nat} : p ∈ fresh seen ps ↔ p ∈ ps ∧ p ∉ seen := by
  induction ps generalizing seen with
  | nil => simp [fresh]
  | cons q ps ih =>
    unfold fresh
    by_cases hq : q ∈ seen
    · rw [if_pos (List.contains_iff_mem.mpr hq), ih, List.mem_cons]
      constructor
      · rintro ⟨hp, hseen⟩
        exact ⟨Or.inr hp, hseen⟩
      · rintro ⟨rfl | hp, hseen⟩
        · exact absurd hq hseen
        · exact ⟨hp, hseen⟩
    · rw [if_neg (mt List.contains_iff_mem.mp hq), List.mem_cons, ih, List.mem_cons, List.mem_cons,
        not_or]
      constructor
      · rintro (rfl | ⟨hp, -, hseen⟩)
        · exact ⟨Or.inl rfl, hq⟩
        · exact ⟨Or.inr hp, hseen⟩
      · rintro ⟨hp, hseen⟩
        by_cases hpq : p = q
        · exact Or.inl hpq
        · exact Or.inr ⟨hp.resolve_left hpq, hpq, hseen⟩

/-- Whether so many steps lead from one position to another. -/
def Walks (step : Nat → List Nat) : Nat → Nat → Nat → Prop
  | 0, i, j => i = j
  | n + 1, i, j => ∃ k ∈ step i, Walks step n k j

variable {step : Nat → List Nat}

/-- What is found can be walked to. -/
theorem exists_walks_of_mem_reach {n : Nat} {seen last : List Nat} (hlast : last ⊆ seen)
    (h : j ∈ reach step n seen last) : ∃ p ∈ seen, ∃ m, Walks step m p j := by
  induction n generalizing seen last with
  | zero => exact ⟨j, h, 0, rfl⟩
  | succ n ih =>
    unfold reach at h
    split at h
    · exact ⟨j, h, 0, rfl⟩
    · obtain ⟨p, hp, m, hwalk⟩ := ih (List.subset_append_right _ _) h
      rcases List.mem_append.mp hp with hp | hp
      · exact ⟨p, hp, m, hwalk⟩
      · obtain ⟨q, hq, hpq⟩ := List.mem_flatMap.mp (mem_fresh.mp hp).1
        exact ⟨q, hlast hq, m + 1, p, hpq, hwalk⟩

/-- What can be walked to in so many steps is found in so many, if all that was found before the last
positions has its steps among what was found. -/
theorem mem_reach_of_walks {m n p : Nat} {seen last : List Nat}
    (hclosed : ∀ q ∈ seen, q ∉ last → step q ⊆ seen) (hp : p ∈ seen) (h : Walks step m p j)
    (hmn : m ≤ n) : j ∈ reach step n seen last := by
  induction n generalizing m p seen last with
  | zero =>
    obtain rfl : m = 0 := by omega
    cases h
    exact hp
  | succ n ih =>
    -- the steps from what was found are found with the next positions
    have hnext : ∀ q ∈ seen, step q ⊆ seen ++ fresh seen (last.flatMap step) := by
      intro q hq r hr
      by_cases hrs : r ∈ seen
      · exact List.mem_append_left _ hrs
      · by_cases hql : q ∈ last
        · exact List.mem_append_right _ (mem_fresh.mpr ⟨List.mem_flatMap.mpr ⟨q, hql, hr⟩, hrs⟩)
        · exact absurd (hclosed q hq hql hr) hrs
    unfold reach
    split
    · next hnone =>
      rw [hnone, List.append_nil] at hnext
      clear ih hclosed hmn
      induction m generalizing p with
      | zero =>
        cases h
        exact hp
      | succ m ihm =>
        obtain ⟨q, hq, h⟩ := h
        exact ihm (hnext p hp hq) h
    · cases m with
      | zero =>
        cases h
        refine ih (m := 0) ?_ (List.mem_append_left _ hp) rfl (Nat.zero_le n)
        intro q hq hql
        exact hnext q ((List.mem_append.mp hq).resolve_right hql)
      | succ m =>
        obtain ⟨q, hq, h⟩ := h
        refine ih ?_ (hnext p hp hq) h (by omega)
        intro q hq hql
        exact hnext q ((List.mem_append.mp hq).resolve_right hql)

/-! ## Parts -/

theorem mem_ends_empty : j ∈ ends text .empty i ↔ j = i := List.mem_singleton

theorem mem_ends_atStart : j ∈ ends text (.atStart false) i ↔ i = 0 ∧ j = i := by
  unfold ends
  by_cases h : i = 0 <;> simp [h]

theorem mem_ends_atEnd : j ∈ ends text (.atEnd false) i ↔ i = text.size ∧ j = i := by
  unfold ends
  by_cases h : i = text.size <;> simp [h]

theorem mem_ends_seq {a b : Pattern} :
    j ∈ ends text (.seq a b) i ↔ ∃ k ∈ ends text a i, j ∈ ends text b k := by
  rw [ends, mem_fresh, List.mem_flatMap]
  simp

theorem mem_ends_one {chars : CharClass} :
    j ∈ ends text (.one chars false) i ↔
      ∃ c, text[i]? = some c ∧ chars.holds c.toNat = true ∧ j = i + 1 := by
  unfold ends
  cases hc : text[i]? with
  | none => simp
  | some c =>
    simp only [Bool.false_eq_true, if_false, Option.some.injEq]
    by_cases h : chars.holds c.toNat = true <;> simp [h]

/-- A part that may be left out. -/
theorem mem_ends_optional {a : Pattern} :
    j ∈ ends text (.rep a 0 (some 1)) i ↔ j = i ∨ j ∈ ends text a i := by
  show j ∈ reach (ends text a) 1 [i] [i] ↔ _
  constructor
  · intro h
    unfold reach at h
    split at h
    · exact Or.inl (List.mem_singleton.mp h)
    · rcases List.mem_append.mp h with h | h
      · exact Or.inl (List.mem_singleton.mp h)
      · have hstep := (mem_fresh.mp h).1
        simp only [List.flatMap_cons, List.flatMap_nil, List.append_nil] at hstep
        exact Or.inr hstep
  · have hclosed : ∀ q ∈ [i], q ∉ [i] → ends text a q ⊆ [i] := fun q hq hnot => absurd hq hnot
    rintro (rfl | h)
    · exact mem_reach_of_walks (m := 0) hclosed List.mem_cons_self rfl (Nat.zero_le 1)
    · exact mem_reach_of_walks (m := 1) hclosed List.mem_cons_self ⟨j, h, rfl⟩ (Nat.le_refl 1)

/-- Steps over characters of a class go from one to the next. -/
theorem walks_one_iff {chars : CharClass} {n : Nat} :
    Walks (ends text (.one chars false)) n i j ↔
      j = i + n ∧ ∀ k, i ≤ k → k < j → ∃ c, text[k]? = some c ∧ chars.holds c.toNat = true := by
  induction n generalizing i with
  | zero =>
    constructor
    · intro h
      cases h
      exact ⟨rfl, fun k hik hki => by omega⟩
    · rintro ⟨rfl, -⟩
      exact rfl
  | succ n ih =>
    constructor
    · rintro ⟨k, hk, hwalk⟩
      obtain ⟨c, hc, hholds, rfl⟩ := mem_ends_one.mp hk
      obtain ⟨rfl, hall⟩ := ih.mp hwalk
      refine ⟨by omega, fun k hik hkj => ?_⟩
      by_cases hki : k = i
      · exact hki ▸ ⟨c, hc, hholds⟩
      · exact hall k (by omega) hkj
    · rintro ⟨rfl, hall⟩
      obtain ⟨c, hc, hholds⟩ := hall i (Nat.le_refl i) (by omega)
      refine ⟨i + 1, mem_ends_one.mpr ⟨c, hc, hholds, rfl⟩, ih.mpr ⟨by omega, fun k hik hkj => ?_⟩⟩
      exact hall k (by omega) hkj

/-- Characters of a class, at least one. -/
theorem mem_ends_many {chars : CharClass} :
    j ∈ ends text (.rep (.one chars false) 1 none) i ↔
      i < j ∧ ∀ k, i ≤ k → k < j → ∃ c, text[k]? = some c ∧ chars.holds c.toNat = true := by
  let step := ends text (.one chars false)
  have hfirst : ∀ k, k ∈ iterate step 1 [i] ↔ k ∈ step i := by
    intro k
    show k ∈ fresh [] (step i ++ []) ↔ _
    rw [mem_fresh, List.append_nil]
    simp
  show j ∈ reach step (text.size + 1) (iterate step 1 [i]) (iterate step 1 [i]) ↔ _
  constructor
  · intro h
    obtain ⟨p, hp, m, hwalk⟩ := exists_walks_of_mem_reach (List.Subset.refl _) h
    have hwhole : Walks step (m + 1) i j := ⟨p, (hfirst p).mp hp, hwalk⟩
    obtain ⟨hj, hall⟩ := walks_one_iff.mp hwhole
    exact ⟨by omega, hall⟩
  · rintro ⟨hij, hall⟩
    -- no walk over the text is longer than the text, and so many steps are taken
    have hsize : j ≤ text.size := by
      obtain ⟨c, hc, -⟩ := hall (j - 1) (by omega) (by omega)
      obtain ⟨hlt, -⟩ := Array.getElem?_eq_some_iff.mp hc
      omega
    obtain ⟨m, rfl⟩ : ∃ m, j = i + (m + 1) := ⟨j - i - 1, by omega⟩
    obtain ⟨p, hp, hwalk⟩ := walks_one_iff.mpr ⟨rfl, hall⟩
    exact mem_reach_of_walks (fun q hq hnot => absurd hq hnot) ((hfirst p).mpr hp) hwalk (by omega)

/-! ## Texts -/

theorem occursIn_iff {a : Pattern} {text : String} :
    a.occursIn text = true ↔ ∃ i ≤ text.toList.length, ∃ j, j ∈ ends text.toList.toArray a i := by
  unfold occursIn
  simp only [List.any_eq_true, List.mem_range, List.size_toArray, Bool.not_eq_true',
    List.isEmpty_eq_false_iff_exists_mem, Nat.lt_succ_iff]

end Pattern

end ApiContract
