import ApiContract.Proofs.Numeral.Decimal
import ApiContract.Proofs.Numeral.Shortest
/-!
# Texts of doubles

Each layout writes the shortest decimal of a double and nothing else. Since that decimal rounds to one
double only, the text of a double tells it, in every layout.
-/

namespace ApiContract

namespace Decimal

/-- What a decimal is worth, without its sign. -/
def magnitude (d : Decimal) : ℚ := d.digits * 10 ^ d.exponent

/-- Whether a text without a sign is read as a decimal worth a number, also behind a sign. -/
def Spells (cs : List Char) (q : ℚ) : Prop :=
  ∀ negative, ∃ d, read? (signed negative cs) = some d ∧ d.negative = negative ∧ d.magnitude = q

/-- Digits, more digits behind a point, and an exponent spell what they are worth together. -/
theorem spells_written {whole part tail : List Char} {e : Int} (hwhole : AreDigits whole)
    (hne : whole ≠ []) (hpart : AreDigits part) (htail : Scales e tail) :
    Spells (whole ++ (pointed part ++ tail)) (ofDigits (whole ++ part) * 10 ^ (e - part.length)) :=
  fun negative => ⟨_, read?_written negative hwhole hne hpart htail, rfl, rfl⟩

theorem spells_whole {whole : List Char} (hwhole : AreDigits whole) (hne : whole ≠ []) :
    Spells whole (ofDigits whole) := by
  have h := spells_written hwhole hne AreDigits.nil scales_nil
  simpa [pointed] using h

theorem spells_point {whole part : List Char} (hwhole : AreDigits whole) (hne : whole ≠ [])
    (hpart : AreDigits part) (hne' : part ≠ []) :
    Spells (whole ++ '.' :: part) (ofDigits (whole ++ part) * 10 ^ (-(part.length : ℤ))) := by
  have h := spells_written hwhole hne hpart scales_nil
  cases part with
  | nil => exact absurd rfl hne'
  | cons d ds =>
    rw [List.append_nil, zero_sub] at h
    exact h

/-- A number is told by its sign and what it is worth. -/
theorem Spells.eq_of_signed_eq {cs ds : List Char} {p q : ℚ} {a b : Bool} (hcs : Spells cs p)
    (hds : Spells ds q) (h : signed a cs = signed b ds) : a = b ∧ p = q := by
  obtain ⟨d, hd, ha, hp⟩ := hcs a
  obtain ⟨d', hd', hb, hq⟩ := hds b
  rw [h, hd'] at hd
  cases hd
  exact ⟨ha.symm.trans hb, hp.symm.trans hq⟩

end Decimal

namespace Binary64

open Decimal

variable {x y : Binary64}

/-! ## Layouts -/

/-- Zeros behind the digits of a number, with or without a point. -/
theorem spells_zeros_behind (pointZero : Bool) (d n : Nat) :
    Spells (Nat.toDigits 10 d ++ List.replicate n '0' ++ (if pointZero then ['.', '0'] else []))
      (d * 10 ^ n) := by
  have hwhole := (AreDigits.toDigits d).append (AreDigits.zeros n)
  have hne : Nat.toDigits 10 d ++ List.replicate n '0' ≠ [] :=
    List.append_ne_nil_of_left_ne_nil Nat.toDigits_ne_nil _
  have hvalue : (ofDigits (Nat.toDigits 10 d ++ List.replicate n '0') : ℚ) = d * 10 ^ n := by
    rw [ofDigits_append_zeros, ofDigits_toDigits, pow10_eq]
    push_cast
    rfl
  cases pointZero with
  | false =>
    rw [← hvalue, if_neg Bool.false_ne_true, List.append_nil]
    exact spells_whole hwhole hne
  | true =>
    have hpoint := spells_point hwhole hne (AreDigits.zeros 1) (by simp)
    rw [ofDigits_append_zeros, Nat.cast_mul, hvalue, pow10_eq] at hpoint
    simpa using hpoint

/-- A point among the digits of a number. -/
theorem spells_point_among {d n : Nat} (hn : n ≠ 0) (hlen : n < (Nat.toDigits 10 d).length) :
    Spells ((Nat.toDigits 10 d).take ((Nat.toDigits 10 d).length - n) ++
      '.' :: (Nat.toDigits 10 d).drop ((Nat.toDigits 10 d).length - n)) (d * 10 ^ (-(n : ℤ))) := by
  generalize hk : (Nat.toDigits 10 d).length - n = k
  have hlength : ((Nat.toDigits 10 d).drop k).length = n := by
    rw [List.length_drop]
    omega
  have htake : 0 < ((Nat.toDigits 10 d).take k).length := by
    rw [List.length_take]
    omega
  have hpoint := spells_point ((AreDigits.toDigits d).take k) (List.ne_nil_of_length_pos htake)
    ((AreDigits.toDigits d).drop k) (List.ne_nil_of_length_pos (by omega))
  rw [List.take_append_drop, ofDigits_toDigits, hlength] at hpoint
  exact hpoint

/-- Zeros between the point and the digits of a number. -/
theorem spells_zeros_before {d n : Nat} (hn : n ≠ 0) (hlen : (Nat.toDigits 10 d).length ≤ n) :
    Spells ('0' :: '.' :: (List.replicate (n - (Nat.toDigits 10 d).length) '0' ++ Nat.toDigits 10 d))
      (d * 10 ^ (-(n : ℤ))) := by
  generalize hk : n - (Nat.toDigits 10 d).length = k
  have hlength : (List.replicate k '0' ++ Nat.toDigits 10 d).length = n := by
    rw [List.length_append, List.length_replicate]
    omega
  have hpoint := spells_point (AreDigits.zeros 1) (by simp)
    ((AreDigits.zeros k).append (AreDigits.toDigits d)) (List.ne_nil_of_length_pos (by omega))
  rw [ofDigits_zeros_append, ofDigits_zeros_append, ofDigits_toDigits, hlength] at hpoint
  exact hpoint

/-- The digits of a number, with a power of ten that is written as zeros or by the place of the
point. -/
theorem spells_layPositional (pointZero : Bool) (d : Nat) (e : Int) :
    Spells (layPositional pointZero (Nat.toDigits 10 d) e) (d * 10 ^ e) := by
  unfold layPositional
  by_cases he : 0 ≤ e
  · obtain ⟨n, rfl⟩ := Int.eq_ofNat_of_zero_le he
    rw [if_pos he, zpow_natCast]
    exact spells_zeros_behind pointZero d n
  · obtain ⟨n, rfl⟩ : ∃ n : Nat, e = -(n : ℤ) := ⟨(-e).toNat, by omega⟩
    have hplaces : (-(-(n : ℤ))).toNat = n := by omega
    rw [if_neg he]
    simp only [hplaces]
    split
    · next hlen => exact spells_point_among (by omega) hlen
    · next hlen => exact spells_zeros_before (by omega) (by omega)

/-- The exponent behind its mark. -/
theorem readExponent_written (plusSign : Bool) (top : Int) :
    readExponent ((if top < 0 then ['-'] else if plusSign then ['+'] else []) ++
      Nat.toDigits 10 top.natAbs) = some top := by
  show readInt? _ = _
  by_cases htop : top < 0
  · have habs : top = -(top.natAbs : Int) := by omega
    rw [if_pos htop, List.singleton_append, readInt?_of_splitSign rfl, if_pos rfl, ← habs]
  · have habs : top = top.natAbs := by omega
    rw [if_neg htop]
    cases plusSign with
    | false =>
      show readInt? (Nat.toDigits 10 top.natAbs) = _
      rw [readInt?_of_splitSign (splitSign_toDigits _), if_neg Bool.false_ne_true, ← habs]
    | true =>
      show readInt? ('+' :: Nat.toDigits 10 top.natAbs) = _
      rw [readInt?_of_splitSign rfl, if_neg Bool.false_ne_true, ← habs]

/-- One digit before the point, the others behind it, and an exponent. -/
theorem spells_layScientific (plusSign : Bool) (d : Nat) (e : Int) :
    Spells (layScientific plusSign (Nat.toDigits 10 d) (e + (Nat.toDigits 10 d).length - 1))
      (d * 10 ^ e) := by
  have hdigits := AreDigits.toDigits d
  generalize htop : e + (Nat.toDigits 10 d).length - 1 = top
  have hscales : Scales top ('e' :: ((if top < 0 then ['-'] else if plusSign then ['+'] else []) ++
      Nat.toDigits 10 top.natAbs)) :=
    Or.inr ⟨_, rfl, readExponent_written plusSign top⟩
  cases hd : Nat.toDigits 10 d with
  | nil => exact absurd hd Nat.toDigits_ne_nil
  | cons c more =>
    have hvalue : ofDigits ([c] ++ more) = d := by
      rw [List.singleton_append, ← hd, ofDigits_toDigits]
    have hexponent : top - more.length = e := by
      rw [hd, List.length_cons] at htop
      omega
    rw [hd] at hdigits
    have h := spells_written (hdigits.take 1) (by simp) (hdigits.drop 1) hscales
    simp only [List.take_succ_cons, List.take_zero, List.drop_succ_cons, List.drop_zero, hvalue,
      hexponent] at h
    unfold layScientific
    cases more with
    | nil => simpa [pointed] using h
    | cons c' more => simpa [pointed] using h

/-! ## The text of a double -/

/-- The digits of the shortest decimal. -/
def digits (tieUp : Bool) (x : Binary64) : List Char := Nat.toDigits 10 (x.shortest tieUp).1

/-- A double is written in one of the two layouts, behind its sign. -/
theorem toList_render (layout : FloatLayout) (x : Binary64) :
    (x.render layout).toList =
        signed x.negative (layPositional layout.pointZero (x.digits layout.tieUp)
          (x.shortest layout.tieUp).2) ∨
      (x.render layout).toList =
        signed x.negative (layScientific layout.plusSign (x.digits layout.tieUp)
          ((x.shortest layout.tieUp).2 + (x.digits layout.tieUp).length - 1)) := by
  have hcases : ∀ (plain : Bool) (as bs : List Char),
      signed x.negative (if plain then as else bs) = signed x.negative as ∨
        signed x.negative (if plain then as else bs) = signed x.negative bs := by
    intro plain as bs
    cases plain with
    | true => exact Or.inl rfl
    | false => exact Or.inr rfl
  unfold render
  rw [String.toList_ofList]
  exact hcases _ _ _

/-- **The text of a double spells its shortest decimal.** -/
theorem render_eq (layout : FloatLayout) (x : Binary64) :
    ∃ cs, (x.render layout).toList = signed x.negative cs ∧
      Spells cs (x.shortestValue layout.tieUp) := by
  rcases toList_render layout x with h | h
  · exact ⟨_, h, spells_layPositional _ _ _⟩
  · exact ⟨_, h, spells_layScientific _ _ _⟩

theorem mem_signed {c : Char} {cs : List Char} (negative : Bool) (h : c ∈ cs) :
    c ∈ signed negative cs := by
  cases negative with
  | true => exact List.mem_cons_of_mem _ h
  | false => exact h

theorem point_mem_layPositional (ds : List Char) (e : Int) : '.' ∈ layPositional true ds e := by
  unfold layPositional
  simp only
  split
  · simp
  split
  · simp
  · simp

/-- A layout that ends whole numbers in a point and a zero writes no double as an integer. -/
theorem readInt?_render {layout : FloatLayout} (hzero : layout.pointZero = true) (x : Binary64) :
    readInt? (x.render layout).toList = none := by
  rcases toList_render layout x with h | h
  · rw [h, hzero]
    exact readInt?_eq_none_of_mem (mem_signed _ (point_mem_layPositional _ _)) (by decide)
      (by decide) (by decide)
  · have hmark : 'e' ∈ layScientific layout.plusSign (x.digits layout.tieUp)
        ((x.shortest layout.tieUp).2 + (x.digits layout.tieUp).length - 1) := by
      simp [layScientific]
    rw [h]
    exact readInt?_eq_none_of_mem (mem_signed _ hmark) (by decide) (by decide) (by decide)

/-- **No two doubles have one text, in any layout.** -/
theorem render_injective (layout : FloatLayout) (hx : x.IsCanonical) (hy : y.IsCanonical)
    (h : x.render layout = y.render layout) : x = y := by
  obtain ⟨cs, hcs, hp⟩ := render_eq layout x
  obtain ⟨ds, hds, hq⟩ := render_eq layout y
  have htext : signed x.negative cs = signed y.negative ds := by rw [← hcs, ← hds, h]
  obtain ⟨hsign, hvalue⟩ := hp.eq_of_signed_eq hq htext
  obtain ⟨hmantissa, hexponent⟩ := eq_of_shortestValue_eq hx hy hvalue
  cases x
  cases y
  cases hsign
  cases hmantissa
  cases hexponent
  rfl

end Binary64

end ApiContract
