import ApiContract.Numeral.Decimal
import ApiContract.Proofs.Numeral.Shortest
/-!
# Rounded numbers are in normal form

A quotient is scaled so that it rounds to a mantissa of all bits, unless the exponent would be too small.
So what a decimal text is rounded to is in normal form.
-/

namespace ApiContract

namespace Binary64

variable {x : Binary64}

/-! ## Rounding to a whole number -/

/-- A whole number that is not above a quotient is not above what it rounds to. -/
theorem le_divEven {k num den : Nat} (hden : 0 < den) (h : k * den ≤ num) : k ≤ divEven num den := by
  have hq : k ≤ num / den := (Nat.le_div_iff_mul_le hden).mpr h
  unfold divEven
  simp only
  split
  · exact hq
  split
  · omega
  · omega

/-- A whole number that is above a quotient is not below what it rounds to. -/
theorem divEven_le {k num den : Nat} (hden : 0 < den) (h : num < k * den) : divEven num den ≤ k := by
  have hq : num / den < k := (Nat.div_lt_iff_lt_mul hden).mpr h
  unfold divEven
  simp only
  split
  · omega
  split
  · omega
  · have hmod : num / den % 2 < 2 := Nat.mod_lt _ (by decide)
    omega

/-! ## Rounding to a double -/

theorem isCanonical_zero (negative : Bool) : (zero negative).IsCanonical where
  mantissa_lt := Nat.two_pow_pos 53
  le_exponent := le_rfl
  exponent_le := by show (-1074 : Int) ≤ 971; omega
  full := Or.inl rfl

/-- The unit in which a quotient is rounded. -/
def lastPlace (num den : Nat) : Int := max (log2Ratio num den - 52) (-1074)

/-- How many of these units a quotient rounds to. -/
def units (num den : Nat) : Nat :=
  divEven (num * pow2 (-lastPlace num den).toNat) (den * pow2 (lastPlace num den).toNat)

/-- A quotient is compared with a number of units on whole numbers. -/
theorem lt_units_iff (k num den : Nat) (last : Int) :
    num * pow2 (-last).toNat < k * (den * pow2 last.toNat) ↔ (num : ℚ) < k * 2 ^ last * den := by
  have hfactor : (0 : ℚ) < pow2 (-last).toNat := by exact_mod_cast pow2_pos _
  have hscaled : ((k * (den * pow2 last.toNat) : Nat) : ℚ) =
      k * 2 ^ last * den * pow2 (-last).toNat := by
    push_cast
    rw [pow2_toNat]
    ring
  rw [← mul_lt_mul_iff_left₀ hfactor, ← hscaled]
  exact_mod_cast Iff.rfl

/-- The units of a quotient are at most as many as a full mantissa can count, and unless the exponent is
the least, they need all its bits. -/
theorem units_bounds {num den : Nat} (hnum : num ≠ 0) (hden : den ≠ 0) :
    units num den ≤ 2 ^ 53 ∧ (lastPlace num den = -1074 ∨ 2 ^ 52 ≤ units num den) := by
  obtain ⟨hlow, hhigh⟩ := log2Ratio_bounds hnum hden
  have hscaled : 0 < den * pow2 (lastPlace num den).toNat :=
    Nat.mul_pos (Nat.pos_of_ne_zero hden) (pow2_pos _)
  have hpower : ∀ n : Nat, ((2 ^ n : Nat) : ℚ) * 2 ^ lastPlace num den = 2 ^ (n + lastPlace num den) := by
    intro n
    rw [zpow_add₀ two_ne_zero, zpow_natCast, Nat.cast_pow, Nat.cast_ofNat]
  constructor
  · have hle : log2Ratio num den + 1 ≤ (53 : Nat) + lastPlace num den := by
      unfold lastPlace
      omega
    have hlt : (num : ℚ) < (2 ^ 53 : Nat) * 2 ^ lastPlace num den * den := by
      rw [hpower]
      refine hhigh.trans_le (mul_le_mul_of_nonneg_right ?_ (Nat.cast_nonneg den))
      exact zpow_le_zpow_right₀ one_le_two hle
    exact divEven_le hscaled ((lt_units_iff _ num den _).mpr hlt)
  · by_cases hleast : lastPlace num den = -1074
    · exact Or.inl hleast
    · right
      have heq : log2Ratio num den = (52 : Nat) + lastPlace num den := by
        unfold lastPlace at hleast ⊢
        omega
      have hle : ((2 ^ 52 : Nat) : ℚ) * 2 ^ lastPlace num den * den ≤ num := by
        rw [hpower, ← heq]
        exact hlow
      exact le_divEven hscaled (not_lt.mp fun h => hle.not_gt ((lt_units_iff _ num den _).mp h))

/-- **What a quotient is rounded to is in normal form.** -/
theorem isCanonical_of_ofRatio {negative : Bool} {num den : Nat} (hden : den ≠ 0)
    (h : ofRatio negative num den = some x) : x.IsCanonical := by
  unfold ofRatio at h
  by_cases hnum : num = 0
  · rw [if_pos hnum] at h
    cases h
    exact isCanonical_zero negative
  · rw [if_neg hnum] at h
    obtain ⟨hle, hfull⟩ := units_bounds hnum hden
    have hleast : -1074 ≤ lastPlace num den := le_max_right _ _
    extract_lets last m at h
    have hlast : last = lastPlace num den := rfl
    have hm : m = units num den := rfl
    by_cases hcarry : m = pow2 53
    · -- one unit more than a mantissa holds is the least full mantissa of the next exponent
      rw [if_pos hcarry] at h
      dsimp only at h
      split at h
      · cases h
      · next hrange =>
        cases h
        exact ⟨Nat.pow_lt_pow_right (by decide) (by decide), by show _ ≤ last + 1; omega,
          not_lt.mp hrange, Or.inr le_rfl⟩
    · rw [if_neg hcarry] at h
      dsimp only at h
      split at h
      · cases h
      · next hrange =>
        cases h
        exact ⟨lt_of_le_of_ne hle hcarry, hleast, not_lt.mp hrange, hfull⟩

end Binary64

namespace Decimal

/-- **What a decimal is rounded to is in normal form.** -/
theorem isCanonical_of_toBinary64 {d : Decimal} {x : Binary64} (h : d.toBinary64 = some x) :
    x.IsCanonical := by
  unfold toBinary64 at h
  simp only at h
  split at h
  · cases h
    exact Binary64.isCanonical_zero d.negative
  split at h
  · cases h
  · exact Binary64.isCanonical_of_ofRatio (pow10_pos _).ne' h

end Decimal

end ApiContract
