import ApiContract.Numeral.Shortest
import Mathlib.Algebra.Order.Field.Power
import Mathlib.Data.Rat.Cast.Order
import Mathlib.Tactic.Linarith
import Mathlib.Tactic.NormNum
import Mathlib.Tactic.Positivity
import Mathlib.Tactic.Ring
/-!
# Doubles and the numbers that round to them

A double has a normal form. The numbers that round to it lie between the middles to its neighbours, ends
included where its mantissa is even. No number rounds to two doubles.
-/

namespace ApiContract

/-! ## Powers with any exponent -/

theorem pow2_eq (k : Nat) : pow2 k = 2 ^ k := rfl

theorem pow10_eq (k : Nat) : pow10 k = 10 ^ k := rfl

/-- A power is told by two whole numbers, one of which is one. -/
theorem pow_toNat {b : ℚ} (hb : b ≠ 0) (k : ℤ) : b ^ k.toNat = b ^ k * b ^ (-k).toNat := by
  rcases le_total 0 k with hk | hk
  · have hneg : (-k).toNat = 0 := by omega
    rw [hneg, pow_zero, mul_one, ← zpow_natCast, Int.toNat_of_nonneg hk]
  · have hpos : k.toNat = 0 := by omega
    rw [hpos, pow_zero, ← zpow_natCast, Int.toNat_of_nonneg (by omega), ← zpow_add₀ hb,
      add_neg_cancel, zpow_zero]

theorem pow2_toNat (k : ℤ) : (pow2 k.toNat : ℚ) = 2 ^ k * pow2 (-k).toNat := by
  rw [pow2_eq, pow2_eq]
  push_cast
  exact pow_toNat two_ne_zero k

theorem pow10_toNat (k : ℤ) : (pow10 k.toNat : ℚ) = 10 ^ k * pow10 (-k).toNat := by
  rw [pow10_eq, pow10_eq]
  push_cast
  exact pow_toNat (by norm_num) k

theorem pow2_pos (k : Nat) : 0 < pow2 k := Nat.two_pow_pos k

theorem pow10_pos (k : Nat) : 0 < pow10 k := Nat.pow_pos (by decide)

namespace Binary64

variable {x y : Binary64} {q : ℚ}

/-! ## The normal form -/

/-- Whether a double is in normal form: all bits of the mantissa are used, unless the exponent is the
least. -/
structure IsCanonical (x : Binary64) : Prop where
  mantissa_lt : x.mantissa < 2 ^ 53
  le_exponent : -1074 ≤ x.exponent
  exponent_le : x.exponent ≤ 971
  full : x.exponent = -1074 ∨ 2 ^ 52 ≤ x.mantissa

instance (x : Binary64) : Decidable x.IsCanonical :=
  decidable_of_iff (x.mantissa < 2 ^ 53 ∧ -1074 ≤ x.exponent ∧ x.exponent ≤ 971 ∧
      (x.exponent = -1074 ∨ 2 ^ 52 ≤ x.mantissa))
    ⟨fun h => ⟨h.1, h.2.1, h.2.2.1, h.2.2.2⟩,
      fun h => ⟨h.mantissa_lt, h.le_exponent, h.exponent_le, h.full⟩⟩

/-! ## Magnitudes -/

/-- What a double stands for, without its sign. -/
def magnitude (x : Binary64) : ℚ := x.mantissa * 2 ^ x.exponent

theorem ratio_pos (x : Binary64) : 0 < x.ratio.2 := pow2_pos _

theorem ratio_eq (x : Binary64) : (x.ratio.1 : ℚ) = x.magnitude * x.ratio.2 := by
  unfold ratio magnitude
  push_cast
  rw [pow2_toNat]
  ring

/-! ## What rounds to a double -/

/-- Whether the neighbour below is only half as far as the one above. -/
def IsNarrow (x : Binary64) : Prop := x.mantissa = 2 ^ 52 ∧ -1074 < x.exponent

instance (x : Binary64) : Decidable x.IsNarrow := inferInstanceAs (Decidable (_ ∧ _))

/-- Four times the mantissa of the middle to the neighbour below. -/
def lowMantissa (x : Binary64) : Nat := 4 * x.mantissa - if x.IsNarrow then 1 else 2

/-- The middle to the neighbour below. -/
def low (x : Binary64) : ℚ := x.lowMantissa * 2 ^ (x.exponent - 2)

/-- The middle to the neighbour above. -/
def high (x : Binary64) : ℚ := ((4 * x.mantissa + 2 : Nat) : ℚ) * 2 ^ (x.exponent - 2)

/-- Whether a number rounds to the magnitude of a double. -/
structure Rounds (x : Binary64) (q : ℚ) : Prop where
  lower : x.low < q ∨ x.mantissa % 2 = 0 ∧ q = x.low
  upper : q < x.high ∨ x.mantissa % 2 = 0 ∧ q = x.high

theorem Rounds.low_le (h : x.Rounds q) : x.low ≤ q := by
  rcases h.lower with h | ⟨-, h⟩
  · exact h.le
  · exact h.ge

theorem Rounds.le_high (h : x.Rounds q) : q ≤ x.high := by
  rcases h.upper with h | ⟨-, h⟩
  · exact h.le
  · exact h.le

theorem lowMantissa_cases (x : Binary64) :
    x.IsNarrow ∧ x.lowMantissa = 4 * x.mantissa - 1 ∨
      ¬ x.IsNarrow ∧ x.lowMantissa = 4 * x.mantissa - 2 := by
  by_cases h : x.IsNarrow
  · exact Or.inl ⟨h, by rw [lowMantissa, if_pos h]⟩
  · exact Or.inr ⟨h, by rw [lowMantissa, if_neg h]⟩

theorem two_le_lowMantissa (h : x.mantissa ≠ 0) : 2 ≤ x.lowMantissa := by
  rcases lowMantissa_cases x with ⟨-, h⟩ | ⟨-, h⟩ <;> omega

/-- What rounds to a double other than zero is positive. -/
theorem Rounds.pos (h : x.Rounds q) (hx : x.mantissa ≠ 0) : 0 < q := by
  have hlow : (2 : ℚ) ≤ x.lowMantissa := by exact_mod_cast two_le_lowMantissa hx
  have hpos : 0 < x.low := by
    unfold low
    positivity
  exact lt_of_lt_of_le hpos h.low_le

/-! ### The order of doubles -/

/-- Whether one double has less magnitude than another, in normal form. -/
def Below (x y : Binary64) : Prop :=
  x.exponent < y.exponent ∨ x.exponent = y.exponent ∧ x.mantissa < y.mantissa

/-- Where one double is below another, the middles on their sides are in order too; where they are one
number, one of the mantissas is odd. -/
theorem Below.high_le_low (h : x.Below y) (hx : x.IsCanonical) (hy : y.IsCanonical) :
    x.high ≤ y.low ∧ (x.high = y.low → x.mantissa % 2 = 1 ∨ y.mantissa % 2 = 1) := by
  unfold high low
  have hunit : (0 : ℚ) < 2 ^ (x.exponent - 2) := by positivity
  rcases h with hexponent | ⟨hexponent, hmantissa⟩
  · -- the mantissa above is full, and a unit there is at least two units below
    have hfull : 2 ^ 52 ≤ y.mantissa := by
      have := hx.le_exponent
      rcases hy.full with h | h
      · omega
      · exact h
    have hlt := hx.mantissa_lt
    have hlow : 2 ^ 54 - 1 ≤ y.lowMantissa := by
      have := hx.le_exponent
      rcases lowMantissa_cases y with ⟨-, hy⟩ | ⟨hnarrow, hy⟩
      · omega
      · unfold IsNarrow at hnarrow
        omega
    have hstep : (2 : ℚ) * 2 ^ (x.exponent - 2) ≤ 2 ^ (y.exponent - 2) := by
      rw [← zpow_one_add₀ two_ne_zero]
      exact zpow_le_zpow_right₀ (by norm_num) (by omega)
    have hnat : 4 * x.mantissa + 2 ≤ 2 * y.lowMantissa := by omega
    have hcast : ((4 * x.mantissa + 2 : Nat) : ℚ) ≤ 2 * y.lowMantissa := by exact_mod_cast hnat
    have hle : (y.lowMantissa : ℚ) * (2 * 2 ^ (x.exponent - 2)) ≤
        y.lowMantissa * 2 ^ (y.exponent - 2) := by gcongr
    constructor
    · calc ((4 * x.mantissa + 2 : Nat) : ℚ) * 2 ^ (x.exponent - 2)
          ≤ 2 * y.lowMantissa * 2 ^ (x.exponent - 2) := by gcongr
        _ = y.lowMantissa * (2 * 2 ^ (x.exponent - 2)) := by ring
        _ ≤ y.lowMantissa * 2 ^ (y.exponent - 2) := hle
    · intro heq
      left
      by_contra heven
      have hstrict : 4 * x.mantissa + 2 < 2 * y.lowMantissa := by omega
      have hstrict' : ((4 * x.mantissa + 2 : Nat) : ℚ) < 2 * y.lowMantissa := by
        exact_mod_cast hstrict
      have hlt : ((4 * x.mantissa + 2 : Nat) : ℚ) * 2 ^ (x.exponent - 2) <
          2 * y.lowMantissa * 2 ^ (x.exponent - 2) := by gcongr
      linarith
  · rw [← hexponent]
    have hnat : 4 * x.mantissa + 2 ≤ y.lowMantissa := by
      rcases lowMantissa_cases y with ⟨-, hy⟩ | ⟨-, hy⟩ <;> omega
    constructor
    · have hcast : ((4 * x.mantissa + 2 : Nat) : ℚ) ≤ y.lowMantissa := by exact_mod_cast hnat
      gcongr
    · intro heq
      have hmantissas := mul_right_cancel₀ hunit.ne' heq
      have hnat' : 4 * x.mantissa + 2 = y.lowMantissa := by exact_mod_cast hmantissas
      rcases lowMantissa_cases y with ⟨-, hy⟩ | ⟨-, hy⟩ <;> omega

/-- No number rounds to two doubles of which one is below the other. -/
theorem Below.not_rounds (h : x.Below y) (hx : x.IsCanonical) (hy : y.IsCanonical)
    (hxq : x.Rounds q) : ¬ y.Rounds q := by
  intro hyq
  obtain ⟨hle, hodd⟩ := h.high_le_low hx hy
  have hhigh : q = x.high := le_antisymm hxq.le_high (hle.trans hyq.low_le)
  have hlow : q = y.low := le_antisymm (hxq.le_high.trans hle) hyq.low_le
  have hxeven : x.mantissa % 2 = 0 := by
    rcases hxq.upper with h | ⟨h, -⟩
    · exact absurd hhigh h.ne
    · exact h
  have hyeven : y.mantissa % 2 = 0 := by
    rcases hyq.lower with h | ⟨h, -⟩
    · exact absurd hlow h.ne'
    · exact h
  rcases hodd (hhigh.symm.trans hlow) with h | h <;> omega

/-- **No number rounds to two doubles.** -/
theorem eq_of_rounds (hx : x.IsCanonical) (hy : y.IsCanonical) (hxq : x.Rounds q)
    (hyq : y.Rounds q) : x.mantissa = y.mantissa ∧ x.exponent = y.exponent := by
  have hxy : ¬ x.Below y := fun h => h.not_rounds hx hy hxq hyq
  have hyx : ¬ y.Below x := fun h => h.not_rounds hy hx hyq hxq
  unfold Below at hxy hyx
  omega

end Binary64

end ApiContract
