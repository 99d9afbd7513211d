import ApiContract.Proofs.Numeral.Canonical
/-!
# The shortest decimal rounds back

The search for digits tests decimals until one rounds to the double. With seventeen digits one of the two
next to a double always does, so the search finds digits, and they round to the double.
-/

namespace ApiContract

namespace Binary64

variable {x : Binary64}

/-! ## Comparing decimals and doubles -/

/-- Whole numbers that are multiples of two numbers are ordered as these are. -/
theorem compare_of_scaled {m n : Nat} {p q d : ℚ} (hd : 0 < d) (hm : (m : ℚ) = p * d)
    (hn : (n : ℚ) = q * d) : compare m n = compare p q := by
  have hlt : m < n ↔ p < q := by
    rw [← mul_lt_mul_iff_left₀ hd, ← hm, ← hn, Nat.cast_lt]
  have heq : m = n ↔ p = q := by
    rw [← mul_left_inj' hd.ne', ← hm, ← hn, Nat.cast_inj]
  rcases lt_trichotomy p q with h | h | h
  · rw [compare_lt_iff_lt.mpr h, compare_lt_iff_lt.mpr (hlt.mpr h)]
  · rw [compare_eq_iff_eq.mpr h, compare_eq_iff_eq.mpr (heq.mpr h)]
  · have hgt : n < m := by
      have hne : m ≠ n := fun h' => h.ne' (heq.mp h')
      have hnot : ¬ m < n := fun h' => h.asymm (hlt.mp h')
      omega
    rw [compare_gt_iff_gt.mpr h, compare_gt_iff_gt.mpr hgt]

theorem compareScaled_eq (a : Nat) (i : ℤ) (n : Nat) (j : ℤ) :
    compareScaled a i n j = compare ((a : ℚ) * 10 ^ i) (n * 2 ^ j) := by
  have hd : (0 : ℚ) < pow10 (-i).toNat * pow2 (-j).toNat := by
    have h10 := pow10_pos (-i).toNat
    have h2 := pow2_pos (-j).toNat
    positivity
  refine compare_of_scaled hd ?_ ?_
  · push_cast
    rw [pow10_toNat]
    ring
  · push_cast
    rw [pow2_toNat]
    ring

/-- The test of the search is whether a decimal rounds to the double. -/
theorem readsBack_iff (x : Binary64) (a : Nat) (i : ℤ) :
    x.readsBack a i = true ↔ x.Rounds ((a : ℚ) * 10 ^ i) := by
  have hnarrow : (x.mantissa == pow2 52 && decide (x.exponent > -1074)) = true ↔ x.IsNarrow := by
    simp [IsNarrow, pow2_eq]
  have hlow : (4 * x.mantissa - if x.mantissa == pow2 52 && decide (x.exponent > -1074) then 1 else 2) =
      x.lowMantissa := by
    rw [lowMantissa, if_congr hnarrow rfl rfl]
  unfold readsBack
  simp only [hlow, compareScaled_eq]
  rw [Bool.and_eq_true, Bool.or_eq_true, Bool.or_eq_true, Bool.and_eq_true, Bool.and_eq_true]
  simp only [beq_iff_eq, compare_gt_iff_gt, compare_lt_iff_lt, compare_eq_iff_eq]
  exact ⟨fun h => ⟨h.1, h.2⟩, fun h => ⟨h.lower, h.upper⟩⟩

/-! ## The decimals next to a double -/

/-- The digits of the last decimal that is not above a double, on the grid of a power of ten. -/
def floorAt (x : Binary64) (g : ℤ) : Nat :=
  x.ratio.1 * pow10 (-g).toNat / (x.ratio.2 * pow10 g.toNat)

theorem floorAt_bounds (x : Binary64) (g : ℤ) :
    (x.floorAt g : ℚ) * 10 ^ g ≤ x.magnitude ∧
      x.magnitude < ((x.floorAt g + 1 : Nat) : ℚ) * 10 ^ g := by
  have hbottom : 0 < x.ratio.2 * pow10 g.toNat := Nat.mul_pos x.ratio_pos (pow10_pos _)
  have hscale : (0 : ℚ) < x.ratio.2 * pow10 (-g).toNat := by
    exact_mod_cast Nat.mul_pos x.ratio_pos (pow10_pos _)
  have htop : ((x.ratio.1 * pow10 (-g).toNat : Nat) : ℚ) =
      x.magnitude * (x.ratio.2 * pow10 (-g).toNat) := by
    push_cast
    rw [ratio_eq]
    ring
  have hgrid : ((x.ratio.2 * pow10 g.toNat : Nat) : ℚ) =
      10 ^ g * (x.ratio.2 * pow10 (-g).toNat) := by
    push_cast
    rw [pow10_toNat]
    ring
  have hle : x.floorAt g * (x.ratio.2 * pow10 g.toNat) ≤ x.ratio.1 * pow10 (-g).toNat :=
    Nat.div_mul_le_self _ _
  have hlt : x.ratio.1 * pow10 (-g).toNat < (x.floorAt g + 1) * (x.ratio.2 * pow10 g.toNat) := by
    rw [Nat.mul_comm (x.floorAt g + 1)]
    exact Nat.lt_mul_div_succ _ hbottom
  constructor
  · refine le_of_mul_le_mul_right ?_ hscale
    rw [mul_assoc, ← hgrid, ← htop]
    exact_mod_cast hle
  · refine lt_of_mul_lt_mul_right ?_ hscale.le
    rw [mul_assoc, ← hgrid, ← htop]
    exact_mod_cast hlt

/-- The search takes a decimal next to the double that reads back, and where both do the nearer. -/
theorem exists_candidate_eq (tieUp : Bool) (x : Binary64) (k : ℤ) (n : Nat) :
    ∃ upper : Bool, candidate tieUp x k n =
      match x.readsBack (x.floorAt (k - n)) (k - n), x.readsBack (x.floorAt (k - n) + 1) (k - n) with
      | true, true => some (if upper then x.floorAt (k - n) + 1 else x.floorAt (k - n), k - n)
      | true, false => some (x.floorAt (k - n), k - n)
      | false, true => some (x.floorAt (k - n) + 1, k - n)
      | false, false => none := ⟨_, rfl⟩

/-- What the search takes rounds to the double. -/
theorem readsBack_of_candidate {tieUp : Bool} {k : ℤ} {n d : Nat} {g : ℤ}
    (h : candidate tieUp x k n = some (d, g)) : x.readsBack d g = true := by
  obtain ⟨upper, hcandidate⟩ := exists_candidate_eq tieUp x k n
  rw [hcandidate] at h
  split at h
  · next hd hd' =>
    obtain ⟨rfl, rfl⟩ := Prod.mk.inj (Option.some.inj h)
    cases upper
    · exact hd
    · exact hd'
  · next hd _ =>
    obtain ⟨rfl, rfl⟩ := Prod.mk.inj (Option.some.inj h)
    exact hd
  · next _ hd =>
    obtain ⟨rfl, rfl⟩ := Prod.mk.inj (Option.some.inj h)
    exact hd
  · cases h

/-- The search takes something if a decimal next to the double rounds to it. -/
theorem isSome_candidate (tieUp : Bool) {k : ℤ} {n : Nat}
    (h : x.readsBack (x.floorAt (k - n)) (k - n) = true ∨
      x.readsBack (x.floorAt (k - n) + 1) (k - n) = true) :
    (candidate tieUp x k n).isSome = true := by
  obtain ⟨upper, hcandidate⟩ := exists_candidate_eq tieUp x k n
  rw [hcandidate]
  split
  · rfl
  · rfl
  · rfl
  · next hd hd' => simp [hd, hd'] at h

/-! ## How large a double is -/

/-- The power of two that a quotient is compared with lies between the quotient and half of it. -/
theorem log2Ratio_bounds {num den : Nat} (hnum : num ≠ 0) (hden : den ≠ 0) :
    (2 : ℚ) ^ log2Ratio num den * den ≤ num ∧ (num : ℚ) < 2 ^ (log2Ratio num den + 1) * den := by
  have hnumLow : (2 : ℚ) ^ num.log2 ≤ num := by exact_mod_cast Nat.log2_self_le hnum
  have hnumHigh : (num : ℚ) < 2 ^ (num.log2 + 1) := by exact_mod_cast Nat.lt_log2_self (n := num)
  have hdenLow : (2 : ℚ) ^ den.log2 ≤ den := by exact_mod_cast Nat.log2_self_le hden
  have hdenHigh : (den : ℚ) < 2 ^ (den.log2 + 1) := by exact_mod_cast Nat.lt_log2_self (n := den)
  let e : ℤ := (num.log2 : ℤ) - den.log2
  have hscale : (0 : ℚ) < pow2 (-e).toNat := by exact_mod_cast pow2_pos _
  have hcompare : den * pow2 e.toNat ≤ num * pow2 (-e).toNat ↔ (2 : ℚ) ^ e * den ≤ num := by
    rw [← mul_le_mul_iff_left₀ hscale, mul_right_comm, ← pow2_toNat, mul_comm (pow2 e.toNat : ℚ)]
    exact_mod_cast Iff.rfl
  unfold log2Ratio
  simp only
  by_cases h : den * pow2 e.toNat ≤ num * pow2 (-e).toNat
  · rw [if_pos h]
    refine ⟨hcompare.mp h, ?_⟩
    calc (num : ℚ) < 2 ^ (num.log2 + 1) := hnumHigh
      _ = 2 ^ (e + 1) * 2 ^ den.log2 := by
        rw [← zpow_natCast, ← zpow_natCast, ← zpow_add₀ two_ne_zero]
        congr 1
        omega
      _ ≤ 2 ^ (e + 1) * den := by gcongr
  · rw [if_neg h]
    constructor
    · calc (2 : ℚ) ^ (e - 1) * den ≤ 2 ^ (e - 1) * 2 ^ (den.log2 + 1) := by gcongr
        _ = 2 ^ num.log2 := by
          rw [← zpow_natCast, ← zpow_natCast, ← zpow_add₀ two_ne_zero]
          congr 1
          omega
        _ ≤ num := hnumLow
    · rw [sub_add_cancel]
      exact lt_of_not_ge (mt hcompare.mpr h)

theorem ratio_ne_zero (h : x.mantissa ≠ 0) : x.ratio.1 ≠ 0 :=
  Nat.mul_ne_zero h (pow2_pos _).ne'

/-- The power of two that a double is compared with is not above it, and not beyond the range. -/
theorem IsCanonical.log2Ratio_bounds (hx : x.IsCanonical) (h : x.mantissa ≠ 0) :
    (2 : ℚ) ^ log2Ratio x.ratio.1 x.ratio.2 ≤ x.magnitude ∧
      log2Ratio x.ratio.1 x.ratio.2 < 1024 := by
  have hden : (0 : ℚ) < x.ratio.2 := by exact_mod_cast x.ratio_pos
  obtain ⟨hlow, -⟩ := Binary64.log2Ratio_bounds (ratio_ne_zero h) x.ratio_pos.ne'
  rw [ratio_eq] at hlow
  have hle := le_of_mul_le_mul_right hlow hden
  have hlt : x.magnitude < (2 : ℚ) ^ (1024 : ℤ) := by
    have hm : (x.mantissa : ℚ) < 2 ^ (53 : ℤ) := by exact_mod_cast hx.mantissa_lt
    calc (x.mantissa : ℚ) * 2 ^ x.exponent < 2 ^ (53 : ℤ) * 2 ^ x.exponent := by gcongr
      _ = 2 ^ (53 + x.exponent) := (zpow_add₀ two_ne_zero _ _).symm
      _ ≤ 2 ^ (1024 : ℤ) := zpow_le_zpow_right₀ one_le_two (by have := hx.exponent_le; omega)
  exact ⟨hle, (zpow_lt_zpow_iff_right₀ one_lt_two).mp (hle.trans_lt hlt)⟩

/-- An exponent of two is turned into one of ten by a quotient for which the powers are nearly the same.
An error of two in the exponent of ten is more than what that adds up to. -/
theorem zpow_le_of_near {a b : Nat} (ha : a ≠ 0) (hlow : 2 ^ a ≤ 10 ^ b) (hhigh : 10 ^ b ≤ 2 ^ (a + 1))
    {e g : ℤ} (hg : g * a ≤ e * b) (he : e ≤ 6 * a) : (10 : ℚ) ^ (g - 2) ≤ 2 ^ e := by
  have hten : (10 : ℚ) ^ (g - 2) = 10 ^ g * 10 ^ (-2 : ℤ) := zpow_add₀ (by norm_num) g (-2)
  have hpower : (10 : ℚ) ^ (e * b) ≤ 2 ^ (e * a) * 10 ^ (2 * a : ℤ) := by
    have hlow' : (2 : ℚ) ^ (a : ℤ) ≤ 10 ^ (b : ℤ) := by
      rw [zpow_natCast, zpow_natCast]
      exact_mod_cast hlow
    have hhigh' : (10 : ℚ) ^ (b : ℤ) ≤ 2 ^ (a + 1 : ℤ) := by
      rw [zpow_natCast, zpow_add₀ two_ne_zero, zpow_natCast, zpow_one]
      exact_mod_cast hhigh
    rw [mul_comm e b, mul_comm e a, zpow_mul, zpow_mul]
    rcases le_total 0 e with hpos | hneg
    · have hroom : (2 : ℚ) ^ e ≤ 10 ^ (2 * a : ℤ) := by
        calc (2 : ℚ) ^ e ≤ 2 ^ (3 * (2 * a) : ℤ) := zpow_le_zpow_right₀ one_le_two (by omega)
          _ = (2 ^ (3 : ℤ)) ^ (2 * a : ℤ) := zpow_mul 2 3 (2 * a)
          _ ≤ 10 ^ (2 * a : ℤ) := zpow_le_zpow_left₀ (by omega) (by positivity) (by norm_num)
      calc ((10 : ℚ) ^ (b : ℤ)) ^ e ≤ (2 ^ (a + 1 : ℤ)) ^ e :=
            zpow_le_zpow_left₀ hpos (by positivity) hhigh'
        _ = (2 ^ (a : ℤ)) ^ e * 2 ^ e := by
            rw [zpow_add₀ two_ne_zero, mul_zpow, zpow_one]
        _ ≤ (2 ^ (a : ℤ)) ^ e * 10 ^ (2 * a : ℤ) := by gcongr
    · have hone : (1 : ℚ) ≤ 10 ^ (2 * a : ℤ) := one_le_zpow₀ (by norm_num) (by omega)
      calc ((10 : ℚ) ^ (b : ℤ)) ^ e = (((10 : ℚ) ^ (b : ℤ)) ^ (-e))⁻¹ := by rw [zpow_neg, inv_inv]
        _ ≤ ((2 ^ (a : ℤ)) ^ (-e))⁻¹ :=
            inv_anti₀ (by positivity) (zpow_le_zpow_left₀ (by omega) (by positivity) hlow')
        _ = (2 ^ (a : ℤ)) ^ e := by rw [zpow_neg, inv_inv]
        _ ≤ (2 ^ (a : ℤ)) ^ e * 10 ^ (2 * a : ℤ) := le_mul_of_one_le_right (by positivity) hone
  refine (pow_le_pow_iff_left₀ (by positivity) (by positivity) ha).mp ?_
  calc ((10 : ℚ) ^ (g - 2)) ^ a = 10 ^ (g * a) * 10 ^ (-(2 * a) : ℤ) := by
        rw [← zpow_natCast, ← zpow_mul, ← zpow_add₀ (by norm_num)]
        congr 1
        ring
    _ ≤ 10 ^ (e * b) * 10 ^ (-(2 * a) : ℤ) := by
        gcongr
        norm_num
    _ ≤ 2 ^ (e * a) * 10 ^ (2 * a : ℤ) * 10 ^ (-(2 * a) : ℤ) := by gcongr
    _ = (2 ^ e) ^ a := by
        rw [mul_assoc, ← zpow_add₀ (by norm_num), add_neg_cancel, zpow_zero, mul_one, zpow_mul,
          zpow_natCast]

theorem zpow_estimate_le {e : ℤ} (h : e < 1024) :
    (10 : ℚ) ^ (e * 30103 / 100000 - 2) ≤ 2 ^ e :=
  zpow_le_of_near (a := 100000) (b := 30103) (by decide) (by decide +kernel) (by decide +kernel)
    (Int.ediv_mul_le _ (by decide)) (by omega)

/-- A double is at least the power of ten before its scale. -/
theorem pow_scale_le (hx : x.IsCanonical) (h : x.mantissa ≠ 0) :
    (10 : ℚ) ^ (x.scale - 1) ≤ x.magnitude := by
  obtain ⟨hle, hlt⟩ := hx.log2Ratio_bounds h
  let guess := log2Ratio x.ratio.1 x.ratio.2 * 30103 / 100000
  have hbelow : ∀ k : ℤ,
      ¬ x.ratio.1 * pow10 (-k).toNat < x.ratio.2 * pow10 k.toNat → (10 : ℚ) ^ k ≤ x.magnitude := by
    intro k hk
    have hscale : (0 : ℚ) < x.ratio.2 * pow10 (-k).toNat := by
      exact_mod_cast Nat.mul_pos x.ratio_pos (pow10_pos _)
    have hcast : (x.ratio.2 : ℚ) * pow10 k.toNat ≤ x.ratio.1 * pow10 (-k).toNat := by
      exact_mod_cast Nat.le_of_not_lt hk
    rw [pow10_toNat, ratio_eq] at hcast
    refine le_of_mul_le_mul_right ?_ hscale
    linarith
  have hscale : x.scale = guess - 1 ∨ (10 : ℚ) ^ (x.scale - 1) ≤ x.magnitude := by
    unfold scale
    simp only [decide_eq_true_eq]
    split
    · exact Or.inl rfl
    next hguess =>
    split
    · exact Or.inr (hbelow _ hguess)
    next hguess =>
    split
    · rw [add_sub_cancel_right]
      exact Or.inr (hbelow _ hguess)
    · next hguess =>
      rw [show guess + 2 - 1 = guess + 1 by omega]
      exact Or.inr (hbelow _ hguess)
  rcases hscale with hscale | hscale
  · have hexponent : x.scale - 1 = guess - 2 := by omega
    rw [hexponent]
    exact (zpow_estimate_le hlt).trans hle
  · exact hscale

/-! ## Digits that suffice -/

theorem magnitude_eq (x : Binary64) :
    x.magnitude = ((4 * x.mantissa : Nat) : ℚ) * 2 ^ (x.exponent - 2) := by
  unfold magnitude
  rw [zpow_sub₀ two_ne_zero]
  push_cast
  ring

theorem low_lt_magnitude (h : x.mantissa ≠ 0) : x.low < x.magnitude := by
  have hlt : x.lowMantissa < 4 * x.mantissa := by
    have hpos := Nat.pos_of_ne_zero h
    rcases lowMantissa_cases x with ⟨-, hlow⟩ | ⟨-, hlow⟩ <;> omega
  rw [magnitude_eq, low]
  gcongr

theorem magnitude_lt_high (x : Binary64) : x.magnitude < x.high := by
  rw [magnitude_eq, high]
  gcongr
  omega

/-- A grid that is sixteen digits finer than a double has a step from the middle below to the middle
above. -/
theorem grid_lt (hx : x.IsCanonical) {g : ℤ}
    (hg : (10 : ℚ) ^ (g + 16) ≤ x.magnitude) : (10 : ℚ) ^ g < x.high - x.low := by
  have hunit : (0 : ℚ) < 2 ^ (x.exponent - 2) := by positivity
  have hwide : 4 * x.mantissa + x.lowMantissa * 10 ^ 16 < (4 * x.mantissa + 2) * 10 ^ 16 := by
    have hlt := hx.mantissa_lt
    rcases lowMantissa_cases x with ⟨hnarrow, hlow⟩ | ⟨-, hlow⟩
    · have hm := hnarrow.1
      omega
    · omega
  have hcast : ((4 * x.mantissa : Nat) : ℚ) + x.lowMantissa * 10 ^ 16 <
      ((4 * x.mantissa + 2 : Nat) : ℚ) * 10 ^ 16 := by exact_mod_cast hwide
  have hscaled : (10 : ℚ) ^ g * 10 ^ 16 ≤
      ((4 * x.mantissa : Nat) : ℚ) * 2 ^ (x.exponent - 2) := by
    rw [← magnitude_eq, ← zpow_natCast, ← zpow_add₀ (by norm_num)]
    exact hg
  refine lt_of_mul_lt_mul_right ?_ (by positivity : (0 : ℚ) ≤ 10 ^ 16)
  calc (10 : ℚ) ^ g * 10 ^ 16 ≤ ((4 * x.mantissa : Nat) : ℚ) * 2 ^ (x.exponent - 2) := hscaled
    _ < (((4 * x.mantissa + 2 : Nat) : ℚ) * 10 ^ 16 - x.lowMantissa * 10 ^ 16) *
        2 ^ (x.exponent - 2) := by
      gcongr
      linarith
    _ = (x.high - x.low) * 10 ^ 16 := by
      unfold high low
      ring

/-- With seventeen digits one of the decimals next to a double rounds to it. -/
theorem readsBack_seventeen (hx : x.IsCanonical) (h : x.mantissa ≠ 0) :
    x.readsBack (x.floorAt (x.scale - (17 : Nat))) (x.scale - (17 : Nat)) = true ∨
      x.readsBack (x.floorAt (x.scale - (17 : Nat)) + 1) (x.scale - (17 : Nat)) = true := by
  have hgrid := grid_lt hx (g := x.scale - (17 : Nat)) (by
    have hexponent : x.scale - (17 : Nat) + 16 = x.scale - 1 := by omega
    rw [hexponent]
    exact pow_scale_le hx h)
  obtain ⟨hfloor, hnext⟩ := x.floorAt_bounds (x.scale - (17 : Nat))
  rw [readsBack_iff, readsBack_iff]
  generalize x.scale - ((17 : Nat) : ℤ) = g at hgrid hfloor hnext ⊢
  by_cases hlow : x.low < (x.floorAt g : ℚ) * 10 ^ g
  · exact Or.inl ⟨Or.inl hlow, Or.inl (hfloor.trans_lt (magnitude_lt_high x))⟩
  · -- the decimal below is too far, so the next is near enough
    refine Or.inr ⟨Or.inl ((low_lt_magnitude h).trans hnext), Or.inl ?_⟩
    push_cast
    linarith

/-! ## The shortest decimal -/

theorem value_stripZeros (fuel d : Nat) (e : ℤ) :
    ((stripZeros fuel d e).1 : ℚ) * 10 ^ (stripZeros fuel d e).2 = d * 10 ^ e := by
  induction fuel generalizing d e with
  | zero => rfl
  | succ fuel ih =>
    unfold stripZeros
    split
    · next h =>
      rw [Bool.and_eq_true, decide_eq_true_eq] at h
      have hd : d = d / 10 * 10 := by omega
      have hcast : (d : ℚ) = ((d / 10 : Nat) : ℚ) * 10 := by exact_mod_cast hd
      rw [ih, hcast, zpow_add_one₀ (by norm_num)]
      ring
    · rfl

/-- What the shortest decimal of a double is worth. -/
def shortestValue (tieUp : Bool) (x : Binary64) : ℚ :=
  (x.shortest tieUp).1 * 10 ^ (x.shortest tieUp).2

theorem shortestValue_zero (tieUp : Bool) (h : x.mantissa = 0) : x.shortestValue tieUp = 0 := by
  have hzero : x.isZero = true := by simp [isZero, h]
  simp [shortestValue, shortest, hzero]

/-- **The shortest decimal of a double rounds to it.** -/
theorem rounds_shortestValue (hx : x.IsCanonical) (h : x.mantissa ≠ 0) (tieUp : Bool) :
    x.Rounds (x.shortestValue tieUp) := by
  have hzero : x.isZero = false := by simpa [isZero] using h
  have hfound : (((List.range 17).map (· + 1)).findSome? (candidate tieUp x x.scale)).isSome = true := by
    rw [List.findSome?_isSome_iff]
    exact ⟨17, by decide, isSome_candidate tieUp (readsBack_seventeen hx h)⟩
  obtain ⟨⟨d, g⟩, hsome⟩ := Option.isSome_iff_exists.mp hfound
  obtain ⟨n, -, hcandidate⟩ := List.exists_of_findSome?_eq_some hsome
  have hvalue : x.shortestValue tieUp = d * 10 ^ g := by
    have hshortest : x.shortest tieUp = stripZeros 20 d g := by
      unfold shortest
      rw [hzero, if_neg Bool.false_ne_true]
      simp only [hsome, Option.getD_some]
    rw [shortestValue, hshortest, value_stripZeros]
  rw [hvalue, ← readsBack_iff]
  exact readsBack_of_candidate hcandidate

theorem shortestValue_eq_zero_iff (hx : x.IsCanonical) (tieUp : Bool) :
    x.shortestValue tieUp = 0 ↔ x.mantissa = 0 := by
  refine ⟨fun hvalue => ?_, shortestValue_zero tieUp⟩
  by_contra h
  have hpos := (rounds_shortestValue hx h tieUp).pos h
  rw [hvalue] at hpos
  exact lt_irrefl 0 hpos

/-- **The shortest decimal tells the magnitude of a double.** -/
theorem eq_of_shortestValue_eq {y : Binary64} (hx : x.IsCanonical) (hy : y.IsCanonical)
    {tieUp : Bool} (h : x.shortestValue tieUp = y.shortestValue tieUp) :
    x.mantissa = y.mantissa ∧ x.exponent = y.exponent := by
  by_cases hxm : x.mantissa = 0
  · have hym : y.mantissa = 0 := by
      rw [← shortestValue_eq_zero_iff hy tieUp, ← h, shortestValue_eq_zero_iff hx, hxm]
    -- a zero is in normal form with the least exponent only
    have hxfull := hx.full
    have hyfull := hy.full
    omega
  · have hym : y.mantissa ≠ 0 := by
      rwa [ne_eq, ← shortestValue_eq_zero_iff hy tieUp, ← h, shortestValue_eq_zero_iff hx]
    have hrounds := rounds_shortestValue hx hxm tieUp
    rw [h] at hrounds
    exact eq_of_rounds hx hy hrounds (rounds_shortestValue hy hym tieUp)

end Binary64

end ApiContract
