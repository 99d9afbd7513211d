import ApiContract.Proofs.Parameter.Coercion
/-!
# Whole numbers of 64 bits

A JSON text carries the whole numbers that fit 64 bits, with a sign or without one. Of a parameter's
text only those that fit with a sign are kept. Past them an integer stays a text, and a number becomes
the double nearest to it.
-/

namespace ApiContract

/-! ## Literals -/

namespace Number

/-- Reading digits on makes a number no smaller. -/
theorem le_foldl_digits (cs : List Char) (n : Nat) :
    n ≤ cs.foldl (fun n c => 10 * n + Decimal.digitValue c) n := by
  induction cs generalizing n with
  | nil => exact le_rfl
  | cons c cs ih => exact le_trans (by omega) (ih (10 * n + Decimal.digitValue c))

/-- Digits are kept exactly as long as what they spell fits. -/
theorem foldl_pushWhole {cs : List Char} {n : Nat}
    (h : cs.foldl (fun n c => 10 * n + Decimal.digitValue c) n < pow2 64) :
    cs.foldl Significand.pushWhole ⟨n, 0, false⟩ =
      ⟨cs.foldl (fun n c => 10 * n + Decimal.digitValue c) n, 0, false⟩ := by
  induction cs generalizing n with
  | nil => rfl
  | cons c cs ih =>
    have hstep : 10 * n + Decimal.digitValue c < pow2 64 := lt_of_le_of_lt (le_foldl_digits cs _) h
    have hpush : Significand.pushWhole ⟨n, 0, false⟩ c =
        ⟨10 * n + Decimal.digitValue c, 0, false⟩ := by
      simp [Significand.pushWhole, hstep]
    rw [List.foldl_cons, hpush, ih h, List.foldl_cons]

/-- The digits that are kept fit. -/
theorem digits_foldl_pushWhole_lt {cs : List Char} {s : Significand} (h : s.digits < pow2 64) :
    (cs.foldl Significand.pushWhole s).digits < pow2 64 := by
  induction cs generalizing s with
  | nil => exact h
  | cons c cs ih =>
    refine ih ?_
    by_cases hfull : (s.full || pow2 64 ≤ 10 * s.digits + Decimal.digitValue c) = true
    · simpa [Significand.pushWhole, hfull] using h
    · simp only [Significand.pushWhole, hfull]
      simp at hfull
      exact hfull.2

theorem foldl_pushWhole_toDigits {n : Nat} (h : n < pow2 64) :
    (Nat.toDigits 10 n).foldl Significand.pushWhole ⟨0, 0, false⟩ = ⟨n, 0, false⟩ := by
  have hspelled : (Nat.toDigits 10 n).foldl (fun n c => 10 * n + Decimal.digitValue c) 0 = n :=
    Decimal.ofDigits_toDigits n
  rw [foldl_pushWhole (by rwa [hspelled]), hspelled]

/-- Digits of a whole number are a literal's, with no zero too many in front. -/
theorem leading_toDigits (n : Nat) :
    ((Nat.toDigits 10 n).isEmpty ||
      (Nat.toDigits 10 n).head? == some '0' && (Nat.toDigits 10 n).length != 1) = false := by
  cases n with
  | zero => decide
  | succ n => simp [Decimal.head?_toDigits (Nat.succ_pos n)]

/-- **The literal of a whole number is read as that number** if 64 bits hold it, with a sign or
without one. -/
theorem read?_toString {n : Int} (hlow : -pow2 63 ≤ n) (hhigh : n < pow2 64) :
    read? (toString n).toList = some (.int n) := by
  cases n with
  | ofNat n =>
    have hunsigned : ∀ ds, Nat.toDigits 10 n ≠ '-' :: ds := fun ds h =>
      absurd (Decimal.isDigit_of_mem_toDigits (h ▸ List.mem_cons_self)) (by decide)
    rw [Decimal.toList_toString_ofNat]
    unfold read?
    split
    next negative ds hsign =>
      split at hsign
      · next h => exact absurd h (hunsigned _)
      · obtain ⟨rfl, rfl⟩ := Prod.mk.inj hsign
        have hmin : ¬ (n : Int) < minInt := Int.not_lt.mpr hlow
        simp [Decimal.takeWhile_toDigits, Decimal.dropWhile_toDigits, leading_toDigits,
          foldl_pushWhole_toDigits (Int.ofNat_lt.mp hhigh), hmin]
  | negSucc n =>
    have hfits : n + 1 < pow2 64 := by
      have hpow : (pow2 63 : Int) < pow2 64 := by decide
      omega
    have hneg : -((n + 1 : Nat) : Int) = Int.negSucc n := rfl
    have hmin : ¬ Int.negSucc n < minInt := Int.not_lt.mpr hlow
    have hzero : Int.negSucc n ≠ 0 := Int.negSucc_ne_zero n
    rw [Decimal.toList_toString_negSucc]
    unfold read?
    simp only [Decimal.takeWhile_toDigits, Decimal.dropWhile_toDigits, leading_toDigits,
      foldl_pushWhole_toDigits hfits, if_true, hneg, hmin, hzero, decide_false, Bool.or_self,
      Bool.and_false, Bool.false_eq_true, if_false]

/-- A literal that is read as a whole number is of one that 64 bits hold. -/
theorem bounds_of_read? {cs : List Char} {n : Int} (h : read? cs = some (.int n)) :
    -pow2 63 ≤ n ∧ n < pow2 64 := by
  have hscaled : ∀ {x : Option Binary64}, x.map Number.real ≠ some (.int n) := by
    intro x h
    obtain ⟨_, -, h⟩ := Option.map_eq_some_iff.mp h
    cases h
  have hexponent : ∀ {negative t ds}, read?.withExponent negative t ds ≠ some (.int n) := by
    intro negative t ds h
    obtain ⟨e, -, h⟩ := Option.bind_eq_some_iff.mp h
    split at h
    · cases h
    · exact hscaled h
  unfold read? at h
  split at h
  next negative ds _ =>
    have hdigits : ((ds.takeWhile Char.isDigit).foldl Significand.pushWhole
        ⟨0, 0, false⟩).digits < pow2 64 := digits_foldl_pushWhole_lt (by decide)
    simp only at h
    generalize (ds.takeWhile Char.isDigit).foldl Significand.pushWhole ⟨0, 0, false⟩ = s
      at h hdigits
    split at h
    · cases h
    split at h
    · generalize hm : (if negative = true then -(s.digits : Int) else s.digits) = m at h
      split at h
      · exact absurd h hscaled
      · next hkept =>
        obtain rfl : m = n := Number.int.inj (Option.some.inj h)
        simp only [Bool.or_eq_true, not_or, decide_eq_true_eq] at hkept
        refine ⟨Int.not_lt.mp hkept.1.2, ?_⟩
        split at hm <;> omega
    · split at h
      · cases h
      split at h
      · exact absurd h hscaled
      · split at h
        · exact absurd h hexponent
        · cases h
    · split at h
      · exact absurd h hexponent
      · cases h

/-- **A JSON text carries the whole numbers that 64 bits hold**, with a sign or without one. -/
theorem exists_read?_eq_int_iff {n : Int} :
    (∃ cs, read? cs = some (.int n)) ↔ -pow2 63 ≤ n ∧ n < pow2 64 :=
  ⟨fun ⟨_, h⟩ => bounds_of_read? h, fun h => ⟨_, read?_toString h.1 h.2⟩⟩

end Number

/-! ## Doubles -/

/-- Every whole number that fits has a double nearest to it. -/
theorem Binary64.isSome_ofRatio {n : Nat} (h : n < pow2 64) (negative : Bool) :
    (ofRatio negative n 1).isSome = true := by
  unfold ofRatio
  by_cases hn : n = 0
  · rw [if_pos hn]
    rfl
  · rw [if_neg hn]
    have hlog : n.log2 < 64 := (Nat.log2_lt hn).mpr h
    have hlast : log2Ratio n 1 ≤ 63 := by
      unfold log2Ratio
      simp only
      have hone : (Nat.log2 1 : Int) = 0 := rfl
      split <;> omega
    simp only
    generalize divEven _ _ = m
    split <;> simp <;> omega

/-- A decimal without a fraction denotes the double nearest to the whole number. -/
theorem Decimal.toBinary64_whole {n : Nat} (h : n < pow2 64) :
    Decimal.toBinary64 ⟨false, n, 0⟩ = Binary64.ofRatio false n 1 := by
  have hwidth : width n ≤ 20 := by
    unfold width
    split
    · exact Nat.zero_le _
    · exact (Nat.length_toDigits_le_iff (by decide) (by decide)).mpr (Nat.lt_trans h (by decide))
  have hlow : ¬ ((width n : Int) + 0 < -330) := by omega
  have hhigh : ¬ 330 < (width n : Int) + 0 := by omega
  have hscale : n * pow10 0 = n := Nat.mul_one n
  unfold toBinary64
  by_cases hn : n = 0
  · simp [hn, Binary64.ofRatio]
  · simp only [hn, hlow, hhigh, decide_false, Bool.or_self, Bool.false_eq_true, if_false]
    exact congrArg (Binary64.ofRatio false · 1) hscale

namespace Coercion

/-! ## Texts of whole numbers -/

/-- A schema that asks for a kind and nothing else. -/
def asking (kind : Kind) : Json := .object [("type", .string kind.name)]

theorem value_asking (c : Contract) (s : String) (kind : Kind) :
    value c (.string s) (asking kind) = ofText (some [kind.name]) s := by
  rw [value_string]
  rfl

theorem value_asking_integer (c : Contract) (s : String) :
    value c (.string s) (asking .integer) = (integer? s.toList).getD (.string s) := by
  simp [value_asking, ofText, scalar?, toKind?, Kind.name]

theorem value_asking_number (c : Contract) (s : String) :
    value c (.string s) (asking .number) =
      ((integer? s.toList).or (double? s.toList)).getD (.string s) := by
  simp [value_asking, ofText, scalar?, toKind?, Kind.name]

theorem integer?_toString_eq_none {n : Int} (h : pow2 63 ≤ n) :
    integer? (toString n).toList = none := by
  have hrange : ¬ (-(pow2 63 : Int) ≤ n && n < (pow2 63 : Int)) = true := by
    simp [Int.not_lt.mpr h]
  unfold integer?
  rw [Decimal.readInt?_toString, Option.bind_eq_bind, Option.bind_some, if_neg hrange]

/-- The text of a whole number also spells the double nearest to it. -/
theorem double?_toString {n : Int} (hlow : 0 ≤ n) (hhigh : n < pow2 64) :
    double? (toString n).toList = some (.number (.real (Number.int n).toBinary64)) := by
  obtain ⟨n, rfl⟩ := Int.eq_ofNat_of_zero_le hlow
  have htext : (toString (n : Int)).toList = Nat.toDigits 10 n := Decimal.toList_toString_ofNat n
  have hfits : n < pow2 64 := Int.ofNat_lt.mp hhigh
  obtain ⟨x, hx⟩ := Option.isSome_iff_exists.mp (Binary64.isSome_ofRatio hfits false)
  have hnearest : (Number.int n).toBinary64 = x := by
    have hsign : decide ((n : Int) < 0) = false := by simp
    rw [Number.toBinary64, Binary64.ofInt, hsign, Int.natAbs_natCast, hx, Option.getD_some]
  rw [double?, htext, Decimal.read?_toDigits, hnearest]
  simp [Decimal.toBinary64_whole hfits, hx]

/--
**The text of a whole number is coerced exactly as far as 64 bits with a sign go.** A JSON text
carries also the numbers past them that fit without a sign. The text of such a number stays a text
where an integer is asked for, and becomes the double nearest to it where a number is.
-/
theorem value_asking_eq_int_iff (c : Contract) {n : Int} (hlow : -pow2 63 ≤ n)
    (hhigh : n < pow2 64) :
    Number.read? (toString n).toList = some (.int n) ∧
      (value c (.string (toString n)) (asking .integer) = Json.int n ↔ n < pow2 63) ∧
      (value c (.string (toString n)) (asking .number) = Json.int n ↔ n < pow2 63) ∧
      (pow2 63 ≤ n →
        value c (.string (toString n)) (asking .integer) = .string (toString n) ∧
        value c (.string (toString n)) (asking .number) =
          .number (.real (Number.int n).toBinary64)) := by
  have hexact : n < pow2 63 →
      value c (.string (toString n)) (asking .integer) = Json.int n ∧
      value c (.string (toString n)) (asking .number) = Json.int n := by
    intro hn
    rw [value_asking_integer, value_asking_number, integer?_toString ⟨hlow, hn⟩]
    exact ⟨rfl, rfl⟩
  have hrest : pow2 63 ≤ n →
      value c (.string (toString n)) (asking .integer) = .string (toString n) ∧
      value c (.string (toString n)) (asking .number) =
        .number (.real (Number.int n).toBinary64) := by
    intro hn
    have hnonneg : 0 ≤ n := Int.le_trans (by decide) hn
    rw [value_asking_integer, value_asking_number, integer?_toString_eq_none hn,
      double?_toString hnonneg hhigh]
    exact ⟨rfl, rfl⟩
  refine ⟨Number.read?_toString hlow hhigh, ⟨fun h => ?_, fun hn => (hexact hn).1⟩,
    ⟨fun h => ?_, fun hn => (hexact hn).2⟩, hrest⟩
  · by_contra hn
    rw [(hrest (Int.not_lt.mp hn)).1] at h
    cases h
  · by_contra hn
    rw [(hrest (Int.not_lt.mp hn)).2] at h
    cases h

/-! ## Next to the bounds -/

/-- A contract that declares nothing. -/
def pathless : Contract where
  root := [("openapi", .string "3.0.3"), ("paths", .object [])]
  version := "3.0.3"

/-- The last number that is coerced exactly, and the first that is not. -/
theorem value_asking_eq_int_iff_next :
    value pathless (.string "9223372036854775807") (asking .integer) =
        Json.int 9223372036854775807 ∧
      value pathless (.string "9223372036854775808") (asking .integer) =
        .string "9223372036854775808" := by
  have hlast := value_asking_eq_int_iff pathless (n := 9223372036854775807) (by decide) (by decide)
  have hnext := value_asking_eq_int_iff pathless (n := 9223372036854775808) (by decide) (by decide)
  exact ⟨hlast.2.1.mpr (by decide), (hnext.2.2.2 (by decide)).1⟩

/-- The last number that a JSON text carries is not coerced exactly. -/
theorem value_asking_ne_int :
    (18446744073709551615 : Int) < pow2 64 ∧
      value pathless (.string "18446744073709551615") (asking .integer) ≠
        Json.int 18446744073709551615 ∧
      value pathless (.string "18446744073709551615") (asking .number) ≠
        Json.int 18446744073709551615 := by
  decide

end Coercion

end ApiContract
