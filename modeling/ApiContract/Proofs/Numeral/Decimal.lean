import ApiContract.Numeral.Decimal
import Mathlib.Data.List.Basic
import Mathlib.Data.List.TakeWhile
import Mathlib.Order.Basic
/-!
# Decimal texts

The digits of a whole number are read as that number. A sign, digits, a point with more digits and an
exponent are read as the decimal they spell.
-/

namespace ApiContract

namespace Decimal

/-! ## The digits of a number -/

theorem ofDigits_toDigits (n : Nat) : ofDigits (Nat.toDigits 10 n) = n := Nat.ofDigitChars_ten_toDigits

theorem isDigit_of_mem_toDigits {n : Nat} {c : Char} (h : c ∈ Nat.toDigits 10 n) :
    c.isDigit = true :=
  Nat.isDigit_of_mem_toDigits (by decide) (by decide) h

/-- The digits of a positive number start with no zero. -/
theorem head?_toDigits {n : Nat} (h : 0 < n) : (Nat.toDigits 10 n).head? ≠ some '0' := by
  induction n using Nat.strongRecOn with
  | _ n ih =>
    by_cases hn : n < 10
    · rw [Nat.toDigits_of_lt_base hn]
      have hall : ∀ m ∈ List.range 10, 0 < m → [m.digitChar].head? ≠ some '0' := by decide
      exact hall n (List.mem_range.mpr hn) h
    · rw [Nat.toDigits_of_base_le (by decide) (Nat.le_of_not_lt hn),
        List.head?_append_of_ne_nil _ Nat.toDigits_ne_nil]
      exact ih (n / 10) (by omega) (by omega)

theorem takeWhile_toDigits (n : Nat) :
    (Nat.toDigits 10 n).takeWhile Char.isDigit = Nat.toDigits 10 n :=
  List.takeWhile_eq_self_iff.mpr fun _ hc => isDigit_of_mem_toDigits hc

theorem dropWhile_toDigits (n : Nat) : (Nat.toDigits 10 n).dropWhile Char.isDigit = [] :=
  List.dropWhile_eq_nil_iff.mpr fun _ hc => isDigit_of_mem_toDigits hc

theorem ofDigits_append (cs ds : List Char) :
    ofDigits (cs ++ ds) = ds.foldl (fun n c => 10 * n + digitValue c) (ofDigits cs) :=
  List.foldl_append

/-- Zeros behind digits scale what they spell. -/
theorem ofDigits_append_zeros (cs : List Char) (n : Nat) :
    ofDigits (cs ++ List.replicate n '0') = ofDigits cs * pow10 n := by
  induction n with
  | zero =>
    rw [List.replicate_zero, List.append_nil]
    exact (Nat.mul_one _).symm
  | succ n ih =>
    have hzero : ofDigits (cs ++ List.replicate n '0' ++ ['0']) =
        10 * ofDigits (cs ++ List.replicate n '0') := ofDigits_append _ _
    rw [List.replicate_succ', ← List.append_assoc, hzero, ih]
    show 10 * (ofDigits cs * pow10 n) = ofDigits cs * (pow10 n * 10)
    ac_rfl

/-- Zeros before digits say nothing. -/
theorem ofDigits_zeros_append (n : Nat) (cs : List Char) :
    ofDigits (List.replicate n '0' ++ cs) = ofDigits cs := by
  induction n with
  | zero => rfl
  | succ n ih => exact ih

/-! ### Lists of digits -/

/-- Whether a text holds digits only. -/
def AreDigits (cs : List Char) : Prop := ∀ c ∈ cs, c.isDigit = true

theorem AreDigits.nil : AreDigits [] := by simp [AreDigits]

theorem AreDigits.toDigits (n : Nat) : AreDigits (Nat.toDigits 10 n) :=
  fun _ => isDigit_of_mem_toDigits

theorem AreDigits.zeros (n : Nat) : AreDigits (List.replicate n '0') := by
  intro c hc
  rw [List.eq_of_mem_replicate hc]
  decide

theorem AreDigits.append {cs ds : List Char} (hcs : AreDigits cs) (hds : AreDigits ds) :
    AreDigits (cs ++ ds) := by
  intro c hc
  rcases List.mem_append.mp hc with hc | hc
  · exact hcs c hc
  · exact hds c hc

theorem AreDigits.take {cs : List Char} (h : AreDigits cs) (n : Nat) : AreDigits (cs.take n) :=
  fun c hc => h c (List.mem_of_mem_take hc)

theorem AreDigits.drop {cs : List Char} (h : AreDigits cs) (n : Nat) : AreDigits (cs.drop n) :=
  fun c hc => h c (List.mem_of_mem_drop hc)

/-! ## Signs -/

/-- A sign before a text that has none. -/
def signed (negative : Bool) (cs : List Char) : List Char := if negative then '-' :: cs else cs

/-- A sign is read before a text that starts with a digit. -/
theorem splitSign_signed (negative : Bool) {c : Char} (hc : c.isDigit = true) (cs : List Char) :
    splitSign (signed negative (c :: cs)) = (negative, c :: cs) := by
  cases negative with
  | true => rfl
  | false =>
    show splitSign (c :: cs) = _
    unfold splitSign
    split
    · next h => cases h; exact absurd hc (by decide)
    · next h => cases h; exact absurd hc (by decide)
    · rfl

/-! ## Whole numbers -/

/-- Digits behind a sign, or without one, are read as the whole number they spell. -/
theorem readInt?_of_splitSign {cs : List Char} {negative : Bool} {n : Nat}
    (h : splitSign cs = (negative, Nat.toDigits 10 n)) :
    readInt? cs = some (if negative then -(n : Int) else n) := by
  have hempty : (Nat.toDigits 10 n).isEmpty = false := by simp
  have hall : (Nat.toDigits 10 n).all Char.isDigit = true :=
    List.all_eq_true.mpr (AreDigits.toDigits n)
  simp only [readInt?, h, hempty, hall, Bool.not_true, Bool.or_self, Bool.false_eq_true,
    if_false, ofDigits_toDigits]

theorem splitSign_toDigits (n : Nat) :
    splitSign (Nat.toDigits 10 n) = (false, Nat.toDigits 10 n) := by
  have hdigits := AreDigits.toDigits n
  cases h : Nat.toDigits 10 n with
  | nil => exact absurd h Nat.toDigits_ne_nil
  | cons c cs => exact splitSign_signed false (hdigits c (h ▸ List.mem_cons_self)) cs

theorem toList_toString_ofNat (n : Nat) :
    (toString (Int.ofNat n)).toList = Nat.toDigits 10 n :=
  Nat.toList_repr

theorem toList_toString_negSucc (n : Nat) :
    (toString (Int.negSucc n)).toList = '-' :: Nat.toDigits 10 (n + 1) := by
  show ("-" ++ Nat.repr (n + 1)).toList = _
  rw [String.toList_append, Nat.toList_repr]
  rfl

/-- **The decimal text of a whole number is read as that number.** -/
theorem readInt?_toString (n : Int) : readInt? (toString n).toList = some n := by
  cases n with
  | ofNat n =>
    rw [toList_toString_ofNat, readInt?_of_splitSign (splitSign_toDigits n)]
    rfl
  | negSucc n =>
    rw [toList_toString_negSucc, readInt?_of_splitSign rfl]
    rfl

/-- A text with a character that is neither a digit nor a sign is no whole number. -/
theorem readInt?_eq_none_of_mem {cs : List Char} {c : Char} (hmem : c ∈ cs)
    (hdigit : c.isDigit = false) (hminus : c ≠ '-') (hplus : c ≠ '+') : readInt? cs = none := by
  have hbehind : c ∈ (splitSign cs).2 := by
    unfold splitSign
    split
    · exact (List.mem_cons.mp hmem).resolve_left hminus
    · exact (List.mem_cons.mp hmem).resolve_left hplus
    · exact hmem
  have hall : (splitSign cs).2.all Char.isDigit = false :=
    List.all_eq_false.mpr ⟨c, hbehind, by rw [hdigit]; exact Bool.false_ne_true⟩
  simp [readInt?, hall]

/-! ## Decimals -/

/-- Digits behind a point; without digits there is no point. -/
def pointed : List Char → List Char
  | [] => []
  | d :: ds => '.' :: d :: ds

/-- Whether a text ends a decimal with an exponent, which is zero where there is none. -/
def Scales (e : Int) (tail : List Char) : Prop :=
  (tail = [] ∧ e = 0) ∨ ∃ cs, tail = 'e' :: cs ∧ readExponent cs = some e

theorem scales_nil : Scales 0 [] := Or.inl ⟨rfl, rfl⟩

/-- Digits are read up to the first character that is none. -/
theorem span_digits {cs tail : List Char} (hcs : AreDigits cs)
    (htail : ∀ c ∈ tail.head?, c.isDigit = false) :
    (cs ++ tail).takeWhile Char.isDigit = cs ∧ (cs ++ tail).dropWhile Char.isDigit = tail := by
  have hempty : tail.takeWhile Char.isDigit = [] ∧ tail.dropWhile Char.isDigit = tail := by
    cases tail with
    | nil => exact ⟨rfl, rfl⟩
    | cons c tail =>
      have hc : c.isDigit = false := htail c rfl
      exact ⟨List.takeWhile_cons_of_neg (by rw [hc]; decide),
        List.dropWhile_cons_of_neg (by rw [hc]; decide)⟩
  rw [List.takeWhile_append_of_pos hcs, List.dropWhile_append_of_pos hcs, hempty.1, hempty.2,
    List.append_nil]
  exact ⟨rfl, rfl⟩

theorem Scales.head_not_digit {e : Int} {tail : List Char} (h : Scales e tail) :
    ∀ c ∈ tail.head?, c.isDigit = false ∧ c ≠ '.' := by
  rcases h with ⟨rfl, -⟩ | ⟨cs, rfl, -⟩
  · simp
  · intro c hc
    cases hc
    decide

/-- **A sign, digits, more digits behind a point, and an exponent are read as the decimal that they
spell.** -/
theorem read?_written (negative : Bool) {whole part tail : List Char} {e : Int}
    (hwhole : AreDigits whole) (hne : whole ≠ []) (hpart : AreDigits part) (htail : Scales e tail) :
    read? (signed negative (whole ++ (pointed part ++ tail))) =
      some ⟨negative, ofDigits (whole ++ part), e - part.length⟩ := by
  have hsplit : splitSign (signed negative (whole ++ (pointed part ++ tail))) =
      (negative, whole ++ (pointed part ++ tail)) := by
    cases whole with
    | nil => exact absurd rfl hne
    | cons c whole => exact splitSign_signed negative (hwhole c List.mem_cons_self) _
  have hempty : whole.isEmpty = false := by
    cases whole with
    | nil => exact absurd rfl hne
    | cons c whole => rfl
  have hbehind : ∀ c ∈ (pointed part ++ tail).head?, c.isDigit = false := by
    cases part with
    | nil => exact fun c hc => (htail.head_not_digit c hc).1
    | cons d ds =>
      intro c hc
      cases hc
      decide
  obtain ⟨htake, hdrop⟩ := span_digits hwhole hbehind
  unfold read?
  simp only [hsplit, htake, hdrop, hempty, Bool.false_and, Bool.false_eq_true, if_false]
  cases part with
  | nil =>
    rcases htail with ⟨rfl, rfl⟩ | ⟨cs, rfl, hexponent⟩
    · rfl
    · show Option.map _ (readExponent cs) = _
      rw [hexponent]
      rfl
  | cons d ds =>
    obtain ⟨htake', hdrop'⟩ := span_digits hpart fun c hc => (htail.head_not_digit c hc).1
    simp only [pointed, List.cons_append] at htake' hdrop' ⊢
    simp only [htake', hdrop']
    rcases htail with ⟨rfl, rfl⟩ | ⟨cs, rfl, hexponent⟩
    · rfl
    · show Option.map _ (readExponent cs) = _
      rw [hexponent]
      rfl

/-- The digits of a whole number are also a decimal without a fraction. -/
theorem read?_toDigits (n : Nat) : read? (Nat.toDigits 10 n) = some ⟨false, n, 0⟩ := by
  have h := read?_written false (AreDigits.toDigits n) Nat.toDigits_ne_nil AreDigits.nil scales_nil
  simpa [signed, pointed, ofDigits_toDigits] using h

end Decimal

end ApiContract
