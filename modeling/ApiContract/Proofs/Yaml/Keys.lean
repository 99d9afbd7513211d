import ApiContract.Proofs.Numeral.Layout
import ApiContract.Proofs.Yaml.WellFormed
/-!
# Texts of keys

A key that is a number or a flag is written as a text. Integers are the texts that are read as whole
numbers, doubles the other texts that are read as decimals, and each of these texts is read as one number
only. So a text can be that of two keys only where one of them is this text itself.
-/

namespace ApiContract

namespace Yaml

namespace Tree

/-! ## Kinds of keys -/

def isText : Tree → Bool
  | .text _ => true
  | _ => false

/-- The integer that a node is, if it is one. -/
def asInt? : Tree → Option Int
  | .int n => some n
  | _ => none

/-- Whether a node is an integer or a finite double. -/
def isFinite : Tree → Bool
  | .int _ => true
  | .real _ => true
  | _ => false

theorem toList_intText (n : Int) :
    (intText n).toList = Decimal.signed (decide (n < 0)) (Nat.toDigits 10 n.natAbs) := by
  have habs : (toString n.natAbs).toList = Nat.toDigits 10 n.natAbs := Nat.toList_repr
  show (if n < 0 then "-" ++ toString n.natAbs else toString n.natAbs).toList = _
  by_cases hn : n < 0
  · rw [if_pos hn, String.toList_append, habs, decide_eq_true hn]
    rfl
  · rw [if_neg hn, habs, decide_eq_false hn]
    rfl

/-- The text of an integer is read as this integer, and that of another key as none. -/
theorem readInt?_keyText? {k : Tree} {s : String} (h : keyText? k = some s) (hk : k.isText = false) :
    Decimal.readInt? s.toList = k.asInt? := by
  cases k with
  | bool b => cases b <;> cases h <;> decide
  | int n =>
    cases h
    rw [toList_intText, asInt?]
    by_cases hn : n < 0
    · rw [decide_eq_true hn, Decimal.readInt?_of_splitSign rfl, if_pos rfl]
      congr 1
      omega
    · rw [decide_eq_false hn, Decimal.signed, if_neg Bool.false_ne_true,
        Decimal.readInt?_of_splitSign (Decimal.splitSign_toDigits _), if_neg Bool.false_ne_true]
      congr 1
      omega
  | real x => cases h; exact Binary64.readInt?_render rfl x
  | infinity negative => cases negative <;> cases h <;> decide
  | notANumber => cases h; decide
  | text s => cases hk
  | null | sequence | mapping | tagged => cases h

/-- The text of a number is read as a decimal, and that of another key is not. -/
theorem isSome_read?_keyText? {k : Tree} {s : String} (h : keyText? k = some s)
    (hk : k.isText = false) : (Decimal.read? s.toList).isSome = k.isFinite := by
  cases k with
  | bool b => cases b <;> cases h <;> decide
  | int n =>
    cases h
    have hread := Decimal.read?_written (decide (n < 0)) (Decimal.AreDigits.toDigits n.natAbs)
      Nat.toDigits_ne_nil Decimal.AreDigits.nil Decimal.scales_nil
    rw [Decimal.pointed, List.append_nil, List.append_nil] at hread
    rw [toList_intText, hread]
    rfl
  | real x =>
    cases h
    obtain ⟨cs, hcs, hspells⟩ := Binary64.render_eq keyLayout x
    obtain ⟨d, hd, -⟩ := hspells x.negative
    rw [hcs, hd]
    rfl
  | infinity negative => cases negative <;> cases h <;> decide
  | notANumber => cases h; decide
  | text s => cases hk
  | null | sequence | mapping | tagged => cases h

/-! ## Keys with one text -/

/-- The keys that are written as words. -/
def words : List Tree := [.bool true, .bool false, .infinity true, .infinity false, .notANumber]

theorem mem_words_of_keyText? {k : Tree} {s : String} (h : keyText? k = some s)
    (hk : k.isText = false) (hfinite : k.isFinite = false) : k ∈ words := by
  cases k with
  | bool b => cases b <;> simp [words]
  | infinity negative => cases negative <;> simp [words]
  | notANumber => simp [words]
  | int n => cases hfinite
  | real x => cases hfinite
  | text s => cases hk
  | null | sequence | mapping | tagged => cases h

/-- No two words are one text. -/
theorem same_of_mem_words : ∀ a ∈ words, ∀ b ∈ words, keyText? a = keyText? b → a.same b = true := by
  decide

theorem same_of_isText {a b : Tree} (ha : a.isText = true) (hb : b.isText = true)
    (h : keyText? a = keyText? b) : a.same b = true := by
  cases a with
  | text s =>
    cases b with
    | text s' => simpa [same, keyText?] using h
    | _ => cases hb
  | _ => cases ha

/-- Keys that are no texts are written as one text only where they are one key. -/
theorem same_of_not_isText {a b : Tree} (ha : a.isWellFormed = true) (hb : b.isWellFormed = true)
    (hta : a.isText = false) (htb : b.isText = false) {s : String} (hsa : keyText? a = some s)
    (hsb : keyText? b = some s) : a.same b = true := by
  -- one text is read in one way, so the keys are of one kind
  have hint : a.asInt? = b.asInt? :=
    (readInt?_keyText? hsa hta).symm.trans (readInt?_keyText? hsb htb)
  have hfinite : a.isFinite = b.isFinite :=
    (isSome_read?_keyText? hsa hta).symm.trans (isSome_read?_keyText? hsb htb)
  cases hfa : a.isFinite with
  | false =>
    exact same_of_mem_words a (mem_words_of_keyText? hsa hta hfa) b
      (mem_words_of_keyText? hsb htb (hfinite.symm.trans hfa)) (hsa.trans hsb.symm)
  | true =>
    rw [hfa] at hfinite
    cases a with
    | int n =>
      cases b with
      | int m => simpa [same, asInt?] using hint
      | _ => simp [asInt?] at hint
    | real x =>
      cases b with
      | real y =>
        have hxy := Binary64.render_injective keyLayout (of_decide_eq_true ha) (of_decide_eq_true hb)
          (Option.some.inj (hsa.trans hsb.symm))
        simp [same, sameReal, hxy]
      | int m => simp [asInt?] at hint
      | _ => simp [isFinite] at hfinite
    | _ => simp [isFinite] at hfa

/-- **Two keys are written as one text only where they are one key, or one is a text that spells the
other.** -/
theorem same_of_keyText?_eq {a b : Tree} (ha : a.isWellFormed = true) (hb : b.isWellFormed = true)
    (htext : a.isText = b.isText) {s : String} (hsa : keyText? a = some s)
    (hsb : keyText? b = some s) : a.same b = true := by
  cases hta : a.isText with
  | false => exact same_of_not_isText ha hb hta (htext.symm.trans hta) hsa hsb
  | true => exact same_of_isText hta (htext.symm.trans hta) (hsa.trans hsb.symm)

end Tree

end Yaml

end ApiContract
