import ApiContract.Text.Utf8
/-!
# The order of texts

Texts are ordered by code point. UTF-8 writes a greater code point with a greater lead byte, or
behind the same bytes with a greater one, so the order is also that of the bytes.
-/

namespace ApiContract

namespace Utf8

/-- The bytes of a character: its bits in groups of six, behind a lead byte that tells how many
groups there are. -/
theorem encodeChar_cases (c : Char) :
    (c.toNat < 0x80 ∧ String.utf8EncodeChar c = [UInt8.ofNat c.toNat]) ∨
    (0x80 ≤ c.toNat ∧ c.toNat < 0x800 ∧ String.utf8EncodeChar c =
      [UInt8.ofNat (c.toNat / 64 + 192), UInt8.ofNat (c.toNat % 64 + 128)]) ∨
    (0x800 ≤ c.toNat ∧ c.toNat < 0x10000 ∧ String.utf8EncodeChar c =
      [UInt8.ofNat (c.toNat / 64 / 64 + 224), UInt8.ofNat (c.toNat / 64 % 64 + 128),
        UInt8.ofNat (c.toNat % 64 + 128)]) ∨
    (0x10000 ≤ c.toNat ∧ c.toNat < 0x110000 ∧ String.utf8EncodeChar c =
      [UInt8.ofNat (c.toNat / 64 / 64 / 64 + 240), UInt8.ofNat (c.toNat / 64 / 64 % 64 + 128),
        UInt8.ofNat (c.toNat / 64 % 64 + 128), UInt8.ofNat (c.toNat % 64 + 128)]) := by
  have hvalid : c.toNat < 0x110000 := by
    have h := c.valid
    simp only [UInt32.isValidChar, Nat.isValidChar] at h
    show c.val.toNat < _
    omega
  unfold String.utf8EncodeChar
  rw [show c.val.toNat = c.toNat from rfl]
  simp only [Nat.div_div_eq_div_mul]
  split
  · exact Or.inl ⟨by omega, rfl⟩
  · split
    · refine Or.inr (Or.inl ⟨by omega, by omega, ?_⟩)
      rw [Nat.mod_eq_of_lt (show c.toNat / 64 < 32 by omega)]
    · split
      · refine Or.inr (Or.inr (Or.inl ⟨by omega, by omega, ?_⟩))
        rw [Nat.mod_eq_of_lt (show c.toNat / 4096 < 16 by omega)]
      · refine Or.inr (Or.inr (Or.inr ⟨by omega, hvalid, ?_⟩))
        rw [Nat.mod_eq_of_lt (show c.toNat / 262144 < 8 by omega)]

theorem encodeChar_ne_nil (c : Char) : String.utf8EncodeChar c ≠ [] := by
  rcases encodeChar_cases c with ⟨-, h⟩ | ⟨-, -, h⟩ | ⟨-, -, h⟩ | ⟨-, -, h⟩ <;> simp [h]

/-- The bytes of a lesser character are lesser, whatever stands behind. -/
theorem encodeChar_append_lt {c d : Char} (h : c < d) (bs bs' : Bytes) :
    String.utf8EncodeChar c ++ bs < String.utf8EncodeChar d ++ bs' := by
  have hcd : c.toNat < d.toNat := UInt32.lt_iff_toNat_lt.mp h
  generalize hp : (bs < bs') = p
  -- with more groups the lead byte is greater; with as many, the first group that differs
  rcases encodeChar_cases c with ⟨h₁, hc⟩ | ⟨h₁, h₂, hc⟩ | ⟨h₁, h₂, hc⟩ | ⟨h₁, h₂, hc⟩ <;>
    rcases encodeChar_cases d with ⟨h₃, hd⟩ | ⟨h₃, h₄, hd⟩ | ⟨h₃, h₄, hd⟩ | ⟨h₃, h₄, hd⟩ <;>
    rw [hc, hd] <;>
    simp only [List.cons_append, List.nil_append, List.cons_lt_cons_iff, UInt8.lt_iff_toNat_lt,
      ← UInt8.toNat_inj, UInt8.toNat_ofNat', hp] <;>
    omega

theorem encode_cons (c : Char) (cs : List Char) :
    encode (c :: cs) = String.utf8EncodeChar c ++ encode cs := rfl

theorem encode_lt_encode {cs ds : List Char} (h : cs < ds) : encode cs < encode ds := by
  induction cs generalizing ds with
  | nil =>
    cases ds with
    | nil => exact absurd h (List.lt_irrefl _)
    | cons d ds =>
      rw [encode_cons]
      cases hd : String.utf8EncodeChar d with
      | nil => exact absurd hd (encodeChar_ne_nil d)
      | cons b bs => exact List.nil_lt_cons _ _
  | cons c cs ih =>
    cases ds with
    | nil => exact absurd h (List.not_lt_nil _)
    | cons d ds =>
      rw [encode_cons, encode_cons]
      rcases List.cons_lt_cons_iff.mp h with hcd | ⟨rfl, hlt⟩
      · exact encodeChar_append_lt hcd _ _
      · exact List.append_left_lt (ih hlt)

/-- **The order of texts is the order of their bytes.** -/
theorem encode_lt_encode_iff {cs ds : List Char} : encode cs < encode ds ↔ cs < ds := by
  refine ⟨fun h => ?_, encode_lt_encode⟩
  by_cases hlt : cs < ds
  · exact hlt
  · rcases List.le_iff_lt_or_eq.mp (List.not_lt.mp hlt) with hgt | rfl
    · exact absurd (encode_lt_encode hgt) (List.lt_asymm h)
    · exact absurd h (List.lt_irrefl _)

end Utf8

namespace Text

/-- Of two texts that differ one is smaller. -/
theorem lt_or_gt_of_ne {s t : String} (h : s ≠ t) : s < t ∨ t < s := by
  by_cases hlt : s < t
  · exact Or.inl hlt
  · exact Or.inr (String.not_le.mp fun hle => h (String.le_antisymm hle (String.not_lt.mp hlt)))

/-- Whether a text is the least of those with a property, in the order of bytes. -/
def IsLeast (p : String → Prop) (s : String) : Prop :=
  p s ∧ ∀ t, p t → Utf8.encode s.toList ≤ Utf8.encode t.toList

theorem isLeast_iff {p : String → Prop} {s : String} :
    IsLeast p s ↔ p s ∧ ∀ t, p t → ¬ t < s := by
  unfold IsLeast
  simp only [← List.not_lt, Utf8.encode_lt_encode_iff, ← String.lt_iff]

/-- There is one least text. -/
theorem IsLeast.unique {p : String → Prop} {s t : String} (hs : IsLeast p s) (ht : IsLeast p t) :
    s = t :=
  String.le_antisymm ((isLeast_iff.mp hs).2 t ht.1) ((isLeast_iff.mp ht).2 s hs.1)

end Text

end ApiContract
