import ApiContract.Proofs.Url.Form
/-!
# Reading back what was escaped

A text is written with escapes for the characters of a set. If the percent sign is one of them, then
the escapes are undone to the text as it was, and a character of the set that is none of an escape
does not occur.
-/

namespace ApiContract

namespace Utf8

/-- The percent sign is a byte of no other character. -/
theorem not_mem_encodeChar {c : Char} (h : c ≠ '%') : 37 ∉ String.utf8EncodeChar c := by
  have hnat : c.toNat ≠ 37 := fun hc => h (by rw [← Char.ofNat_toNat c, hc])
  rcases encodeChar_cases c with ⟨h₁, he⟩ | ⟨h₁, h₂, he⟩ | ⟨h₁, h₂, he⟩ | ⟨h₁, h₂, he⟩ <;> rw [he] <;>
    simp only [List.mem_cons, List.not_mem_nil, or_false, ← UInt8.toNat_inj, UInt8.toNat_ofNat',
      UInt8.reduceToNat] <;>
    omega

theorem decode?_encode (cs : List Char) : decode? (encode cs) = some cs := by
  rw [decode?, read_encode]
  induction cs with
  | nil => rfl
  | cons c cs ih => rw [List.map_cons, List.mapM_cons, ih]; rfl

end Utf8

namespace Percent

/-! ## Bytes -/

theorem decode_append_of_not_mem {front : Bytes} (h : 37 ∉ front) (bs : Bytes) :
    decode (front ++ bs) = front ++ decode bs := by
  induction front with
  | nil => rfl
  | cons b front ih =>
    rw [List.mem_cons, not_or] at h
    rw [List.cons_append, decode_cons_of_ne (Ne.symm h.1), ih h.2, List.cons_append]

theorem decode_encodeBytes (bs bs' : Bytes) :
    decode (Utf8.encode (bs.flatMap encodeByte) ++ bs') = bs ++ decode bs' := by
  induction bs with
  | nil => rfl
  | cons b bs ih =>
    rw [List.flatMap_cons, Utf8.encode_append, List.append_assoc, decode_encodeByte, ih,
      List.cons_append]

/-! ## Texts -/

variable {set : Char → Bool}

/-- Write a text, with escapes for the characters of a set. -/
def encodeText (set : Char → Bool) (s : String) : List Char := s.toList.flatMap (encodeChar set)

/-- A character is read back as its bytes, whether it was escaped or not. -/
theorem decode_encodeChar (hset : set '%' = true) (c : Char) (bs : Bytes) :
    decode (Utf8.encode (encodeChar set c) ++ bs) = String.utf8EncodeChar c ++ decode bs := by
  unfold encodeChar
  split
  · exact decode_encodeBytes _ _
  · next hc =>
    have hne : c ≠ '%' := by
      rintro rfl
      exact hc hset
    rw [Utf8.encode, List.flatMap_singleton, decode_append_of_not_mem (Utf8.not_mem_encodeChar hne)]

/-- **What was escaped is read back.** -/
theorem decodeText_encodeText (hset : set '%' = true) (s : String) :
    decodeText (encodeText set s) = s.toList := by
  have hbytes : ∀ cs : List Char, decode (Utf8.encode (cs.flatMap (encodeChar set))) =
      Utf8.encode cs := by
    intro cs
    induction cs with
    | nil => rfl
    | cons c cs ih =>
      rw [List.flatMap_cons, Utf8.encode_append, decode_encodeChar hset, ih, Utf8.encode_cons]
  rw [decodeText, encodeText, hbytes, Utf8.decode?_encode, Option.getD_some]

/-- A character that is escaped occurs only as a part of escapes. -/
theorem not_mem_encodeText {c : Char} (hset : set c = true)
    (hpart : c ≠ '%' ∧ ∀ n < 16, c ≠ hexDigit n) (s : String) : c ∉ encodeText set s := by
  have hbyte : ∀ b : UInt8, c ∉ encodeByte b := by
    intro b
    have hb : b.toNat < 256 := b.toNat_lt
    simp only [encodeByte, List.mem_cons, List.not_mem_nil, or_false, not_or]
    exact ⟨hpart.1, hpart.2 _ (by omega), hpart.2 _ (by omega)⟩
  rw [encodeText, List.mem_flatMap]
  rintro ⟨d, -, hd⟩
  unfold encodeChar at hd
  split at hd
  · obtain ⟨b, -, hb⟩ := List.mem_flatMap.mp hd
    exact hbyte b hb
  · next hnot =>
    rw [List.mem_singleton] at hd
    exact hnot (hd ▸ hset)

theorem encodeText_ne_nil {s : String} (h : s ≠ "") : encodeText set s ≠ [] := by
  obtain ⟨c, cs, hcs⟩ := List.exists_cons_of_ne_nil (mt String.toList_eq_nil_iff.mp h)
  obtain ⟨b, bs, hbytes⟩ := List.exists_cons_of_ne_nil (Utf8.encodeChar_ne_nil c)
  rw [encodeText, hcs, List.flatMap_cons, encodeChar, hbytes]
  split <;> simp [encodeByte]

end Percent

end ApiContract
