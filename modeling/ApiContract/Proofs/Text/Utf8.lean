import ApiContract.Proofs.Text.ByteOrder
/-!
# Reading what was written in UTF-8

The reader takes a character back from its bytes and is then between characters again, so it takes
back every text. The bounds that a lead byte sets for the next one leave out what no character
needs: overlong forms, surrogates and code points beyond the last.
-/

namespace ApiContract

namespace Utf8

/-- A character is no surrogate. -/
theorem toNat_lt_or_gt (c : Char) :
    c.toNat < 0xD800 ∨ 0xDFFF < c.toNat ∧ c.toNat < 0x110000 := by
  have h := c.valid
  simp only [UInt32.isValidChar, Nat.isValidChar] at h
  exact h

theorem toNat_ofNat {n : Nat} (h : n < 256) : (UInt8.ofNat n).toNat = n := by
  rw [UInt8.toNat_ofNat', Nat.mod_eq_of_lt h]

/-! ## Lead bytes -/

theorem lead?_two : ∀ n < 32, 2 ≤ n →
    lead? (UInt8.ofNat (n + 192)) = some ⟨n, 1, 0x80, 0xBF⟩ := by decide

/-- Three bytes: below `0xA0` the form is overlong, above `0x9F` stand the surrogates. -/
theorem lead?_three : ∀ n < 16, lead? (UInt8.ofNat (n + 224)) =
    some ⟨n, 2, if n = 0 then 0xA0 else 0x80, if n = 13 then 0x9F else 0xBF⟩ := by decide

/-- Four bytes: below `0x90` the form is overlong, above `0x8F` there is no code point. -/
theorem lead?_four : ∀ n < 5, lead? (UInt8.ofNat (n + 240)) =
    some ⟨n, 3, if n = 0 then 0x90 else 0x80, if n = 4 then 0x8F else 0xBF⟩ := by decide

theorem read_lead {n : Nat} {p : Pending} (h : 0x80 ≤ n) (hn : n < 256)
    (hp : lead? (UInt8.ofNat n) = some p) (bs : Bytes) :
    read none (UInt8.ofNat n :: bs) = read (some p) bs := by
  rw [read, start, toNat_ofNat hn, if_neg (by omega), hp]
  rfl

/-! ## Groups of six bits -/

/-- A group within the bounds continues a character, or completes it. -/
theorem read_group {p : Pending} {n : Nat} (h : n < 64) (hlow : p.low ≤ n + 128)
    (hhigh : n + 128 ≤ p.high) (bs : Bytes) :
    read (some p) (UInt8.ofNat (n + 128) :: bs) =
      if p.owed ≤ 1 then some (Char.ofNat (64 * p.value + n)) :: read none bs
      else read (some ⟨64 * p.value + n, p.owed - 1, 0x80, 0xBF⟩) bs := by
  have hb : (UInt8.ofNat (n + 128)).toNat = n + 128 := toNat_ofNat (by omega)
  have hmod : (n + 128) % 64 = n := by omega
  rw [read, continued, within, hb, if_pos (by simp [hlow, hhigh]), hmod]
  dsimp only
  split <;> rfl

theorem read_last {v n low high : Nat} (h : n < 64) (hlow : low ≤ n + 128)
    (hhigh : n + 128 ≤ high) (bs : Bytes) :
    read (some ⟨v, 1, low, high⟩) (UInt8.ofNat (n + 128) :: bs) =
      some (Char.ofNat (64 * v + n)) :: read none bs := by
  rw [read_group h hlow hhigh, if_pos (Nat.le_refl 1)]

theorem read_more {v k n low high : Nat} (h : n < 64) (hlow : low ≤ n + 128)
    (hhigh : n + 128 ≤ high) (bs : Bytes) :
    read (some ⟨v, k + 2, low, high⟩) (UInt8.ofNat (n + 128) :: bs) =
      read (some ⟨64 * v + n, k + 1, 0x80, 0xBF⟩) bs := by
  rw [read_group h hlow hhigh, if_neg (by simp)]
  rfl

/-! ## Characters and texts -/

/-- **The reader takes a character back from its bytes.** -/
theorem read_encodeChar (c : Char) (bs : Bytes) :
    read none (String.utf8EncodeChar c ++ bs) = some c :: read none bs := by
  have hc := toNat_lt_or_gt c
  have hchar : ∀ n, n = c.toNat → Char.ofNat n = c := by
    rintro n rfl
    exact Char.ofNat_toNat c
  rcases encodeChar_cases c with ⟨h, he⟩ | ⟨h₁, h₂, he⟩ | ⟨h₁, h₂, he⟩ | ⟨h₁, h₂, he⟩ <;>
    rw [he] <;> simp only [List.cons_append, List.nil_append]
  · rw [read, start, toNat_ofNat (by omega), if_pos h, Char.ofNat_toNat]
    rfl
  · rw [read_lead (by omega) (by omega) (lead?_two _ (by omega) (by omega)),
      read_last (by omega) (by omega) (by omega), hchar _ (by omega)]
  · -- the bounds of the second byte depend on the lead
    have hlow : (if c.toNat / 64 / 64 = 0 then 0xA0 else 0x80) ≤ c.toNat / 64 % 64 + 128 := by
      split <;> omega
    have hhigh : c.toNat / 64 % 64 + 128 ≤ if c.toNat / 64 / 64 = 13 then 0x9F else 0xBF := by
      split <;> omega
    rw [read_lead (by omega) (by omega) (lead?_three _ (by omega)),
      read_more (by omega) hlow hhigh, read_last (by omega) (by omega) (by omega),
      hchar _ (by omega)]
  · have hlow : (if c.toNat / 64 / 64 / 64 = 0 then 0x90 else 0x80) ≤
        c.toNat / 64 / 64 % 64 + 128 := by
      split <;> omega
    have hhigh : c.toNat / 64 / 64 % 64 + 128 ≤
        if c.toNat / 64 / 64 / 64 = 4 then 0x8F else 0xBF := by
      split <;> omega
    rw [read_lead (by omega) (by omega) (lead?_four _ (by omega)),
      read_more (by omega) hlow hhigh, read_more (by omega) (by omega) (by omega),
      read_last (by omega) (by omega) (by omega), hchar _ (by omega)]

theorem read_encode (cs : List Char) : read none (encode cs) = cs.map some := by
  induction cs with
  | nil => rfl
  | cons c cs ih => rw [encode_cons, read_encodeChar, ih, List.map_cons]

/-- **What was written is read back.** -/
theorem decodeLossy_encode (cs : List Char) : decodeLossy (encode cs) = cs := by
  rw [decodeLossy, read_encode, List.map_map]
  exact List.map_id cs

end Utf8

end ApiContract
