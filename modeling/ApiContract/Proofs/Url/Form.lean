import ApiContract.Proofs.Text.Utf8
import ApiContract.Url.Query
/-!
# Reading a form that was written

Each byte of a component is written as itself, as a plus or as an escape, and is read back as that
byte; none of the characters that are written ends a component, a pair or a form. So the pairs of a
form are found again, and each component is the text it was.
-/

namespace ApiContract

/-! ## Joined texts -/

namespace Text

/-- Cutting at a separator cuts what stands before it and what stands behind it. -/
theorem splitOn_append (sep : Char) (front rest : List Char) :
    splitOn sep (front ++ sep :: rest) = splitOn sep front ++ splitOn sep rest := by
  induction front with
  | nil => exact splitOn_cons_self sep rest
  | cons c front ih =>
    rw [List.cons_append]
    by_cases hc : c = sep
    · subst hc
      rw [splitOn_cons_self, splitOn_cons_self, ih]
      rfl
    · simp only [splitOn, if_neg hc, ih]
      cases hfront : splitOn sep front with
      | nil => exact absurd hfront (splitOn_ne_nil sep front)
      | cons piece pieces => rfl

/-- Cutting what was joined cuts each of the texts. -/
theorem splitOn_intercalate_eq_flatMap (sep : Char) {texts : List (List Char)} (hne : texts ≠ []) :
    splitOn sep ([sep].intercalate texts) = texts.flatMap (splitOn sep) := by
  induction texts with
  | nil => exact absurd rfl hne
  | cons text texts ih =>
    cases texts with
    | nil => rw [List.intercalate_singleton, List.flatMap_singleton]
    | cons next rest =>
      rw [List.intercalate_cons_cons, List.append_assoc, List.singleton_append, splitOn_append,
        ih (List.cons_ne_nil _ _), ← List.flatMap_cons]

/-- Cutting at a separator undoes joining with it. -/
theorem splitOn_intercalate {sep : Char} {pieces : List (List Char)} (hne : pieces ≠ [])
    (h : ∀ piece ∈ pieces, sep ∉ piece) : splitOn sep ([sep].intercalate pieces) = pieces := by
  have hwhole : ∀ piece ∈ pieces, splitOn sep piece = [piece] :=
    fun piece hpiece => splitOn_of_not_mem (h piece hpiece)
  rw [splitOn_intercalate_eq_flatMap sep hne, List.flatMap_def, List.map_congr_left hwhole,
    ← List.flatMap_def, List.flatMap_singleton']

/-- Every piece is empty exactly if there are only separators. -/
theorem forall_splitOn_eq_nil_iff {sep : Char} {cs : List Char} :
    (∀ piece ∈ splitOn sep cs, piece = []) ↔ ∀ c ∈ cs, c = sep := by
  induction cs with
  | nil => simp
  | cons c cs ih =>
    rw [List.forall_mem_cons, ← ih]
    by_cases hc : c = sep
    · subst hc
      rw [splitOn_cons_self, List.forall_mem_cons]
      simp
    · -- the first piece starts with the character
      refine iff_of_false ?_ fun h => hc h.1
      simp only [splitOn, if_neg hc]
      split <;> simp

theorem not_mem_intercalate {sep c : Char} {pieces : List (List Char)} (hc : c ≠ sep)
    (h : ∀ piece ∈ pieces, c ∉ piece) : c ∉ [sep].intercalate pieces := by
  induction pieces with
  | nil => exact List.not_mem_nil
  | cons piece pieces ih =>
    obtain ⟨hpiece, hpieces⟩ := List.forall_mem_cons.mp h
    cases pieces with
    | nil => rwa [List.intercalate_singleton]
    | cons next rest =>
      rw [List.intercalate_cons_cons, List.append_assoc, List.singleton_append, List.mem_append,
        List.mem_cons]
      rintro (hm | rfl | hm)
      · exact hpiece hm
      · exact hc rfl
      · exact ih hpieces hm

theorem splitOnce?_append {sep : Char} {front : List Char} (h : sep ∉ front) (rest : List Char) :
    splitOnce? sep (front ++ sep :: rest) = some (front, rest) := by
  induction front with
  | nil => simp [splitOnce?]
  | cons c front ih =>
    rw [List.mem_cons, not_or] at h
    obtain ⟨hc, hfront⟩ := h
    rw [List.cons_append, splitOnce?, if_neg (Ne.symm hc), ih hfront]
    rfl

/-- A text has no separator, or is cut at the first. -/
theorem splitOnce?_cases (sep : Char) (cs : List Char) :
    (sep ∉ cs ∧ splitOnce? sep cs = none) ∨
      ∃ front rest, cs = front ++ sep :: rest ∧ sep ∉ front ∧
        splitOnce? sep cs = some (front, rest) := by
  by_cases h : sep ∈ cs
  · obtain ⟨front, rest, rfl, hfront⟩ := List.eq_append_cons_of_mem h
    exact Or.inr ⟨front, rest, rfl, hfront, splitOnce?_append hfront rest⟩
  · refine Or.inl ⟨h, ?_⟩
    induction cs with
    | nil => rfl
    | cons c cs ih =>
      rw [List.mem_cons, not_or] at h
      rw [splitOnce?, if_neg (Ne.symm h.1), ih h.2]
      rfl

end Text

/-! ## Escapes -/

namespace Utf8

theorem toNat_charOfNat : ∀ {n : Nat}, n < 0x80 → (Char.ofNat n).toNat = n := by decide

theorem encode_append (cs ds : List Char) : encode (cs ++ ds) = encode cs ++ encode ds :=
  List.flatMap_append

theorem encodeChar_of_lt {c : Char} (h : c.toNat < 0x80) :
    String.utf8EncodeChar c = [UInt8.ofNat c.toNat] := by
  rcases encodeChar_cases c with ⟨-, he⟩ | ⟨h', -⟩ | ⟨h', -⟩ | ⟨h', -⟩
  · exact he
  all_goals omega

end Utf8

namespace Percent

theorem hexDigit_lt : ∀ n < 16, (hexDigit n).toNat < 0x80 := by decide

theorem hexValue?_hexDigit : ∀ n < 16, hexValue? (UInt8.ofNat (hexDigit n).toNat) = some n := by
  decide

/-- An escape is three bytes. -/
theorem encode_encodeByte (b : UInt8) : Utf8.encode (encodeByte b) =
    [37, UInt8.ofNat (hexDigit (b.toNat / 16)).toNat,
      UInt8.ofNat (hexDigit (b.toNat % 16)).toNat] := by
  have hb : b.toNat < 256 := b.toNat_lt
  simp only [encodeByte, Utf8.encode, List.flatMap_cons, List.flatMap_nil,
    Utf8.encodeChar_of_lt (hexDigit_lt _ (show b.toNat / 16 < 16 by omega)),
    Utf8.encodeChar_of_lt (hexDigit_lt _ (show b.toNat % 16 < 16 by omega)),
    Utf8.encodeChar_of_lt (show '%'.toNat < 0x80 by decide)]
  rfl

/-- A byte that starts no escape stands for itself. -/
theorem decode_cons_of_ne {b : UInt8} (h : b ≠ 37) (bs : Bytes) :
    decode (b :: bs) = b :: decode bs := by
  match bs with
  | [] => rfl
  | [_] => rfl
  | _ :: _ :: _ => rw [decode, if_neg h]

/-- **An escape is undone.** -/
theorem decode_encodeByte (b : UInt8) (bs : Bytes) :
    decode (Utf8.encode (encodeByte b) ++ bs) = b :: decode bs := by
  have hb : b.toNat < 256 := b.toNat_lt
  have hescaped : escaped? (UInt8.ofNat (hexDigit (b.toNat / 16)).toNat)
      (UInt8.ofNat (hexDigit (b.toNat % 16)).toNat) = some b := by
    rw [escaped?, hexValue?_hexDigit _ (by omega), hexValue?_hexDigit _ (by omega)]
    simp only [show 16 * (b.toNat / 16) + b.toNat % 16 = b.toNat by omega, UInt8.ofNat_toNat]
  rw [encode_encodeByte, List.cons_append, List.cons_append, List.cons_append, List.nil_append,
    decode, if_pos rfl, hescaped]

end Percent

/-! ## Components -/

namespace Query

/-- How a byte of a component is written. -/
def writtenByte (b : UInt8) : List Char :=
  if b = 32 then ['+'] else if isPlain b then [Char.ofNat b.toNat] else Percent.encodeByte b

theorem encodeComponent_eq (s : String) :
    encodeComponent s = (Utf8.encode s.toList).flatMap writtenByte := rfl

/-- The bytes that are written as they are: of ASCII, and none that means something else. -/
theorem toNat_of_isPlain {b : UInt8} (h : isPlain b = true) :
    b.toNat < 0x80 ∧ b.toNat ∉ [35, 37, 38, 43, 61] := by
  simp only [isPlain, Bool.or_eq_true, Bool.and_eq_true, decide_eq_true_eq] at h
  simp only [List.mem_cons, List.not_mem_nil, or_false]
  omega

theorem encode_of_isPlain {b : UInt8} (h : isPlain b = true) :
    Utf8.encode [Char.ofNat b.toNat] = [b] := by
  obtain ⟨hlt, -⟩ := toNat_of_isPlain h
  have hchar : (Char.ofNat b.toNat).toNat = b.toNat := Utf8.toNat_charOfNat hlt
  rw [Utf8.encode, List.flatMap_singleton, Utf8.encodeChar_of_lt (by omega), hchar,
    UInt8.ofNat_toNat]

theorem plusToBlank_append (bs bs' : Bytes) :
    plusToBlank (bs ++ bs') = plusToBlank bs ++ plusToBlank bs' := List.map_append

/-- There is no plus in an escape. -/
theorem plusToBlank_encodeByte (b : UInt8) :
    plusToBlank (Utf8.encode (Percent.encodeByte b)) = Utf8.encode (Percent.encodeByte b) := by
  have hb : b.toNat < 256 := b.toNat_lt
  have hdigit : ∀ n < 16, UInt8.ofNat (Percent.hexDigit n).toNat ≠ 43 := by decide
  rw [Percent.encode_encodeByte]
  simp only [plusToBlank, List.map_cons, List.map_nil,
    if_neg (hdigit _ (show b.toNat / 16 < 16 by omega)),
    if_neg (hdigit _ (show b.toNat % 16 < 16 by omega))]
  rfl

/-- **A byte that was written is read back.** -/
theorem decode_writtenByte (b : UInt8) (bs : Bytes) :
    Percent.decode (plusToBlank (Utf8.encode (writtenByte b) ++ bs)) =
      b :: Percent.decode (plusToBlank bs) := by
  rw [plusToBlank_append]
  unfold writtenByte
  split
  · next hblank =>
    subst hblank
    exact Percent.decode_cons_of_ne (by decide) _
  · split
    · next hplain =>
      obtain ⟨-, hnone⟩ := toNat_of_isPlain hplain
      have h37 : b ≠ 37 := by
        rintro rfl
        exact hnone (by decide)
      have h43 : b ≠ 43 := by
        rintro rfl
        exact hnone (by decide)
      rw [encode_of_isPlain hplain, plusToBlank, List.map_singleton, if_neg h43,
        List.singleton_append, Percent.decode_cons_of_ne h37]
    · rw [plusToBlank_encodeByte, Percent.decode_encodeByte]

theorem decode_writtenBytes (bs : Bytes) :
    Percent.decode (plusToBlank (Utf8.encode (bs.flatMap writtenByte))) = bs := by
  induction bs with
  | nil => rfl
  | cons b bs ih => rw [List.flatMap_cons, Utf8.encode_append, decode_writtenByte, ih]

/-- **A component that was written is read back.** -/
theorem decodeComponent_encodeComponent (s : String) :
    decodeComponent (encodeComponent s) = s := by
  rw [decodeComponent, encodeComponent_eq, decode_writtenBytes, Utf8.decodeLossy_encode,
    String.ofList_toList]

/-! ## Forms -/

/-- The characters that end a component, a pair or a form. -/
def delimiters : List Char := ['&', '=', '#']

theorem not_mem_writtenByte {c : Char} (hc : c ∈ delimiters) (b : UInt8) : c ∉ writtenByte b := by
  have hb : b.toNat < 256 := b.toNat_lt
  have hdigit : ∀ n < 16, Percent.hexDigit n ∉ delimiters := by decide
  unfold writtenByte
  split
  · rw [List.mem_singleton]
    rintro rfl
    exact absurd hc (by decide)
  · split
    · next h =>
      rw [List.mem_singleton]
      rintro rfl
      obtain ⟨hlt, hnone⟩ := toNat_of_isPlain h
      have hnot : ∀ n < 0x80, n ∉ [35, 37, 38, 43, 61] → Char.ofNat n ∉ delimiters := by decide
      exact hnot _ hlt hnone hc
    · simp only [Percent.encodeByte, List.mem_cons, List.not_mem_nil, or_false]
      rintro (rfl | rfl | rfl)
      · exact absurd hc (by decide)
      · exact hdigit _ (by omega) hc
      · exact hdigit _ (by omega) hc

theorem not_mem_encodeComponent {c : Char} (hc : c ∈ delimiters) (s : String) :
    c ∉ encodeComponent s := by
  rw [encodeComponent_eq, List.mem_flatMap]
  rintro ⟨b, -, hb⟩
  exact not_mem_writtenByte hc b hb

/-- How a pair is written. -/
def writtenPair (pair : String × String) : List Char :=
  encodeComponent pair.1 ++ '=' :: encodeComponent pair.2

theorem decodePair_writtenPair (pair : String × String) : decodePair (writtenPair pair) = pair := by
  rw [decodePair, writtenPair,
    Text.splitOnce?_append (not_mem_encodeComponent (by decide) pair.1)]
  simp only [decodeComponent_encodeComponent]

theorem not_mem_writtenPair {c : Char} (hc : c ∈ delimiters) (heq : c ≠ '=')
    (pair : String × String) : c ∉ writtenPair pair := by
  rw [writtenPair, List.mem_append, List.mem_cons]
  rintro (h | h | h)
  · exact not_mem_encodeComponent hc _ h
  · exact heq h
  · exact not_mem_encodeComponent hc _ h

theorem encodeForm_eq (pairs : List (String × String)) :
    encodeForm pairs = ['&'].intercalate (pairs.map writtenPair) := rfl

/-- There is no number sign in a form. -/
theorem not_mem_encodeForm (pairs : List (String × String)) : '#' ∉ encodeForm pairs := by
  rw [encodeForm_eq]
  refine Text.not_mem_intercalate (by decide) ?_
  rw [List.forall_mem_map]
  exact fun pair _ => not_mem_writtenPair (by decide) (by decide) pair

/-- **A form that was written is read back.** -/
theorem decodeForm_encodeForm (pairs : List (String × String)) :
    decodeForm (encodeForm pairs) = pairs := by
  cases pairs with
  | nil => rfl
  | cons pair pairs =>
    have hamp : ∀ piece ∈ (pair :: pairs).map writtenPair, '&' ∉ piece := by
      rw [List.forall_mem_map]
      exact fun pair _ => not_mem_writtenPair (by decide) (by decide) pair
    have hnonempty : ∀ piece ∈ (pair :: pairs).map writtenPair, (!piece.isEmpty) = true := by
      rw [List.forall_mem_map]
      intro pair _
      rw [writtenPair]
      cases encodeComponent pair.1 <;> rfl
    rw [decodeForm, encodeForm_eq, Text.splitOn_intercalate (by simp) hamp,
      List.filter_eq_self.mpr hnonempty, List.map_map]
    refine (List.map_congr_left fun pair _ => ?_).trans (List.map_id _)
    exact decodePair_writtenPair pair

/-- A form without pairs holds separators alone. -/
theorem decodeForm_eq_nil_iff {cs : List Char} : decodeForm cs = [] ↔ ∀ c ∈ cs, c = '&' := by
  rw [decodeForm, List.map_eq_nil_iff, List.filter_eq_nil_iff, ← Text.forall_splitOn_eq_nil_iff]
  refine forall₂_congr fun piece _ => ?_
  cases piece <;> simp

end Query

end ApiContract
