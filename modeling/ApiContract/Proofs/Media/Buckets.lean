import ApiContract.Proofs.Media.Spellings
/-!
# The buckets of headers

The bucket of a header is what is left of it when the boundary is cut, if its first parameter is
blank, and else its media type. So every text that keeps its first line is a bucket, up to blanks
and to a first parameter, and two headers with one bucket have the same media type.
-/

namespace ApiContract

namespace Text

/-- What stands on the first line of a text. -/
def firstLine (cs : List Char) : List Char := cs.takeWhile (· ≠ '\n')

theorem firstLine_isPrefix (cs : List Char) : firstLine cs <+: cs := List.takeWhile_prefix _

/-- What is written behind a text stands on its first line only if there is no other. -/
theorem firstLine_append (front rest : List Char) :
    firstLine (front ++ rest) = firstLine front ∨
      firstLine front = front ∧ firstLine (front ++ rest) = front ++ firstLine rest := by
  unfold firstLine
  rw [List.takeWhile_append]
  split
  · next hlength => exact Or.inr ⟨(firstLine_isPrefix front).eq_of_length hlength, rfl⟩
  · exact Or.inl rfl

theorem firstLine_append_isPrefix (front rest : List Char) :
    firstLine front <+: firstLine (front ++ rest) := by
  rcases firstLine_append front rest with h | ⟨hfront, h⟩
  · exact h ▸ List.prefix_rfl
  · rw [hfront, h]
    exact List.prefix_append front _

/-- Nothing is on the first line when it was dropped. -/
theorem firstLine_dropWhile (cs : List Char) : firstLine (cs.dropWhile (· ≠ '\n')) = [] := by
  induction cs with
  | nil => rfl
  | cons c cs ih =>
    rw [List.dropWhile_cons]
    split
    · exact ih
    · next hc => exact List.takeWhile_cons_of_neg hc

/-- A text is its first line, or has more lines behind that. -/
theorem firstLine_cases (cs : List Char) :
    firstLine cs = cs ∨ ∃ rest, cs = firstLine cs ++ '\n' :: rest := by
  induction cs with
  | nil => exact Or.inl rfl
  | cons c cs ih =>
    by_cases hc : c = '\n'
    · subst hc
      exact Or.inr ⟨cs, by simp [firstLine]⟩
    · have hline : firstLine (c :: cs) = c :: firstLine cs := by simp [firstLine, hc]
      rw [hline]
      rcases ih with h | ⟨rest, h⟩
      · exact Or.inl (congrArg _ h)
      · exact Or.inr ⟨rest, congrArg _ h⟩

theorem strip?_eq_some_iff {front cs rest : List Char} :
    strip? front cs = some rest ↔ cs = front ++ rest := by
  induction front generalizing cs with
  | nil => simp [strip?]
  | cons c front ih =>
    cases cs with
    | nil => simp [strip?]
    | cons d cs =>
      unfold strip?
      split
      · next h => rw [ih, List.cons_append, List.cons.injEq, and_iff_right h.symm]
      · next h => simp [Ne.symm h]

theorem isSome_strip?_iff {front cs : List Char} : (strip? front cs).isSome = true ↔ front <+: cs := by
  rw [Option.isSome_iff_exists]
  exact exists_congr fun rest => strip?_eq_some_iff.trans eq_comm

/-- Trimming around a character that is no white space. -/
theorem trim_append_cons (front : List Char) {c : Char} (hc : isWhite c = false)
    (rest : List Char) :
    trim (front ++ c :: rest) = front.dropWhile isWhite ++ c :: dropEnd isWhite rest := by
  rw [trim, dropWhile_append_cons front hc, dropEnd_append_cons _ hc]

/-- A text with a character in it that is no white space is not blank. -/
theorem trim_append_cons_ne_nil (front : List Char) {c : Char} (hc : isWhite c = false)
    (rest : List Char) : trim (front ++ c :: rest) ≠ [] := by
  simp [trim_append_cons front hc]

/-- A text has no separator, or one, or two and more. -/
theorem splitOn_cases (sep : Char) (cs : List Char) :
    sep ∉ cs ∨
      (∃ first second, cs = first ++ sep :: second ∧ sep ∉ first ∧ sep ∉ second) ∨
      ∃ first second rest, cs = first ++ sep :: (second ++ sep :: rest) ∧ sep ∉ first ∧
        sep ∉ second := by
  by_cases h : sep ∈ cs
  · obtain ⟨first, cs, rfl, hfirst⟩ := List.eq_append_cons_of_mem h
    by_cases h : sep ∈ cs
    · obtain ⟨second, rest, rfl, hsecond⟩ := List.eq_append_cons_of_mem h
      exact Or.inr (Or.inr ⟨first, second, rest, rfl, hfirst, hsecond⟩)
    · exact Or.inr (Or.inl ⟨first, cs, rfl, hfirst, h⟩)
  · exact Or.inl h

/-- The first piece of a text. -/
theorem splitOn_head (sep : Char) (cs : List Char) :
    (splitOn sep cs)[0]?.getD [] = before (· = sep) cs := by
  by_cases h : sep ∈ cs
  · obtain ⟨first, rest, rfl, hfirst⟩ := List.eq_append_cons_of_mem h
    rw [splitOn_append_cons hfirst, before_append_of_head first (by simp), before_of_not_mem hfirst]
    rfl
  · rw [splitOn_of_not_mem h, before_of_not_mem h]
    rfl

end Text

namespace ContentType

open Text

/-! ## Cutting the boundary -/

/-- Whether a boundary stands behind a semicolon. -/
def NamesBoundary (cs : List Char) : Prop := "boundary".toList <+: cs.dropWhile isWhite

instance (cs : List Char) : Decidable (NamesBoundary cs) := inferInstanceAs (Decidable (_ <+: _))

theorem cutBoundary_cons_of_names {cs : List Char} (h : NamesBoundary cs) :
    cutBoundary (';' :: cs) = (cs.dropWhile isWhite).dropWhile (· ≠ '\n') := by
  rw [cutBoundary, if_pos]
  simpa only [decide_true, Bool.true_and, isSome_strip?_iff, NamesBoundary] using h

theorem cutBoundary_cons_of_not {c : Char} {cs : List Char} (h : ¬ (c = ';' ∧ NamesBoundary cs)) :
    cutBoundary (c :: cs) = c :: cutBoundary cs := by
  rw [cutBoundary, if_neg]
  simpa only [Bool.and_eq_true, decide_eq_true_iff, isSome_strip?_iff, NamesBoundary] using h

theorem NamesBoundary.of_isPrefix {front cs : List Char} (h : NamesBoundary front)
    (hfront : front <+: cs) : NamesBoundary cs := by
  obtain ⟨rest, rfl⟩ := hfront
  unfold NamesBoundary at h ⊢
  induction front with
  | nil => simp at h
  | cons c front ih =>
    rw [List.dropWhile_cons] at h
    rw [List.cons_append, List.dropWhile_cons]
    split at h
    · next hc => rw [if_pos hc]; exact ih h
    · next hc => rw [if_neg hc]; exact h.trans (List.prefix_append (c :: front) rest)

/-- A character that is not in the name of a boundary, with more behind it, makes no boundary. -/
theorem NamesBoundary.of_append_cons {front rest : List Char} {c : Char} (hc : isWhite c = false)
    (hname : c ∉ "boundary".toList) (h : NamesBoundary (front ++ c :: rest)) :
    NamesBoundary front := by
  rw [NamesBoundary, dropWhile_append_cons _ hc] at h
  obtain ⟨more, h⟩ := h
  rcases List.append_eq_append_iff.mp h with ⟨between, hfront, -⟩ | ⟨between, hbehind, hmore⟩
  · exact ⟨between, hfront.symm⟩
  · cases between with
    | nil => exact ⟨[], by rw [hbehind]; simp⟩
    | cons d between =>
      obtain rfl := (List.cons.inj hmore).1
      exact absurd (hbehind ▸ List.mem_append_right _ List.mem_cons_self) hname

/-- Whether a text holds no boundary. -/
def IsUncut (cs : List Char) : Prop := cutBoundary cs = cs

instance (cs : List Char) : Decidable (IsUncut cs) := inferInstanceAs (Decidable (_ = _))

theorem isUncut_nil : IsUncut [] := rfl

theorem isUncut_cons_iff {c : Char} {cs : List Char} :
    IsUncut (c :: cs) ↔ ¬ (c = ';' ∧ NamesBoundary cs) ∧ IsUncut cs := by
  by_cases h : c = ';' ∧ NamesBoundary cs
  · obtain ⟨rfl, hname⟩ := h
    have hle := ((List.dropWhile_suffix (l := cs.dropWhile isWhite) (· ≠ '\n')).trans
      (List.dropWhile_suffix isWhite)).length_le
    simp only [IsUncut, cutBoundary_cons_of_names hname, hname, and_self, not_true, false_and,
      iff_false]
    intro h
    rw [h, List.length_cons] at hle
    omega
  · rw [IsUncut, cutBoundary_cons_of_not h]
    simp [h, IsUncut]

/-- What begins a text without a boundary has none. -/
theorem IsUncut.of_isPrefix {front cs : List Char} (h : IsUncut cs) (hfront : front <+: cs) :
    IsUncut front := by
  induction front generalizing cs with
  | nil => exact isUncut_nil
  | cons c front ih =>
    obtain ⟨rest, rfl⟩ := hfront
    obtain ⟨hname, hrest⟩ := isUncut_cons_iff.mp h
    refine isUncut_cons_iff.mpr ⟨fun hc => hname ⟨hc.1, hc.2.of_isPrefix ?_⟩, ih hrest ?_⟩ <;>
      exact List.prefix_append front rest

/-- The first boundary of a text stands behind its part without one. -/
theorem IsUncut.cutBoundary_append_cons {front rest : List Char} {c : Char} (h : IsUncut front)
    (hc : isWhite c = false) (hname : c ∉ "boundary".toList) :
    cutBoundary (front ++ c :: rest) = front ++ cutBoundary (c :: rest) := by
  induction front with
  | nil => rfl
  | cons b front ih =>
    obtain ⟨hnot, hfront⟩ := isUncut_cons_iff.mp h
    rw [List.cons_append, cutBoundary_cons_of_not, ih hfront, List.cons_append]
    exact fun hb => hnot ⟨hb.1, hb.2.of_append_cons hc hname⟩

/-- **Cutting drops the first boundary**: its semicolon, white space of any kind, its name, and what
stands behind that on the same line. -/
theorem IsUncut.cutBoundary_append_boundary {front white : List Char} (h : IsUncut front)
    (hwhite : ∀ c ∈ white, isWhite c = true) (rest : List Char) :
    cutBoundary (front ++ ';' :: (white ++ ("boundary".toList ++ rest))) =
      front ++ rest.dropWhile (· ≠ '\n') := by
  have hdrop : (white ++ ("boundary".toList ++ rest)).dropWhile isWhite =
      "boundary".toList ++ rest := by
    rw [List.dropWhile_append_of_pos hwhite]
    exact List.dropWhile_cons_of_neg (by decide)
  have hname : NamesBoundary (white ++ ("boundary".toList ++ rest)) := by
    rw [NamesBoundary, hdrop]
    exact List.prefix_append _ _
  have hline : ∀ c ∈ "boundary".toList, decide (c ≠ '\n') = true :=
    List.all_eq_true.mp (by decide)
  rw [h.cutBoundary_append_cons (by decide) (by decide), cutBoundary_cons_of_names hname, hdrop,
    List.dropWhile_append_of_pos hline]

/-- The name of a boundary may stand on a line of its own, which is dropped with the semicolon. -/
example : cutBoundary "application/json ;\nboundary=b\n; v=1".toList =
    "application/json \n; v=1".toList := by decide

/-- On the first line, cutting leaves the part before the boundary. -/
theorem firstLine_cutBoundary (cs : List Char) :
    firstLine (cutBoundary cs) <+: cs ∧ IsUncut (firstLine (cutBoundary cs)) := by
  induction cs with
  | nil => exact ⟨List.prefix_rfl, isUncut_nil⟩
  | cons c cs ih =>
    obtain ⟨hfront, huncut⟩ := ih
    by_cases h : c = ';' ∧ NamesBoundary cs
    · obtain ⟨rfl, hname⟩ := h
      have hline : firstLine (cutBoundary (';' :: cs)) = [] := by
        rw [cutBoundary_cons_of_names hname, firstLine_dropWhile]
      rw [hline]
      exact ⟨List.nil_prefix, isUncut_nil⟩
    · rw [cutBoundary_cons_of_not h, firstLine, List.takeWhile_cons]
      split
      · exact ⟨List.cons_prefix_cons.mpr ⟨rfl, hfront⟩,
          isUncut_cons_iff.mpr ⟨fun hc => h ⟨hc.1, hc.2.of_isPrefix hfront⟩, huncut⟩⟩
      · exact ⟨List.nil_prefix, isUncut_nil⟩

/-- **A text is what is left of a header** when its first line holds no boundary and does not start
with white space. -/
theorem exists_header {text : List Char} {last : Char}
    (hstart : (firstLine (text ++ [last])).dropWhile isWhite = firstLine (text ++ [last]))
    (huncut : IsUncut (firstLine (text ++ [last]))) (hlast : isWhite last = false) :
    ∃ header raw, parse (some header) = some (partsOf raw) ∧ cutBoundary raw = text ++ [last] := by
  rcases firstLine_cases (text ++ [last]) with hline | ⟨rest, hline⟩
  · rw [hline] at hstart huncut
    exact ⟨_, _, parse_of_trim (trim_concat hstart hlast) (by simp), huncut⟩
  · -- the header names a boundary at the end of its first line
    generalize firstLine (text ++ [last]) = line at hstart huncut hline
    have hraw : ∃ front, line ++ ';' :: ("boundary".toList ++ '\n' :: rest) = front ++ [last] := by
      rcases List.eq_nil_or_concat rest with rfl | ⟨rest, c, rfl⟩
      · have hnewline : last = '\n' := by
          have h := congrArg List.getLast? hline
          simpa using h
        subst hnewline
        exact absurd hlast (by decide)
      · have hc : last = c := by
          have h := congrArg List.getLast? hline
          simpa [List.getLast?_cons] using h
        exact ⟨line ++ ';' :: ("boundary".toList ++ '\n' :: rest), by simp [hc]⟩
    obtain ⟨front, hfront⟩ := hraw
    have hsemicolon := dropWhile_append_cons_of_start hstart (by decide : isWhite ';' = false)
      ("boundary".toList ++ '\n' :: rest)
    rw [hfront] at hsemicolon
    refine ⟨_, _, parse_of_trim (trim_concat hsemicolon hlast) (by simp), ?_⟩
    have hwhite : ∀ c ∈ ([] : List Char), isWhite c = true := List.forall_mem_nil _
    have hcut := huncut.cutBoundary_append_boundary hwhite ('\n' :: rest)
    rw [← hfront, hline]
    exact hcut.trans (congrArg (line ++ ·) (List.dropWhile_cons_of_neg (by decide)))

/-! ## Buckets -/

/-- The first parameter of a text, without blanks at its ends. -/
def firstParameter (cs : List Char) : List Char := trim ((splitOn ';' cs)[1]?.getD [])

theorem firstParameter_of_not_mem {cs : List Char} (h : ';' ∉ cs) : firstParameter cs = [] := by
  simp [firstParameter, splitOn_of_not_mem h]

/-- The first parameter stands behind the first semicolon and before the next. -/
theorem firstParameter_append_cons {first : List Char} (hfirst : ';' ∉ first) (rest : List Char) :
    firstParameter (first ++ ';' :: rest) = trim (before (· = ';') rest) := by
  rw [firstParameter, splitOn_append_cons hfirst, List.getElem?_cons_succ, splitOn_head]

theorem firstParameter_append_cons_cons {first : List Char} (hfirst : ';' ∉ first)
    (second rest : List Char) :
    firstParameter (first ++ ';' :: (second ++ ';' :: rest)) = trim (before (· = ';') second) := by
  rw [firstParameter_append_cons hfirst, before_append_of_head second (by simp)]

theorem charset_partsOf (raw : List Char) :
    (partsOf raw).charset = if firstParameter (cutBoundary raw) = [] then none
      else some (String.ofList (firstParameter (cutBoundary raw))) := by
  have hcharset : (partsOf raw).charset =
      if (String.ofList (firstParameter (cutBoundary raw))).isEmpty then none
        else some (String.ofList (firstParameter (cutBoundary raw))) := rfl
  rw [hcharset]
  cases firstParameter (cutBoundary raw) <;> simp [String.isEmpty_iff]

/-- The bucket of a header is what is left of it, or its media type. -/
theorem bucket_partsOf (raw : List Char) :
    bucket (some (partsOf raw)) = if firstParameter (cutBoundary raw) = []
      then String.ofList (cutBoundary raw) else (partsOf raw).mediaType := by
  by_cases h : firstParameter (cutBoundary raw) = [] <;>
    simp only [bucket, equivalents, charset_partsOf, h, if_true, if_false] <;> rfl

/-- The media type of a text: what stands before the first semicolon. -/
def mediaTypeOf (cs : List Char) : List Char := trim ((splitOn ';' cs)[0]?.getD [])

/-- The media type stands before the first semicolon. -/
theorem mediaTypeOf_append_cons {first : List Char} (hfirst : ';' ∉ first) (rest : List Char) :
    mediaTypeOf (first ++ ';' :: rest) = trim first := by
  simp [mediaTypeOf, splitOn_append_cons hfirst]

theorem mediaType_partsOf_eq (raw : List Char) :
    (partsOf raw).mediaType = String.ofList (mediaTypeOf (cutBoundary raw)) := rfl

/-- The media type of a header can be read off its bucket. -/
theorem mediaTypeOf_bucket (raw : List Char) :
    mediaTypeOf (bucket (some (partsOf raw))).toList = (partsOf raw).mediaType.toList := by
  rw [bucket_partsOf]
  split
  · simp [mediaTypeOf, partsOf]
  · obtain ⟨htrim, hmem⟩ := mediaType_partsOf raw
    simp [mediaTypeOf, splitOn_of_not_mem hmem, htrim]

/-- A text that stands for a charset: it has no white space at its ends, and no semicolon. -/
structure IsCharset (charset : String) : Prop where
  trimmed : trim charset.toList = charset.toList
  notMem : ';' ∉ charset.toList
  ne_nil : charset.toList ≠ []

theorem isCharset_of_partsOf {raw : List Char} {charset : String}
    (h : (partsOf raw).charset = some charset) : IsCharset charset := by
  rw [charset_partsOf] at h
  split at h
  · cases h
  · next hne =>
    obtain rfl := Option.some.inj h
    refine ⟨by rw [String.toList_ofList]; exact trim_trim _, ?_, by simpa using hne⟩
    rw [String.toList_ofList]
    intro hmem
    have hpiece := mem_of_mem_trim hmem
    cases hget : (splitOn ';' (cutBoundary raw))[1]? with
    | none => simp [hget] at hpiece
    | some piece =>
      rw [hget] at hpiece
      exact not_mem_of_mem_splitOn (List.mem_of_getElem? hget) hpiece

/-- A text that stands for a media type: it has no white space at its ends, and no semicolon. -/
structure IsMediaType (mediaType : String) : Prop where
  trimmed : trim mediaType.toList = mediaType.toList
  notMem : ';' ∉ mediaType.toList

theorem isMediaType_partsOf (raw : List Char) : IsMediaType (partsOf raw).mediaType :=
  ⟨(mediaType_partsOf raw).1, (mediaType_partsOf raw).2⟩

/-- Every media type goes with every charset in some header. -/
theorem exists_header_of_charset {mediaType charset : String} (hmedia : IsMediaType mediaType)
    (hcharset : IsCharset charset) :
    ∃ header h, parse (some header) = some h ∧ h.mediaType = mediaType ∧
      h.charset = some charset := by
  obtain ⟨front, last, hlast⟩ : ∃ front last, charset.toList = front ++ [last] := by
    simpa using (List.eq_nil_or_concat charset.toList).resolve_left hcharset.ne_nil
  have hwhite : isWhite last = false := by
    have hself : List.rdropWhile isWhite (trim charset.toList) = trim charset.toList :=
      List.rdropWhile_idempotent isWhite _
    rw [hcharset.trimmed, List.rdropWhile_eq_self_iff] at hself
    simpa [hlast] using hself hcharset.ne_nil
  -- on a line of its own a charset may also look like a boundary
  have hline : firstLine (mediaType.toList ++ [';'] ++ '\n' :: charset.toList) <+:
      mediaType.toList ++ [';'] := by
    rcases firstLine_append (mediaType.toList ++ [';']) ('\n' :: charset.toList) with h | ⟨-, h⟩
    · exact h ▸ firstLine_isPrefix _
    · have hempty : firstLine ('\n' :: charset.toList) = [] := by simp [firstLine]
      have hwhole : firstLine (mediaType.toList ++ [';'] ++ '\n' :: charset.toList) =
          mediaType.toList ++ [';'] := by rw [h, hempty, List.append_nil]
      exact ⟨[], by rw [hwhole, List.append_nil]⟩
  have hstart : (mediaType.toList ++ [';']).dropWhile isWhite = mediaType.toList ++ [';'] :=
    dropWhile_append_cons_of_start (hmedia.trimmed ▸ dropWhile_isWhite_trim _) (by decide) []
  have huncut : IsUncut (mediaType.toList ++ [';']) := cutBoundary_append hmedia.notMem [';']
  have htext : mediaType.toList ++ [';'] ++ '\n' :: charset.toList =
      mediaType.toList ++ [';'] ++ '\n' :: front ++ [last] := by simp [hlast]
  rw [htext] at hline
  obtain ⟨header, raw, hparse, hraw⟩ :=
    exists_header (dropWhile_of_isPrefix hline hstart) (huncut.of_isPrefix hline) hwhite
  have hsecond : ';' ∉ '\n' :: charset.toList := by simp [hcharset.notMem]
  have htrim : trim ('\n' :: charset.toList) = charset.toList := hcharset.trimmed
  rw [← htext, List.append_assoc, List.singleton_append] at hraw
  refine ⟨header, partsOf raw, hparse, ?_, ?_⟩
  · rw [partsOf, hraw, splitOn_append_cons hmedia.notMem]
    simp [hmedia.trimmed]
  · rw [charset_partsOf, hraw, firstParameter_append_cons hmedia.notMem,
      before_of_not_mem hsecond, htrim,
      if_neg hcharset.ne_nil, String.ofList_toList]

/-- A header is looked up under its bucket, and then under its media type with some charset, which
is the default one when the bucket is not the media type itself. -/
theorem equivalents_partsOf (raw : List Char) :
    ∃ charset, IsCharset charset ∧
      (bucket (some (partsOf raw)) ≠ (partsOf raw).mediaType → charset = "charset=utf-8") ∧
      equivalents (some (partsOf raw)) =
        [bucket (some (partsOf raw)), (partsOf raw).mediaType ++ "; " ++ charset] := by
  refine ⟨(partsOf raw).charset.getD "charset=utf-8", ?_, fun hne => ?_, equivalents_eq _⟩
  · cases hcharset : (partsOf raw).charset with
    | some charset => exact isCharset_of_partsOf hcharset
    | none => exact ⟨by decide, by decide, by decide⟩
  · cases hcharset : (partsOf raw).charset with
    | some charset => exact absurd (by simp [bucket, equivalents, hcharset]) hne
    | none => rfl

end ContentType

end ApiContract
