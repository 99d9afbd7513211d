import ApiContract.Media.ContentType
import ApiContract.Proofs.Url.Form
import Mathlib.Data.List.DropRight
import Mathlib.Data.List.TakeWhile
/-!
# Spellings of a content type

The bucket of a header is its first equivalent. A contract pins the bucket when it declares the
bucket itself, or the bucket with the charset of the header. A header that is accepted without being
pinned has spellings without end: headers of other buckets that select the same entry.
-/

namespace ApiContract

namespace Text

/-! ## Trimming and cutting -/

@[simp] theorem trim_nil : trim [] = [] := rfl

/-- Nothing is trimmed from a text that has no white space at its ends. -/
theorem trim_concat {cs : List Char} {c : Char} (hstart : (cs ++ [c]).dropWhile isWhite = cs ++ [c])
    (hc : isWhite c = false) : trim (cs ++ [c]) = cs ++ [c] := by
  unfold trim dropEnd
  rw [hstart, List.reverse_append, List.reverse_singleton, List.singleton_append,
    List.dropWhile_cons_of_neg (by simp [hc]), List.reverse_cons, List.reverse_reverse]

/-- A trimmed text has no white space at its start. -/
theorem dropWhile_isWhite_trim (cs : List Char) : (trim cs).dropWhile isWhite = trim cs := by
  have hfront : trim cs <+: cs.dropWhile isWhite := List.rdropWhile_prefix isWhite _
  cases htrim : trim cs with
  | nil => rfl
  | cons c rest =>
    rw [htrim] at hfront
    obtain ⟨more, hmore⟩ := hfront
    have hc : isWhite c = false := by
      have hself := List.dropWhile_eq_self_iff.mp (List.dropWhile_idempotent (p := isWhite) cs)
      rw [← hmore] at hself
      simpa using hself
    exact List.dropWhile_cons_of_neg (by simp [hc])

theorem trim_trim (cs : List Char) : trim (trim cs) = trim cs := by
  have hend : dropEnd isWhite (trim cs) = trim cs := List.rdropWhile_idempotent isWhite _
  have hself : trim (trim cs) = dropEnd isWhite ((trim cs).dropWhile isWhite) := rfl
  rw [hself, dropWhile_isWhite_trim, hend]

/-- A trimmed text is a part of what it was. -/
theorem mem_of_mem_trim {c : Char} {cs : List Char} (h : c ∈ trim cs) : c ∈ cs := by
  have hfront : trim cs <+: cs.dropWhile isWhite := List.rdropWhile_prefix isWhite _
  exact (List.dropWhile_suffix isWhite).mem (hfront.mem h)

/-- A text that starts without white space, with more behind it. -/
theorem dropWhile_append_cons_of_start {front : List Char} {c : Char}
    (hfront : front.dropWhile isWhite = front) (hc : isWhite c = false) (rest : List Char) :
    (front ++ c :: rest).dropWhile isWhite = front ++ c :: rest := by
  rw [dropWhile_append_cons front hc, hfront]

/-- So does a text in front of which nothing was. -/
theorem dropWhile_of_isPrefix {front cs : List Char} (hfront : front <+: cs)
    (h : cs.dropWhile isWhite = cs) : front.dropWhile isWhite = front := by
  cases front with
  | nil => rfl
  | cons c front =>
    obtain ⟨more, rfl⟩ := hfront
    have hc := List.dropWhile_eq_self_iff.mp h
    exact List.dropWhile_cons_of_neg (by simpa using hc)

/-- No piece holds the separator. -/
theorem not_mem_of_mem_splitOn {sep : Char} {cs piece : List Char} (h : piece ∈ splitOn sep cs) :
    sep ∉ piece := by
  induction cs generalizing piece with
  | nil =>
    rw [splitOn_nil, List.mem_singleton] at h
    simp [h]
  | cons c cs ih =>
    unfold splitOn at h
    split at h
    · rcases List.mem_cons.mp h with rfl | h
      · simp
      · exact ih h
    · next hne =>
      split at h
      · next first rest hcut =>
        rw [hcut] at ih
        rcases List.mem_cons.mp h with rfl | h
        · have hfirst := ih List.mem_cons_self
          simp [Ne.symm hne, hfirst]
        · exact ih (List.mem_cons_of_mem _ h)
      · rw [List.mem_singleton.mp h]
        simp [Ne.symm hne]

end Text

namespace ContentType

/-! ## Headers -/

/-- A boundary is cut only behind a semicolon. -/
theorem cutBoundary_append {front : List Char} (h : ';' ∉ front) (rest : List Char) :
    cutBoundary (front ++ rest) = front ++ cutBoundary rest := by
  induction front with
  | nil => rfl
  | cons c front ih =>
    simp only [List.mem_cons, not_or] at h
    rw [List.cons_append, cutBoundary, ih h.2]
    simp [Ne.symm h.1]

theorem cutBoundary_of_not_mem {cs : List Char} (h : ';' ∉ cs) : cutBoundary cs = cs := by
  have hcut := cutBoundary_append h []
  simpa [cutBoundary] using hcut

/-- A header is read as what is left when it is trimmed, if anything is left. -/
theorem parse_eq (header : String) :
    parse (some header) = if Text.trim header.toList = [] then none
      else some (partsOf (Text.trim header.toList)) := by
  unfold parse
  rw [Option.map_some]
  cases Text.trim header.toList <;> rfl

theorem parse_of_trim {text raw : List Char} (h : Text.trim text = raw) (hne : raw ≠ []) :
    parse (some (String.ofList text)) = some (partsOf raw) := by
  rw [parse_eq, String.toList_ofList, h, if_neg hne]

theorem exists_trimmed_of_parse {header : Option String} {h : MediaHeader}
    (hparse : parse header = some h) : ∃ raw, Text.trim raw = raw ∧ h = partsOf raw := by
  cases header with
  | none => cases hparse
  | some header =>
    rw [parse_eq] at hparse
    split at hparse
    · cases hparse
    · exact ⟨_, Text.trim_trim _, (Option.some.inj hparse).symm⟩

/-- A header is looked up under its bucket, and then with its charset or the default one. -/
theorem equivalents_eq (h : MediaHeader) : equivalents (some h) =
    [bucket (some h), h.mediaType ++ "; " ++ h.charset.getD "charset=utf-8"] := by
  have hdefault : h.mediaType ++ "; " ++ "charset=utf-8" = h.mediaType ++ "; charset=utf-8" := by
    rw [String.append_assoc]
    rfl
  cases hcharset : h.charset <;> simp [equivalents, bucket, hcharset, hdefault]

/-- A header without a semicolon names its media type alone. -/
theorem partsOf_of_not_mem {text : List Char} (htrim : Text.trim text = text) (h : ';' ∉ text) :
    partsOf text =
      ⟨String.ofList text, String.ofList text, String.ofList text, none⟩ := by
  simp [partsOf, cutBoundary_of_not_mem h, Text.splitOn_of_not_mem h, htrim]

/-- A header whose first parameter is empty has no charset. -/
theorem partsOf_append {mediaType rest : List Char} (htrim : Text.trim mediaType = mediaType)
    (h : ';' ∉ mediaType) (hrest : cutBoundary (';' :: ';' :: rest) = ';' :: ';' :: rest) :
    partsOf (mediaType ++ ';' :: ';' :: rest) =
      ⟨String.ofList (mediaType ++ ';' :: ';' :: rest),
        String.ofList (mediaType ++ ';' :: ';' :: rest), String.ofList mediaType, none⟩ := by
  simp [partsOf, cutBoundary_append h, hrest, Text.splitOn_append_cons h, Text.splitOn_cons_self,
    htrim]

/-- The media type of a header has no white space at its ends, and no semicolon. -/
theorem mediaType_partsOf (raw : List Char) :
    Text.trim (partsOf raw).mediaType.toList = (partsOf raw).mediaType.toList ∧
      ';' ∉ (partsOf raw).mediaType.toList := by
  simp only [partsOf, String.toList_ofList]
  refine ⟨Text.trim_trim _, fun h => ?_⟩
  cases hpieces : Text.splitOn ';' (cutBoundary raw) with
  | nil => exact Text.splitOn_ne_nil _ _ hpieces
  | cons piece pieces =>
    rw [hpieces] at h
    have hmem : piece ∈ Text.splitOn ';' (cutBoundary raw) := by simp [hpieces]
    exact Text.not_mem_of_mem_splitOn hmem (Text.mem_of_mem_trim h)

end ContentType

/-! ## Spellings -/

namespace Text

/-- A text with letters behind it. -/
def spelled (front : List Char) (n : Nat) : List Char := front ++ List.replicate n 'x' ++ ['x']

theorem length_spelled (front : List Char) (n : Nat) :
    (spelled front n).length = front.length + n + 1 := by
  simp [spelled]
  omega

theorem spelled_cons (front : List Char) (c : Char) (n : Nat) :
    spelled (front ++ [c]) n = front ++ c :: spelled [] n := by simp [spelled]

theorem spelled_cons_cons (front : List Char) (c d : Char) (n : Nat) :
    spelled (front ++ [c] ++ [d]) n = front ++ c :: d :: spelled [] n := by simp [spelled]

theorem spelled_ne_nil (front : List Char) (n : Nat) : spelled front n ≠ [] := by simp [spelled]

/-- The letters are letters. -/
theorem spelled_nil (n : Nat) : spelled [] n = 'x' :: List.replicate n 'x' := by
  rw [← List.replicate_succ, List.replicate_succ']
  rfl

theorem not_mem_spelled {front : List Char} {c : Char} (h : c ∉ front) (hc : c ≠ 'x') (n : Nat) :
    c ∉ spelled front n := by
  simp [spelled, h, hc]

theorem trim_spelled {front : List Char} {c : Char} (hfront : front.dropWhile isWhite = front)
    (hc : isWhite c = false) (n : Nat) :
    trim (spelled (front ++ [c]) n) = spelled (front ++ [c]) n := by
  refine trim_concat ?_ (by decide)
  have hstart := dropWhile_append_cons_of_start hfront hc (spelled [] n)
  rwa [← spelled_cons] at hstart

end Text

/-- No boundary is cut behind two semicolons. -/
theorem ContentType.cutBoundary_spelled (n : Nat) :
    cutBoundary (';' :: ';' :: Text.spelled [] n) = ';' :: ';' :: Text.spelled [] n := by
  have hrest : cutBoundary (Text.spelled [] n) = Text.spelled [] n :=
    cutBoundary_of_not_mem (Text.not_mem_spelled (by simp) (by decide) n)
  have hx : Text.isWhite 'x' = false := by decide
  have hsemicolon : Text.isWhite ';' = false := by decide
  rw [cutBoundary, if_neg, cutBoundary, if_neg, hrest]
  · simp [Text.spelled_nil, hx, Text.strip?]
  · simp [hsemicolon, Text.strip?]

namespace MediaHeader

/-- Whether a contract declares the bucket of a header, or the bucket with the charset of the
header. -/
def IsPinned (h : MediaHeader) (content : Assoc Json) : Prop :=
  content.contains (ContentType.bucket (some h)) = true ∨
    ∃ charset, h.charset = some charset ∧
      content.contains (h.mediaType ++ "; " ++ charset) = true

end MediaHeader

namespace MediaType

/-- The family of a media type. -/
def familyOf (mediaType : String) : List Char := Text.before (· = '/') mediaType.toList

theorem familyOf_prefix (mediaType : String) : familyOf mediaType <+: mediaType.toList :=
  List.takeWhile_prefix _

/-- Any other subtype is of the same family. -/
theorem familyOf_append (mediaType : String) (rest : List Char) :
    familyOf (String.ofList (familyOf mediaType ++ '/' :: rest)) = familyOf mediaType := by
  rw [familyOf, String.toList_ofList, Text.before_append_of_head _ (by simp),
    Text.before_of_not_mem]
  exact Text.not_mem_before '/' mediaType.toList

/-- The entry for the family of a media type, or for all. -/
def wildcard? (content : Assoc Json) (mediaType : String) : Option Json :=
  (content.get? (String.ofList (familyOf mediaType) ++ "/*")).or (content.get? "*/*")

theorem select?_of_none {content : Assoc Json} {h : MediaHeader}
    (hnone : ∀ key ∈ ContentType.equivalents (some h), content.get? key = none) :
    select? content h = wildcard? content h.mediaType := by
  have hfind : (ContentType.equivalents (some h)).findSome? content.get? = none :=
    List.findSome?_eq_none_iff.mpr hnone
  simp only [select?, hfind, wildcard?]
  rw [← familyOf]
  cases content.get? (String.ofList (familyOf h.mediaType) ++ "/*") with
  | none => simp
  | some entry => simp

theorem select?_of_findSome? {content : Assoc Json} {h : MediaHeader} {entry : Json}
    (hentry : (ContentType.equivalents (some h)).findSome? content.get? = some entry) :
    select? content h = some entry := by
  simp only [select?, hentry]

/-- An entry is looked up under the bucket of a header, then with the charset, then as a
wildcard. -/
theorem select?_eq (content : Assoc Json) (h : MediaHeader) :
    select? content h = (content.get? (ContentType.bucket (some h))).or
      ((content.get? (h.mediaType ++ "; " ++ h.charset.getD "charset=utf-8")).or
        (wildcard? content h.mediaType)) := by
  have hequivalents := ContentType.equivalents_eq h
  generalize h.mediaType ++ "; " ++ h.charset.getD "charset=utf-8" = second at hequivalents ⊢
  cases hbucket : content.get? (ContentType.bucket (some h)) with
  | some entry => exact select?_of_findSome? (by simp [hequivalents, hbucket])
  | none =>
    cases hsecond : content.get? second with
    | some entry => exact select?_of_findSome? (by simp [hequivalents, hbucket, hsecond])
    | none =>
      refine select?_of_none fun key hkey => ?_
      rw [hequivalents] at hkey
      rcases List.mem_pair.mp hkey with rfl | rfl
      · exact hbucket
      · exact hsecond

/-- A header whose bucket is declared selects the entry of its bucket. -/
theorem select?_of_bucket {content : Assoc Json} {h : MediaHeader} {entry : Json}
    (hentry : content.get? (ContentType.bucket (some h)) = some entry) :
    select? content h = some entry := by
  rw [select?_eq, hentry]
  rfl

/-- The length of all keys together. -/
def keysLength (content : Assoc Json) : Nat := (content.keys.map String.toList).flatten.length

/-- No key is longer than all keys together. -/
theorem get?_of_length_lt {content : Assoc Json} {key : String}
    (h : keysLength content < key.length) : content.get? key = none := by
  cases hget : content.get? key with
  | none => rfl
  | some entry =>
    have hmem : key ∈ content.keys := Assoc.contains_iff_mem_keys.mp (by simp [Assoc.contains, hget])
    have hle : key.toList.length ≤ keysLength content :=
      (List.sublist_flatten_of_mem (List.mem_map_of_mem hmem)).length_le
    rw [String.length_toList] at hle
    omega

/-- Whether a text is the bucket of its own header, which selects the same entry as another. -/
structure Spells (content : Assoc Json) (h : MediaHeader) (text : String) (h' : MediaHeader) :
    Prop where
  parse : ContentType.parse (some text) = some h'
  bucket : ContentType.bucket (some h') = text
  select : select? content h' = select? content h

/-- A header that is accepted for the default charset is so behind any empty first parameter. -/
theorem spells_of_default {content : Assoc Json} {h : MediaHeader} {entry : Json}
    (htrim : Text.trim h.mediaType.toList = h.mediaType.toList) (hmem : ';' ∉ h.mediaType.toList)
    (hnone : h.charset = none) (hbare : content.get? h.withoutBoundary = none)
    (hentry : content.get? (h.mediaType ++ "; charset=utf-8") = some entry) {n : Nat}
    (hn : keysLength content ≤ n) :
    ∃ h', Spells content h
      (String.ofList (Text.spelled (h.mediaType.toList ++ [';'] ++ [';']) n)) h' := by
  have hlong : content.get? (String.ofList
      (Text.spelled (h.mediaType.toList ++ [';'] ++ [';']) n)) = none := by
    refine get?_of_length_lt ?_
    rw [String.length_ofList, Text.length_spelled]
    omega
  have hstart : (h.mediaType.toList ++ [';']).dropWhile Text.isWhite =
      h.mediaType.toList ++ [';'] :=
    Text.dropWhile_append_cons_of_start (htrim ▸ Text.dropWhile_isWhite_trim _) (by decide) []
  have htext := Text.trim_spelled hstart (by decide : Text.isWhite ';' = false) n
  have hparts := ContentType.partsOf_append htrim hmem (ContentType.cutBoundary_spelled n)
  rw [← Text.spelled_cons_cons] at hparts
  have hne := Text.spelled_ne_nil (h.mediaType.toList ++ [';'] ++ [';']) n
  generalize Text.spelled (h.mediaType.toList ++ [';'] ++ [';']) n = text at hlong htext hparts hne
  refine ⟨_, ContentType.parse_of_trim htext hne, ?_, ?_⟩
  · rw [hparts]
    rfl
  · have hdefault : (ContentType.equivalents (some h)).findSome? content.get? = some entry := by
      simp [ContentType.equivalents, hnone, hbare, hentry]
    rw [select?_of_findSome? hdefault, hparts]
    refine select?_of_findSome? ?_
    simp [ContentType.equivalents, hlong, hentry]

/-- A header that is accepted by a wildcard is so with any other subtype. -/
theorem spells_of_wildcard {content : Assoc Json} {h : MediaHeader}
    (htrim : Text.trim h.mediaType.toList = h.mediaType.toList) (hmem : ';' ∉ h.mediaType.toList)
    (hnone : ∀ key ∈ ContentType.equivalents (some h), content.get? key = none) {n : Nat}
    (hn : keysLength content ≤ n) :
    ∃ h', Spells content h
      (String.ofList (Text.spelled (familyOf h.mediaType ++ ['/']) n)) h' := by
  have hfront := familyOf_prefix h.mediaType
  have hstart := Text.dropWhile_of_isPrefix hfront (htrim ▸ Text.dropWhile_isWhite_trim _)
  have htext := Text.trim_spelled hstart (by decide : Text.isWhite '/' = false) n
  have hcons := Text.spelled_cons (familyOf h.mediaType) '/' n
  have hne := Text.spelled_ne_nil (familyOf h.mediaType ++ ['/']) n
  have hsemicolon : ';' ∉ Text.spelled (familyOf h.mediaType ++ ['/']) n :=
    Text.not_mem_spelled (by simpa using fun h => hmem (hfront.mem h)) (by decide) n
  have hlong : ∀ suffix : String, content.get? (String.ofList
      (Text.spelled (familyOf h.mediaType ++ ['/']) n) ++ suffix) = none := by
    intro suffix
    refine get?_of_length_lt ?_
    rw [String.length_append, String.length_ofList, Text.length_spelled]
    omega
  have hparts := ContentType.partsOf_of_not_mem htext hsemicolon
  generalize Text.spelled (familyOf h.mediaType ++ ['/']) n = text at htext hcons hne hlong hparts
  refine ⟨_, ContentType.parse_of_trim htext hne, ?_, ?_⟩
  · rw [hparts]
    rfl
  · rw [select?_of_none hnone, hparts, select?_of_none]
    · rw [hcons, wildcard?, wildcard?, familyOf_append]
    · intro key hkey
      rcases List.mem_pair.mp hkey with rfl | rfl
      · simpa using hlong ""
      · exact hlong _

/-- **A header that is not pinned has spellings without end.** -/
theorem exists_spellings {content : Assoc Json} {header : Option String} {h : MediaHeader}
    (hparse : ContentType.parse header = some h) (hpinned : ¬ h.IsPinned content) :
    ∃ spell : Nat → String, Function.Injective spell ∧ ∀ n, ∃ h', Spells content h (spell n) h' := by
  obtain ⟨raw, -, rfl⟩ := ContentType.exists_trimmed_of_parse hparse
  obtain ⟨htrim, hmem⟩ := ContentType.mediaType_partsOf raw
  generalize ContentType.partsOf raw = h at hpinned htrim hmem
  -- letters behind one text, from some number of letters on
  have hspell : ∃ front, ∀ n, keysLength content ≤ n →
      ∃ h', Spells content h (String.ofList (Text.spelled front n)) h' := by
    simp only [MediaHeader.IsPinned, not_or, not_exists, not_and, Bool.not_eq_true,
      Assoc.contains, Option.isSome_eq_false_iff, Option.isNone_iff_eq_none] at hpinned
    obtain ⟨hbucket, hcharset⟩ := hpinned
    cases hc : h.charset with
    | some charset =>
      refine ⟨_, fun n hn => spells_of_wildcard htrim hmem (fun key hkey => ?_) hn⟩
      simp only [ContentType.equivalents, ContentType.bucket, hc] at hkey hbucket
      rcases List.mem_pair.mp hkey with rfl | rfl
      · exact hbucket
      · exact hcharset charset hc
    | none =>
      simp only [ContentType.equivalents, ContentType.bucket, hc] at hbucket
      cases hdefault : content.get? (h.mediaType ++ "; charset=utf-8") with
      | some entry => exact ⟨_, fun n hn => spells_of_default htrim hmem hc hbucket hdefault hn⟩
      | none =>
        refine ⟨_, fun n hn => spells_of_wildcard htrim hmem (fun key hkey => ?_) hn⟩
        simp only [ContentType.equivalents, hc] at hkey
        rcases List.mem_pair.mp hkey with rfl | rfl
        · exact hbucket
        · exact hdefault
  obtain ⟨front, hfront⟩ := hspell
  refine ⟨fun n => String.ofList (Text.spelled front (keysLength content + n)),
    fun m n hmn => ?_, fun n => hfront _ (Nat.le_add_right _ _)⟩
  have hlength := congrArg String.length hmn
  simp only [String.length_ofList, Text.length_spelled] at hlength
  omega

/-- A pinned header has one of finitely many buckets: its bucket begins a key that is declared. -/
theorem bucket_prefix_of_isPinned {content : Assoc Json} {h : MediaHeader}
    (hpinned : h.IsPinned content) :
    ∃ key ∈ content.keys, (ContentType.bucket (some h)).toList <+: key.toList := by
  rcases hpinned with hbucket | ⟨charset, hcharset, hkey⟩
  · exact ⟨_, Assoc.contains_iff_mem_keys.mp hbucket, List.prefix_rfl⟩
  · refine ⟨_, Assoc.contains_iff_mem_keys.mp hkey, ?_⟩
    have hbucket : ContentType.bucket (some h) = h.mediaType := by
      simp [ContentType.bucket, ContentType.equivalents, hcharset]
    rw [hbucket, String.append_assoc, String.toList_append]
    exact List.prefix_append _ _

/-- Whether content is declared under media types alone: no key has parameters or is a wildcard. -/
def IsPlain (content : Assoc Json) : Prop :=
  ∀ key ∈ content.keys, ';' ∉ key.toList ∧ '*' ∉ key.toList

instance (content : Assoc Json) : Decidable (IsPlain content) :=
  inferInstanceAs (Decidable (∀ key ∈ content.keys, _))

/-- **Plain content accepts pinned headers only.** -/
theorem isPinned_of_isPlain {content : Assoc Json} (hplain : IsPlain content) {h : MediaHeader}
    {entry : Json} (hselect : select? content h = some entry) : h.IsPinned content := by
  have hget : ∀ {key entry}, content.get? key = some entry →
      content.contains key = true ∧ ';' ∉ key.toList ∧ '*' ∉ key.toList := by
    intro key entry hentry
    have hcontains : content.contains key = true := by rw [Assoc.contains_eq, hentry]; rfl
    exact ⟨hcontains, hplain key (Assoc.contains_iff_mem_keys.mp hcontains)⟩
  cases hfind : (ContentType.equivalents (some h)).findSome? content.get? with
  | none =>
    -- a wildcard would have been selected
    rw [select?_of_none (List.findSome?_eq_none_iff.mp hfind)] at hselect
    rcases Option.or_eq_some_iff.mp hselect with hentry | ⟨-, hentry⟩
    · exact absurd (by simp) (hget hentry).2.2
    · exact absurd (by decide) (hget hentry).2.2
  | some found =>
    obtain ⟨key, hkey, hentry⟩ := List.exists_of_findSome?_eq_some hfind
    obtain ⟨hcontains, hsemicolon, -⟩ := hget hentry
    unfold MediaHeader.IsPinned ContentType.bucket
    simp only [ContentType.equivalents] at hkey ⊢
    cases hcharset : h.charset with
    | some charset =>
      rw [hcharset] at hkey
      rcases List.mem_pair.mp hkey with rfl | rfl
      · exact Or.inl hcontains
      · exact Or.inr ⟨charset, rfl, hcontains⟩
    | none =>
      rw [hcharset] at hkey
      rcases List.mem_pair.mp hkey with rfl | rfl
      · exact Or.inl hcontains
      · exact absurd (by simp) hsemicolon

end MediaType

end ApiContract
