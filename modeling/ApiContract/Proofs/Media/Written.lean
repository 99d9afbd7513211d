import ApiContract.Proofs.Media.Buckets
/-!
# Headers that are written from their parts

A header is written as a media type with parameters behind it, each a name and a value. What is read
of it is the media type and the first parameter up to a semicolon, or no parameter at all if the
first is a boundary. So nothing that stands behind the first parameter is told.
-/

namespace ApiContract

namespace Text

/-! ## White space at the ends -/

theorem dropEnd_dropEnd (cs : List Char) :
    dropEnd isWhite (dropEnd isWhite cs) = dropEnd isWhite cs :=
  List.rdropWhile_idempotent isWhite cs

theorem dropEnd_isPrefix (cs : List Char) : dropEnd isWhite cs <+: cs :=
  List.rdropWhile_prefix isWhite cs

/-- White space at the end of a text is none before a separator, or is at the end of that. -/
theorem dropEnd_before_dropEnd {c : Char} (hc : isWhite c = false) (cs : List Char) :
    dropEnd isWhite (before (· = c) (dropEnd isWhite cs)) =
      dropEnd isWhite (before (· = c) cs) := by
  by_cases hmem : c ∈ cs
  · obtain ⟨front, rest, rfl, hfront⟩ := List.eq_append_cons_of_mem hmem
    rw [dropEnd_append_cons _ hc, before_append_of_head front (by simp),
      before_append_of_head front (by simp)]
  · have hdropped : c ∉ dropEnd isWhite cs := fun h => hmem ((dropEnd_isPrefix cs).mem h)
    rw [before_of_not_mem hmem, before_of_not_mem hdropped, dropEnd_dropEnd]

end Text

namespace ContentType

open Text

/-! ## Parameters -/

/-- Whether a text can name a parameter. -/
structure IsName (name : List Char) : Prop where
  ne_nil : name ≠ []
  notWhite : name.all (fun c => !isWhite c) = true
  semicolon : ';' ∉ name
  equals : '=' ∉ name

theorem IsName.isWhite_eq {name : List Char} (h : IsName name) {c : Char} (hc : c ∈ name) :
    isWhite c = false := by
  simpa using List.all_eq_true.mp h.notWhite c hc

theorem IsName.newline {name : List Char} (h : IsName name) : '\n' ∉ name :=
  fun hin => absurd (h.isWhite_eq hin) (by decide)

theorem IsName.dropWhile_eq {name : List Char} (h : IsName name) :
    name.dropWhile isWhite = name :=
  List.dropWhile_eq_self_iff.mpr fun _ => by simpa using h.isWhite_eq (List.getElem_mem _)

/-- Whether a text is a parameter: a name, and any value on the same line. -/
def IsParameter (parameter : String) : Prop :=
  ∃ name value, parameter.toList = name ++ '=' :: value ∧ IsName name ∧ '\n' ∉ value

/-- Whether a parameter is read as a boundary. -/
def IsBoundary (parameter : String) : Prop := "boundary".toList <+: parameter.toList

instance (parameter : String) : Decidable (IsBoundary parameter) :=
  inferInstanceAs (Decidable (_ <+: _))

/-- Parameters as they stand in a header, each behind a semicolon and a blank. -/
def writtenParameters (parameters : List String) : List Char :=
  parameters.flatMap fun parameter => ';' :: ' ' :: parameter.toList

/-- Write a media type with parameters behind it. -/
def written (mediaType : String) (parameters : List String) : String :=
  String.ofList (mediaType.toList ++ writtenParameters parameters)

/-- What is read of a parameter: what stands before a semicolon in it. -/
def readParameter (parameter : String) : String :=
  String.ofList (trim (before (· = ';') parameter.toList))

/-- What is read of parameters: the first, unless it is a boundary. -/
def charsetOf : List String → Option String
  | [] => none
  | parameter :: _ => if IsBoundary parameter then none else some (readParameter parameter)

/-- Behind a parameter stands a semicolon, or nothing. -/
theorem head?_writtenParameters (parameters : List String) :
    ∀ c ∈ (writtenParameters parameters).head?, c = ';' := by
  cases parameters with
  | nil => simp [writtenParameters]
  | cons parameter parameters => simp [writtenParameters]

theorem not_mem_writtenParameters {parameters : List String}
    (h : ∀ parameter ∈ parameters, IsParameter parameter) :
    '\n' ∉ writtenParameters parameters := by
  rw [writtenParameters, List.mem_flatMap]
  rintro ⟨parameter, hparameter, hmem⟩
  obtain ⟨name, value, htext, hname, hvalue⟩ := h parameter hparameter
  rw [htext] at hmem
  simp [hname.newline, hvalue] at hmem

/-- On one line a boundary is cut with all that stands behind it. -/
theorem cutBoundary_cons_eq_nil {cs : List Char} (hname : NamesBoundary cs) (h : '\n' ∉ cs) :
    cutBoundary (';' :: cs) = [] := by
  rw [cutBoundary_cons_of_names hname, List.dropWhile_eq_nil_iff]
  intro c hmem
  have hin : c ∈ cs := (List.dropWhile_suffix isWhite).mem hmem
  simpa using fun heq : c = '\n' => h (heq ▸ hin)

/-- Up to the first semicolon a boundary makes no difference on one line. -/
theorem before_cutBoundary {cs : List Char} (h : '\n' ∉ cs) :
    before (· = ';') (cutBoundary cs) = before (· = ';') cs := by
  induction cs with
  | nil => rfl
  | cons c cs ih =>
    rw [List.mem_cons, not_or] at h
    by_cases hc : c = ';' ∧ NamesBoundary cs
    · obtain ⟨rfl, hname⟩ := hc
      rw [cutBoundary_cons_eq_nil hname h.2]
      rfl
    · rw [cutBoundary_cons_of_not hc, before, before, List.takeWhile_cons, List.takeWhile_cons]
      split
      · exact congrArg _ (ih h.2)
      · rfl

/-! ## Reading what was written -/

/-- The name of a parameter tells whether it is read as a boundary. -/
theorem isBoundary_iff {parameter : String} {name value : List Char}
    (htext : parameter.toList = name ++ '=' :: value) (hname : IsName name) :
    IsBoundary parameter ↔ NamesBoundary (' ' :: name) := by
  rw [IsBoundary, NamesBoundary, List.dropWhile_cons_of_pos (by decide), hname.dropWhile_eq, htext]
  refine ⟨fun h => ?_, fun h => h.trans (List.prefix_append _ _)⟩
  -- there is no sign of equality in the word
  have hfront : name ++ ['='] <+: name ++ '=' :: value := by simp
  rcases List.prefix_or_prefix_of_prefix h hfront with h | h
  · rcases List.prefix_concat_iff.mp h with h | h
    · exact absurd (h ▸ List.mem_append_right _ (List.mem_singleton_self _)) (by decide)
    · exact h
  · exact absurd (h.mem (List.mem_append_right _ (List.mem_singleton_self _))) (by decide)

/-- What is read of a parameter with a name. -/
theorem trim_before_append {name : List Char} (hname : ';' ∉ name) (value : List Char) :
    trim (before (· = ';') (name ++ '=' :: value)) =
      name.dropWhile isWhite ++ '=' :: dropEnd isWhite (before (· = ';') value) := by
  have hmem : ';' ∉ name ++ ['='] := by simp [hname]
  have hbefore := before_append_of_not_mem hmem value
  rw [List.append_assoc, List.append_assoc, List.singleton_append, List.singleton_append] at hbefore
  rw [hbefore, trim_append_cons _ (by decide)]

/-- What is read of a header: its media type, which is also its bucket, and a charset or none. -/
structure Reads (header : MediaHeader) (mediaType : String) (charset : Option String) : Prop where
  mediaType_eq : header.mediaType = mediaType
  charset_eq : header.charset = charset
  bucket_eq : bucket (some header) = mediaType

variable {mediaType : String} {name value : List Char}

/-- A media type alone is read as it stands. -/
theorem reads_partsOf_self (hmedia : IsMediaType mediaType) {raw : List Char}
    (hraw : cutBoundary raw = mediaType.toList) : Reads (partsOf raw) mediaType none := by
  have hblank := firstParameter_of_not_mem hmedia.notMem
  have hself : mediaTypeOf mediaType.toList = mediaType.toList := by
    rw [mediaTypeOf, splitOn_head, before_of_not_mem hmedia.notMem, hmedia.trimmed]
  refine ⟨?_, ?_, ?_⟩
  · rw [mediaType_partsOf_eq, hraw, hself, String.ofList_toList]
  · rw [charset_partsOf, hraw, if_pos hblank]
  · rw [bucket_partsOf, hraw, if_pos hblank, String.ofList_toList]

/-- A media type with a parameter behind it is read with what stands before the next semicolon. -/
theorem reads_partsOf_append_cons (hmedia : IsMediaType mediaType) {raw parameter : List Char}
    (hraw : cutBoundary raw = mediaType.toList ++ ';' :: parameter)
    (hne : trim (before (· = ';') parameter) ≠ []) :
    Reads (partsOf raw) mediaType
      (some (String.ofList (trim (before (· = ';') parameter)))) := by
  have hparameter := firstParameter_append_cons hmedia.notMem parameter
  have hmediaType : (partsOf raw).mediaType = mediaType := by
    rw [mediaType_partsOf_eq, hraw, mediaTypeOf_append_cons hmedia.notMem, hmedia.trimmed,
      String.ofList_toList]
  refine ⟨hmediaType, ?_, ?_⟩
  · rw [charset_partsOf, hraw, hparameter, if_neg hne]
  · rw [bucket_partsOf, hraw, hparameter, if_neg hne, hmediaType]

/-- A media type, a semicolon and a blank, and a parameter with a name, with any text behind it. -/
def lineOf (mediaType : String) (name value : List Char) : List Char :=
  mediaType.toList ++ ';' :: (' ' :: name ++ '=' :: value)

/-- White space at the end of a line is at the end of a value. -/
theorem trim_lineOf (hmedia : IsMediaType mediaType) (name value : List Char) :
    trim (lineOf mediaType name value) = lineOf mediaType name (dropEnd isWhite value) := by
  have hstart : mediaType.toList.dropWhile isWhite = mediaType.toList :=
    hmedia.trimmed ▸ dropWhile_isWhite_trim _
  rw [lineOf, trim_append_cons _ (by decide), dropEnd_append_cons _ (by decide), hstart,
    lineOf]

/-- A first parameter that is a boundary is cut with all that stands behind it. -/
theorem reads_lineOf_of_names (hmedia : IsMediaType mediaType) (hname : IsName name)
    (hboundary : NamesBoundary (' ' :: name)) (hvalue : '\n' ∉ value) :
    Reads (partsOf (lineOf mediaType name value)) mediaType none := by
  refine reads_partsOf_self hmedia ?_
  rw [lineOf, cutBoundary_append hmedia.notMem,
    cutBoundary_cons_eq_nil (hboundary.of_isPrefix (List.prefix_append _ _))
      (by simp [hname.newline, hvalue]), List.append_nil]

/-- Any other first parameter is read up to a semicolon, wherever that stands. -/
theorem reads_lineOf_of_not (hmedia : IsMediaType mediaType) (hname : IsName name)
    (hboundary : ¬ NamesBoundary (' ' :: name)) (hvalue : '\n' ∉ value) :
    Reads (partsOf (lineOf mediaType name value)) mediaType
      (some (String.ofList (trim (before (· = ';') (name ++ '=' :: value))))) := by
  have hsemicolon : ';' ∉ ' ' :: name ++ ['='] := by simp [hname.semicolon]
  have hrest := cutBoundary_append hsemicolon value
  rw [List.append_assoc, List.singleton_append] at hrest
  have hcut : cutBoundary (lineOf mediaType name value) =
      mediaType.toList ++ ';' :: (' ' :: name ++ '=' :: cutBoundary value) := by
    rw [lineOf, cutBoundary_append hmedia.notMem, cutBoundary_cons_of_not, hrest,
      List.append_assoc, List.singleton_append]
    exact fun h => hboundary (h.2.of_append_cons (by decide) (by decide))
  have hread : trim (before (· = ';') (' ' :: name ++ '=' :: cutBoundary value)) =
      trim (before (· = ';') (name ++ '=' :: value)) := by
    rw [trim_before_append (by simp [hname.semicolon]), before_cutBoundary hvalue,
      trim_before_append hname.semicolon, List.dropWhile_cons_of_pos (by decide)]
  rw [← hread]
  refine reads_partsOf_append_cons hmedia hcut ?_
  rw [trim_before_append (by simp [hname.semicolon])]
  simp

/-- **What is read of a header that was written**: its media type, and of its parameters the first,
unless it is a boundary. -/
theorem parse_written (hmedia : IsMediaType mediaType) (hne : mediaType ≠ "")
    {parameters : List String} (h : ∀ parameter ∈ parameters, IsParameter parameter) :
    ∃ header, parse (some (written mediaType parameters)) = some header ∧
      Reads header mediaType (charsetOf parameters) := by
  cases parameters with
  | nil =>
    have hwritten : written mediaType [] = String.ofList mediaType.toList := by
      simp [written, writtenParameters]
    refine ⟨_, ?_, reads_partsOf_self hmedia (cutBoundary_of_not_mem hmedia.notMem)⟩
    rw [hwritten, parse_of_trim hmedia.trimmed (by simpa using hne)]
  | cons parameter parameters =>
    obtain ⟨⟨name, value, htext, hname, hvalue⟩, hrest⟩ := List.forall_mem_cons.mp h
    have hnewline : '\n' ∉ dropEnd isWhite (value ++ writtenParameters parameters) := fun hin =>
      (List.mem_append.mp ((dropEnd_isPrefix _).mem hin)).elim hvalue
        (not_mem_writtenParameters hrest)
    have hwritten : written mediaType (parameter :: parameters) =
        String.ofList (lineOf mediaType name (value ++ writtenParameters parameters)) := by
      simp [written, writtenParameters, htext, lineOf]
    have hparse := parse_of_trim (trim_lineOf hmedia name (value ++ writtenParameters parameters))
      (by simp [lineOf])
    refine ⟨_, hwritten ▸ hparse, ?_⟩
    have hboundary := isBoundary_iff htext hname
    rw [charsetOf]
    split
    · next hnames => exact reads_lineOf_of_names hmedia hname (hboundary.mp hnames) hnewline
    · next hnames =>
      have hread : String.ofList (trim (before (· = ';')
          (name ++ '=' :: dropEnd isWhite (value ++ writtenParameters parameters)))) =
          readParameter parameter := by
        rw [readParameter, htext, trim_before_append hname.semicolon,
          trim_before_append hname.semicolon, dropEnd_before_dropEnd (by decide),
          before_append_of_head value (head?_writtenParameters parameters)]
      rw [← hread]
      exact reads_lineOf_of_not hmedia hname (mt hboundary.mpr hnames) hnewline

/-! ## Parameters that are read as they stand -/

/-- A parameter that is read as a charset as it stands. -/
structure IsCharsetParameter (parameter : String) : Prop where
  isParameter : IsParameter parameter
  isCharset : IsCharset parameter
  notBoundary : ¬ IsBoundary parameter

theorem isCharsetParameter_default : IsCharsetParameter "charset=utf-8" where
  isParameter := ⟨"charset".toList, "utf-8".toList, by decide,
    ⟨by decide, by decide, by decide, by decide⟩, by decide⟩
  isCharset := ⟨by decide, by decide, by decide⟩
  notBoundary := by decide

/-- What is read of a parameter is read as it stands. -/
theorem IsParameter.isCharsetParameter_readParameter {parameter : String}
    (h : IsParameter parameter) (hboundary : ¬ IsBoundary parameter) :
    IsCharsetParameter (readParameter parameter) := by
  obtain ⟨name, value, htext, hname, hvalue⟩ := h
  have hread : (readParameter parameter).toList =
      name ++ '=' :: dropEnd isWhite (before (· = ';') value) := by
    rw [readParameter, String.toList_ofList, htext, trim_before_append hname.semicolon,
      hname.dropWhile_eq]
  have hfront : dropEnd isWhite (before (· = ';') value) <+: value :=
    (dropEnd_isPrefix _).trans (List.takeWhile_prefix _)
  refine ⟨⟨name, _, hread, hname, fun hin => hvalue (hfront.mem hin)⟩, ⟨?_, ?_, ?_⟩, ?_⟩
  · rw [readParameter, String.toList_ofList, trim_trim]
  · rw [readParameter, String.toList_ofList]
    exact fun hin => by simpa using List.mem_takeWhile_imp (mem_of_mem_trim hin)
  · simp [hread]
  · rwa [isBoundary_iff hread hname, ← isBoundary_iff htext hname]

theorem IsCharsetParameter.charsetOf_cons {charset : String} (h : IsCharsetParameter charset)
    (parameters : List String) : charsetOf (charset :: parameters) = some charset := by
  rw [charsetOf, if_neg h.notBoundary, readParameter, before_of_not_mem h.isCharset.notMem,
    h.isCharset.trimmed, String.ofList_toList]

/-- A header is looked up with a parameter that is read as it stands. -/
theorem isCharsetParameter_charsetOf {parameters : List String}
    (h : ∀ parameter ∈ parameters, IsParameter parameter) :
    IsCharsetParameter ((charsetOf parameters).getD "charset=utf-8") := by
  cases parameters with
  | nil => exact isCharsetParameter_default
  | cons parameter parameters =>
    rw [charsetOf]
    split
    · exact isCharsetParameter_default
    · next hboundary =>
      exact (h parameter List.mem_cons_self).isCharsetParameter_readParameter hboundary

end ContentType

/-- Some parameter stands in no key. -/
theorem MediaType.exists_undeclared (content : Assoc Json) :
    ∃ parameter, ContentType.IsCharsetParameter parameter ∧
      ∀ mediaType : String, content.get? (mediaType ++ "; " ++ parameter) = none := by
  have htext := Text.spelled_cons ['x'] '=' (keysLength content)
  have htrim := Text.trim_spelled (by decide : ['x'].dropWhile Text.isWhite = ['x'])
    (by decide : Text.isWhite '=' = false) (keysLength content)
  have hsemicolon := Text.not_mem_spelled (by decide : ';' ∉ ['x'] ++ ['=']) (by decide)
    (keysLength content)
  have hlength := Text.length_spelled (['x'] ++ ['=']) (keysLength content)
  generalize Text.spelled (['x'] ++ ['=']) (keysLength content) = text
    at htext htrim hsemicolon hlength
  refine ⟨String.ofList text, ⟨⟨['x'], Text.spelled [] (keysLength content), ?_,
    ⟨by decide, by decide, by decide, by decide⟩, Text.not_mem_spelled (by simp) (by decide) _⟩,
    ⟨?_, ?_, ?_⟩, ?_⟩, fun mediaType => ?_⟩
  · rw [String.toList_ofList, htext]
  · rw [String.toList_ofList, htrim]
  · rwa [String.toList_ofList]
  · simp [htext]
  · simp [ContentType.IsBoundary, htext]
  · refine get?_of_length_lt ?_
    rw [String.length_append, String.length_ofList, hlength]
    omega

end ApiContract
