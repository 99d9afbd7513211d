import ApiContract.Proofs.Media.Written
/-!
# Which entry a header selects

A header with a charset is looked up under its media type first. One without is looked up as it is
left when the boundary is cut, which is the media type only if nothing stands behind it: so a header
with a stray semicolon misses the entry for its media type. And since of the parameters only the
first is looked at, their order tells where the media type itself is not declared.
-/

namespace ApiContract

namespace ContentType

open Text

/-! ## Tidy headers -/

/-- A header without its boundary. -/
def bareOf (header : String) : List Char := cutBoundary (trim header.toList)

/-- Whether a header has a first parameter, or nothing at all behind its media type. -/
def IsTidy (header : String) : Prop :=
  mediaTypeOf (bareOf header) = bareOf header ∨ firstParameter (bareOf header) ≠ []

instance (header : String) : Decidable (IsTidy header) := inferInstanceAs (Decidable (_ ∨ _))

/-- What makes a header tidy is that its bucket is its media type. -/
theorem isTidy_iff_bucket (header : String) :
    IsTidy header ↔ bucket (some (partsOf (trim header.toList))) =
      (partsOf (trim header.toList)).mediaType := by
  rw [bucket_partsOf, mediaType_partsOf_eq, IsTidy, bareOf]
  split
  · next hblank => simp [hblank, String.ofList_inj, eq_comm]
  · next hne => simp [hne]

/-- A header that names no content type is tidy. -/
theorem isTidy_of_blank {header : String} (h : trim header.toList = []) : IsTidy header := by
  rw [IsTidy, bareOf, h]
  exact Or.inl rfl

/-- A header that is written from a media type and parameters is tidy. -/
theorem isTidy_written {mediaType : String} (hmedia : IsMediaType mediaType)
    (hne : mediaType ≠ "") {parameters : List String}
    (h : ∀ parameter ∈ parameters, IsParameter parameter) :
    IsTidy (written mediaType parameters) := by
  obtain ⟨header, hparse, hreads⟩ := parse_written hmedia hne h
  rw [parse_eq] at hparse
  split at hparse
  · next hblank => exact isTidy_of_blank hblank
  · obtain rfl := Option.some.inj hparse
    rw [isTidy_iff_bucket, hreads.bucket_eq, hreads.mediaType_eq]

example : ¬ IsTidy "application/json;" ∧ ¬ IsTidy "application/json ; boundary=b" ∧
    ¬ IsTidy "application/json ;\nboundary=b" ∧ IsTidy "application/json; boundary=b" := by decide

end ContentType

namespace MediaType

open ContentType

/-- **An entry for the media type of a header is found** whatever else is declared just if the
header is tidy. -/
theorem finds_declared_iff (header : String) :
    (∀ content h entry, parse (some header) = some h → content.get? h.mediaType = some entry →
      select? content h = some entry) ↔ IsTidy header := by
  by_cases hblank : Text.trim header.toList = []
  · have hnone : parse (some header) = none := by rw [parse_eq, if_pos hblank]
    simp [hnone, isTidy_of_blank hblank]
  · have hparse : parse (some header) = some (partsOf (Text.trim header.toList)) := by
      rw [parse_eq, if_neg hblank]
    rw [isTidy_iff_bucket, hparse]
    generalize partsOf (Text.trim header.toList) = h
    constructor
    · intro hfinds
      by_contra hne
      -- content that declares the bucket of the header too
      let content : Assoc Json := [(bucket (some h), .null), (h.mediaType, .bool true)]
      have hbucket : content.get? (bucket (some h)) = some .null := by
        simp [content, Assoc.get?_cons]
      have hmedia : content.get? h.mediaType = some (.bool true) := by
        simp [content, Assoc.get?_cons, hne]
      have hselect := hfinds content h _ rfl hmedia
      rw [select?_eq, hbucket] at hselect
      cases hselect
    · rintro htidy content h' entry ⟨⟩ hentry
      rw [select?_eq, htidy, hentry]
      rfl

/-- A header with a stray semicolon does not find the entry for its media type, and neither does one
with a blank before the semicolon of its boundary. -/
theorem misses_declared :
    (∃ h, parse (some "application/json;") = some h ∧
      Assoc.get? [("application/json", Json.object [])] h.mediaType = some (.object []) ∧
      select? [("application/json", Json.object [])] h = none) ∧
    ∃ h, parse (some "application/json ;\nboundary=b") = some h ∧
      Assoc.get? [("application/json", Json.object [])] h.mediaType = some (.object []) ∧
      select? [("application/json", Json.object [])] h = none :=
  ⟨⟨_, rfl, rfl, rfl⟩, _, rfl, rfl, rfl⟩

/-! ## The order of parameters -/

/-- The entry that a header selects, if it names a content type. -/
def selected? (content : Assoc Json) (header : String) : Option Json :=
  (parse (some header)).bind (select? content)

/-- Whether parameters make no difference where a media type is not declared itself: what is
declared for it with a charset is what its wildcard says. -/
def OrderSettled (content : Assoc Json) : Prop :=
  ∀ mediaType, IsMediaType mediaType → mediaType ≠ "" → content.get? mediaType = none →
    ∀ charset entry, IsCharsetParameter charset →
      content.get? (mediaType ++ "; " ++ charset) = some entry →
        wildcard? content mediaType = some entry

variable {mediaType : String} {parameters : List String} {content : Assoc Json}

/-- A header that was written is looked up under its media type, then with its charset or the
default one, then as a wildcard. -/
theorem selected?_written (content : Assoc Json) (hmedia : IsMediaType mediaType)
    (hne : mediaType ≠ "") (h : ∀ parameter ∈ parameters, IsParameter parameter) :
    selected? content (written mediaType parameters) = (content.get? mediaType).or
      ((content.get? (mediaType ++ "; " ++ (charsetOf parameters).getD "charset=utf-8")).or
        (wildcard? content mediaType)) := by
  obtain ⟨header, hparse, hreads⟩ := parse_written hmedia hne h
  rw [selected?, hparse, Option.bind_some, select?_eq, hreads.bucket_eq, hreads.mediaType_eq,
    hreads.charset_eq]

/-- Parameters make no difference where that is settled. -/
theorem OrderSettled.selected?_written (hsettled : OrderSettled content)
    (hmedia : IsMediaType mediaType) (hne : mediaType ≠ "")
    (h : ∀ parameter ∈ parameters, IsParameter parameter) :
    selected? content (written mediaType parameters) =
      (content.get? mediaType).or (wildcard? content mediaType) := by
  rw [MediaType.selected?_written content hmedia hne h]
  cases hnone : content.get? mediaType with
  | some entry => rfl
  | none =>
    cases hentry : content.get?
        (mediaType ++ "; " ++ (charsetOf parameters).getD "charset=utf-8") with
    | none => rfl
    | some entry =>
      rw [hsettled mediaType hmedia hne hnone _ _ (isCharsetParameter_charsetOf h) hentry]
      rfl

/-- Content without parameters in its keys settles the order. -/
theorem orderSettled_of_not_mem (h : ∀ key ∈ content.keys, ';' ∉ key.toList) :
    OrderSettled content := by
  intro mediaType _ _ _ charset entry _ hentry
  have hkey : mediaType ++ "; " ++ charset ∈ content.keys :=
    Assoc.contains_iff_mem_keys.mp (by simp [Assoc.contains, hentry])
  exact absurd (by simp) (h _ hkey)

/-- **The order of the parameters of a header makes no difference** just if the content settles
it. -/
theorem selects_alike_of_perm_iff (content : Assoc Json) :
    (∀ mediaType, IsMediaType mediaType → mediaType ≠ "" →
      ∀ parameters parameters' : List String, (∀ parameter ∈ parameters, IsParameter parameter) →
        parameters.Perm parameters' →
          selected? content (written mediaType parameters) =
            selected? content (written mediaType parameters')) ↔ OrderSettled content := by
  constructor
  · intro hsame mediaType hmedia hne hnone charset entry hcharset hentry
    obtain ⟨other, hother, hundeclared⟩ := exists_undeclared content
    have hparameters : ∀ parameter ∈ [charset, other], IsParameter parameter := by
      simp [hcharset.isParameter, hother.isParameter]
    have hswapped : ∀ parameter ∈ [other, charset], IsParameter parameter := by
      simp [hcharset.isParameter, hother.isParameter]
    have heq := hsame mediaType hmedia hne _ _ hparameters (List.Perm.swap other charset [])
    rw [selected?_written content hmedia hne hparameters,
      selected?_written content hmedia hne hswapped, hcharset.charsetOf_cons,
      hother.charsetOf_cons, Option.getD_some, Option.getD_some, hnone, hentry,
      hundeclared] at heq
    exact heq.symm
  · intro hsettled mediaType hmedia hne parameters parameters' h hperm
    have h' : ∀ parameter ∈ parameters', IsParameter parameter :=
      fun parameter hmem => h parameter (hperm.mem_iff.mpr hmem)
    rw [hsettled.selected?_written hmedia hne h, hsettled.selected?_written hmedia hne h']

/-- A header with a charset and a version finds an entry for its charset in one order only. -/
theorem order_tells_entry :
    IsParameter "charset=latin1" ∧ IsParameter "version=1" ∧
      selected? [("application/json; charset=latin1", .object [])]
        (written "application/json" ["charset=latin1", "version=1"]) = some (.object []) ∧
      selected? [("application/json; charset=latin1", .object [])]
        (written "application/json" ["version=1", "charset=latin1"]) = none := by
  refine ⟨⟨"charset".toList, "latin1".toList, by decide, ⟨?_, ?_, ?_, ?_⟩, by decide⟩,
    ⟨"version".toList, "1".toList, by decide, ⟨?_, ?_, ?_, ?_⟩, by decide⟩, rfl, rfl⟩ <;> decide

end MediaType

end ApiContract
