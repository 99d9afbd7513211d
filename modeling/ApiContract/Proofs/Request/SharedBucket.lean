import ApiContract.Proofs.Media.Written
import ApiContract.Proofs.Request.DeclaredOnce
/-!
# Headers with one bucket

The schema of a request is stored under the bucket of its header, but it is chosen by all
equivalents of the header, by its family, and by whether there is a header at all. So the bucket
determines the schema only where the content that is declared makes none of these matter: an entry
with a charset has to say what the wildcard says, and a header that spells the bucket of no header
has to get what no header gets.
-/

namespace ApiContract

/-! ## Results that are alike -/

namespace Failure

variable {α β : Type}

/-- Whether two computations give the same result, or failures of the same kind. -/
def Alike : Except Failure α → Except Failure α → Prop
  | .ok a, .ok b => a = b
  | .error f, .error g => f.kind = g.kind
  | _, _ => False

instance [DecidableEq α] : (x y : Except Failure α) → Decidable (Alike x y)
  | .ok a, .ok b => inferInstanceAs (Decidable (a = b))
  | .error f, .error g => inferInstanceAs (Decidable (f.kind = g.kind))
  | .ok _, .error _ => isFalse id
  | .error _, .ok _ => isFalse id

theorem alike_error {f g : Failure} (h : f.kind = g.kind) :
    Alike (.error f : Except Failure α) (.error g) := h

variable {x y z : Except Failure α}

theorem alike_iff : Alike x y ↔ x.mapError kind = y.mapError kind := by
  cases x <;> cases y <;> simp [Alike, Except.mapError]

theorem Alike.refl (x : Except Failure α) : Alike x x := alike_iff.mpr rfl

theorem Alike.symm (h : Alike x y) : Alike y x := alike_iff.mpr (alike_iff.mp h).symm

theorem Alike.trans (h : Alike x y) (h' : Alike y z) : Alike x z :=
  alike_iff.mpr ((alike_iff.mp h).trans (alike_iff.mp h'))

/-- Putting results that can be told apart into something larger does not make them alike. -/
theorem alike_map_iff {f : α → β} (hf : Function.Injective f) :
    Alike (x >>= fun a => .ok (f a)) (y >>= fun a => .ok (f a)) ↔ Alike x y := by
  cases x <;> cases y
  · exact Iff.rfl
  · exact Iff.rfl
  · exact Iff.rfl
  · exact hf.eq_iff

end Failure

open Failure (Alike)

open ContentType (IsCharset IsMediaType bucket notProvided parse partsOf)

namespace Synthesis

variable {c : Contract} {r : Route} {template : String} {content : Assoc Json}

/-! ## What a header is served -/

/-- The content that a route declares for the bodies of its requests, if it declares any. -/
def content? (c : Contract) (r : Route) : Option (Assoc Json) := do
  let requestBody ← (c.resolve (← r.requestBody)).toOption
  (requestBody.member? "content").bind Json.asObject?

/-- The schema of an entry of the content. -/
def entrySchema (c : Contract) (template : String) : Option Json → Except Failure Json
  | some media =>
    match media.member? "schema" with
    | some schema => relaxed c schema
    | none => .ok (.object [])
  | none => .error (.unsupportedMediaType template none)

/-- A header is served the entry that it selects. -/
theorem bodySchema_alike (h : MediaHeader) :
    Alike (bodySchema c template content (some h))
      (entrySchema c template (MediaType.select? content h)) := by
  unfold bodySchema entrySchema
  cases hselect : MediaType.select? content h with
  | none =>
    simp only [hselect]
    exact Failure.alike_error rfl
  | some media =>
    simp only [hselect, pure_bind, Option.bind_some]
    exact Alike.refl _

/-! ## What a bucket settles -/

/-- Whether the bucket of a header settles what content says of it. -/
structure BucketSettles (c : Contract) (template : String) (content : Assoc Json) : Prop where
  /-- An entry for a charset says what is said of other charsets, unless the media type has an
  entry. -/
  charset : ∀ mediaType charset entry, IsMediaType mediaType → IsCharset charset →
    content.contains mediaType = false →
    content.get? (mediaType ++ "; " ++ charset) = some entry →
      Alike (entrySchema c template (some entry))
        (entrySchema c template (MediaType.wildcard? content mediaType))
  /-- No header is served like the header that spells its bucket. -/
  absent : Alike (bodySchema c template content none)
    (bodySchema c template content (parse (some notProvided)))

/-- Where the bucket is not declared, it settles that a header is served the wildcard. -/
theorem BucketSettles.wildcard (h : BucketSettles c template content) {raw : List Char}
    (hbucket : bucket (some (partsOf raw)) = (partsOf raw).mediaType)
    (hnone : content.contains (partsOf raw).mediaType = false) :
    Alike (entrySchema c template (MediaType.select? content (partsOf raw)))
      (entrySchema c template (MediaType.wildcard? content (partsOf raw).mediaType)) := by
  obtain ⟨charset, hcharset, -, hequivalents⟩ := ContentType.equivalents_partsOf raw
  rw [hbucket] at hequivalents
  have hget : content.get? (partsOf raw).mediaType = none := by
    simpa [Assoc.contains_eq] using hnone
  cases hentry : content.get? ((partsOf raw).mediaType ++ "; " ++ charset) with
  | some entry =>
    have hselect : MediaType.select? content (partsOf raw) = some entry :=
      MediaType.select?_of_findSome? (by simp [hequivalents, hget, hentry])
    rw [hselect]
    exact h.charset _ charset entry (ContentType.isMediaType_partsOf raw) hcharset hnone hentry
  | none =>
    rw [MediaType.select?_of_none (by simp [hequivalents, hget, hentry])]
    exact Alike.refl _

/-- Headers of one bucket are served alike. -/
theorem BucketSettles.select (h : BucketSettles c template content) {raw raw' : List Char}
    (hbucket : bucket (some (partsOf raw)) = bucket (some (partsOf raw'))) :
    Alike (entrySchema c template (MediaType.select? content (partsOf raw)))
      (entrySchema c template (MediaType.select? content (partsOf raw'))) := by
  have hmedia : (partsOf raw).mediaType = (partsOf raw').mediaType := by
    rw [← String.toList_inj, ← ContentType.mediaTypeOf_bucket raw, ← ContentType.mediaTypeOf_bucket raw', hbucket]
  by_cases hself : bucket (some (partsOf raw)) = (partsOf raw).mediaType
  · cases hentry : content.get? (partsOf raw).mediaType with
    | some entry =>
      rw [MediaType.select?_of_bucket (hself ▸ hentry),
        MediaType.select?_of_bucket (hbucket ▸ hself ▸ hentry)]
      exact Alike.refl _
    | none =>
      have hnone : content.contains (partsOf raw).mediaType = false := by
        simp [Assoc.contains_eq, hentry]
      have hself' : bucket (some (partsOf raw')) = (partsOf raw').mediaType := by
        rw [← hbucket, hself, hmedia]
      refine (h.wildcard hself hnone).trans ?_
      rw [hmedia] at hnone ⊢
      exact (h.wildcard hself' hnone).symm
  · -- both are looked up under the same texts
    have hself' : bucket (some (partsOf raw')) ≠ (partsOf raw').mediaType := by
      rw [← hbucket, ← hmedia]
      exact hself
    obtain ⟨_, -, hdefault, hequivalents⟩ := ContentType.equivalents_partsOf raw
    obtain ⟨_, -, hdefault', hequivalents'⟩ := ContentType.equivalents_partsOf raw'
    have hselect : MediaType.select? content (partsOf raw) =
        MediaType.select? content (partsOf raw') := by
      simp only [MediaType.select?, hequivalents, hequivalents', hdefault hself, hdefault' hself',
        hbucket, hmedia]
    rw [hselect]
    exact Alike.refl _

/-- **What is said of a header is settled by its bucket** exactly when entries for charsets and
the lack of a header make no difference. -/
theorem bodySchema_alike_of_bucket_iff :
    (∀ header header' : Option String, bucket (parse header) = bucket (parse header') →
      Alike (bodySchema c template content (parse header))
        (bodySchema c template content (parse header'))) ↔
      BucketSettles c template content := by
  constructor
  · intro h
    refine ⟨fun mediaType charset entry hmedia hcharset hnone hentry => ?_, h none _ (by decide)⟩
    have hget : content.get? mediaType = none := by simpa [Assoc.contains_eq] using hnone
    -- one header for the entry, and one with a charset that has no entry
    obtain ⟨other, hother, hundeclared⟩ := MediaType.exists_undeclared content
    obtain ⟨header, d, hparse, rfl, hd⟩ := ContentType.exists_header_of_charset hmedia hcharset
    obtain ⟨header', d', hparse', hmedia', hd'⟩ :=
      ContentType.exists_header_of_charset hmedia hother.isCharset
    have hequivalents : ContentType.equivalents (some d) =
        [d.mediaType, d.mediaType ++ "; " ++ charset] := by simp [ContentType.equivalents, hd]
    have hequivalents' : ContentType.equivalents (some d') =
        [d.mediaType, d.mediaType ++ "; " ++ other] := by
      simp [ContentType.equivalents, hd', hmedia']
    have halike := h (some header) (some header') (by
      simp [hparse, hparse', bucket, hequivalents, hequivalents'])
    have hselect : MediaType.select? content d = some entry :=
      MediaType.select?_of_findSome? (by simp [hequivalents, hget, hentry])
    have hselect' : MediaType.select? content d' = MediaType.wildcard? content d.mediaType := by
      rw [MediaType.select?_of_none (by simp [hequivalents', hget, hundeclared]), hmedia']
    rw [hparse, hparse'] at halike
    have hserved := (bodySchema_alike d).symm.trans (halike.trans (bodySchema_alike d'))
    rwa [hselect, hselect'] at hserved
  · intro h
    -- a header is served like the one that spells its bucket
    have hsome : ∀ header header' d d', parse header = some d → parse header' = some d' →
        bucket (some d) = bucket (some d') →
          Alike (bodySchema c template content (some d))
            (bodySchema c template content (some d')) := by
      intro header header' d d' hparse hparse' hbucket
      obtain ⟨raw, -, rfl⟩ := ContentType.exists_trimmed_of_parse hparse
      obtain ⟨raw', -, rfl⟩ := ContentType.exists_trimmed_of_parse hparse'
      exact (bodySchema_alike _).trans ((h.select hbucket).trans (bodySchema_alike _).symm)
    have hspelled : parse (some notProvided) = some ⟨notProvided, notProvided, notProvided, none⟩ := by
      decide
    have habsent := h.absent
    rw [hspelled] at habsent
    intro header header' hbucket
    cases hparse : parse header with
    | none =>
      cases hparse' : parse header' with
      | none => exact Alike.refl _
      | some d' =>
        rw [hparse, hparse'] at hbucket
        exact habsent.trans (hsome _ _ _ _ hspelled hparse' hbucket)
    | some d =>
      cases hparse' : parse header' with
      | none =>
        rw [hparse, hparse'] at hbucket
        exact (habsent.trans (hsome _ _ _ _ hspelled hparse hbucket.symm)).symm
      | some d' =>
        rw [hparse, hparse'] at hbucket
        exact hsome _ _ _ _ hparse hparse' hbucket

/-! ## Whole schemas -/

/-- Whether the body of a route must be there. -/
def requiresBody (c : Contract) (r : Route) : Bool :=
  ((r.requestBody.bind fun raw => (c.resolve raw).toOption).bind fun requestBody =>
    (requestBody.member? "required").bind Json.asBool?).getD false

/-- The body of a route that declares content. -/
theorem body_of_content? (hcontent : content? c r = some content) (t : ContentType) :
    body c r t = bodySchema c r.template content t >>= fun schema =>
      .ok (schema, requiresBody c r) := by
  obtain ⟨raw, hraw, hcontent⟩ := Option.bind_eq_some_iff.mp hcontent
  obtain ⟨requestBody, hresolve, hcontent⟩ := Option.bind_eq_some_iff.mp hcontent
  have hrequires : requiresBody c r =
      ((requestBody.member? "required").bind Json.asBool?).getD false := by
    rw [requiresBody, hraw, Option.bind_some, hresolve, Option.bind_some]
  rw [hrequires]
  simp only [body, hraw, Except.toOption_eq_some_iff.mp hresolve, bind, Except.bind, hcontent]
  rfl

/-- The bodies of a route for two headers are alike when what its content says of them is. -/
theorem body_alike_iff {t t' : ContentType} (hcontent : content? c r = some content) :
    Alike (body c r t) (body c r t') ↔
      Alike (bodySchema c r.template content t) (bodySchema c r.template content t') := by
  rw [body_of_content? hcontent, body_of_content? hcontent]
  exact Failure.alike_map_iff fun _ _ h => (Prod.mk.inj h).1

/-- A route that declares no content has one body for all headers. -/
theorem body_of_content?_eq_none (hcontent : content? c r = none) (t t' : ContentType) :
    body c r t = body c r t' := by
  unfold content? at hcontent
  unfold body
  cases hraw : r.requestBody with
  | none => rfl
  | some raw =>
    cases hresolve : c.resolve raw with
    | error f =>
      simp only [hresolve]
      rfl
    | ok requestBody =>
      simp only [hraw, hresolve, Option.bind_eq_bind, Option.bind_some, Except.toOption] at hcontent
      simp only [hresolve, bind, Except.bind, hcontent]

end Synthesis

namespace RequestSchema

variable {c : Contract} {r : Route} {content : Assoc Json}

open Synthesis

/-- The schemas of a route for two headers are alike when their bodies are, if the parameters are
well-formed. -/
theorem synthesize_alike_iff {t t' : ContentType} {declared : Declared}
    (hdeclared : r.parameters.foldlM (addRaw c r.template) .none = .ok declared) :
    Alike (synthesize c r t) (synthesize c r t') ↔ Alike (Synthesis.body c r t) (Synthesis.body c r t') := by
  rw [synthesize_of_declared hdeclared, synthesize_of_declared hdeclared]
  refine Failure.alike_map_iff fun b b' h => ?_
  simp only [mk.injEq] at h
  exact Prod.ext h.2.1 h.2.2.1

theorem synthesize_of_error {t : ContentType} {f : Failure}
    (hdeclared : r.parameters.foldlM (addRaw c r.template) .none = .error f) :
    synthesize c r t = .error f := by
  simp only [synthesize, hdeclared]
  rfl

/-- **When the bucket determines the schema.** Headers of one bucket have the same schema for a
route, or fail alike, exactly when a parameter is malformed, or no content is declared, or the bucket
settles what the content says of a header. -/
theorem synthesize_alike_of_bucket_iff (c : Contract) (r : Route) :
    (∀ header header' : Option String, bucket (parse header) = bucket (parse header') →
      Alike (synthesize c r (parse header)) (synthesize c r (parse header'))) ↔
      ∀ declared content, r.parameters.foldlM (addRaw c r.template) .none = .ok declared →
        content? c r = some content → BucketSettles c r.template content := by
  constructor
  · intro h declared content hdeclared hcontent
    refine bodySchema_alike_of_bucket_iff.mp fun header header' hbucket => ?_
    have halike := h header header' hbucket
    rwa [synthesize_alike_iff hdeclared, body_alike_iff hcontent] at halike
  · intro h header header' hbucket
    cases hdeclared : r.parameters.foldlM (addRaw c r.template) Declared.none with
    | error f =>
      rw [synthesize_of_error hdeclared, synthesize_of_error hdeclared]
      exact Alike.refl _
    | ok declared =>
      rw [synthesize_alike_iff hdeclared]
      cases hcontent : content? c r with
      | none =>
        rw [body_of_content?_eq_none hcontent (parse header) (parse header')]
        exact Alike.refl _
      | some content =>
        rw [body_alike_iff hcontent]
        exact bodySchema_alike_of_bucket_iff.mpr (h declared content hdeclared hcontent)
          header header' hbucket

end RequestSchema

/-- A contract with `POST /a`, whose bodies are declared for one charset alone. -/
def oneCharset : Contract where
  root := [
    ("openapi", .string "3.0.3"),
    ("paths", .object [("/a", .object [("post", .object [
      ("requestBody", .object [("content", .object [
        ("application/json; charset=utf-8", .object [
          ("schema", .object [("type", .string "object")])])])]),
      ("responses", .object [])])])])]
  version := "3.0.3"

/-- A header without a charset and one with another have one bucket, and only one has a schema. -/
theorem synthesize_not_alike :
    ∃ r : Route, oneCharset.routes = .ok [r] ∧
      bucket (parse (some "application/json")) =
        bucket (parse (some "application/json; charset=latin1")) ∧
      ¬ Alike (RequestSchema.synthesize oneCharset r (parse (some "application/json")))
        (RequestSchema.synthesize oneCharset r
          (parse (some "application/json; charset=latin1"))) := by
  refine ⟨_, rfl, by decide, by decide +kernel⟩

end ApiContract
