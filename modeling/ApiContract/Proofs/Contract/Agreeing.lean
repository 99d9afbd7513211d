import ApiContract.Coercion
import ApiContract.Proofs.Failing
import ApiContract.Proofs.Schema.Parts
import ApiContract.Request.Synthesis
/-!
# Contracts that agree on references

Two contracts may differ, and yet the references of a scope lead to the same parts of both. Then
whatever refers to nothing else is resolved alike, bodies are synthesized alike, and values are
coerced alike.
-/

namespace ApiContract

open Schema

/-! ## References of parts -/

namespace Schema

theorem refs_of_member? {v w : Json} {key : String} (h : v.member? key = some w) :
    refs w ⊆ refs v := by
  cases v with
  | object members => exact fun t ht => refs_subset_of_mem_members (Assoc.mem_of_get? h) t ht
  | _ => cases h

theorem refs_of_asObject? {v : Json} {members : Assoc Json} (h : v.asObject? = some members) :
    refsOfMembers members = refs v := by
  cases v with
  | object _ =>
    obtain rfl := Option.some.inj h
    rfl
  | _ => cases h

theorem refs_of_child? {v w : Json} {segment : List Char} (h : Pointer.child? v segment = some w) :
    refs w ⊆ refs v := by
  unfold Pointer.child? at h
  split at h
  · exact fun t ht => refs_subset_of_mem_members (Assoc.mem_of_get? h) t ht
  · obtain ⟨n, -, hn⟩ := Option.bind_eq_some_iff.mp h
    exact fun t ht => refs_subset_of_mem_items (List.mem_of_getElem? hn) t ht
  · cases h

theorem refs_of_find? {v w : Json} {pointer : List Char} (h : Pointer.find? v pointer = some w) :
    refs w ⊆ refs v := by
  unfold Pointer.find? at h
  split at h
  · obtain rfl := Option.some.inj h
    exact List.Subset.refl _
  · next cs =>
    generalize Text.splitOn '/' cs = segments at h
    induction segments generalizing v with
    | nil =>
      obtain rfl := Option.some.inj h
      exact List.Subset.refl _
    | cons segment segments ih =>
      rw [List.foldlM_cons] at h
      obtain ⟨u, hu, h⟩ := Option.bind_eq_some_iff.mp h
      exact List.Subset.trans (ih h) (refs_of_child? hu)
  · cases h

theorem mem_refs_of_referenceOf? {v : Json} {t : String} (h : Contract.referenceOf? v = some t) :
    t ∈ refs v := by
  obtain ⟨w, hw, hs⟩ := Option.bind_eq_some_iff.mp h
  cases v with
  | object members =>
    cases w with
    | string s =>
      obtain rfl := Option.some.inj hs
      exact mem_refs_of_ref (Assoc.mem_of_get? hw)
    | _ => cases hs
  | _ => cases hw

theorem refsOfItems_filter_subset (items : List Json) (keep : Json → Bool) :
    refsOfItems (items.filter keep) ⊆ refsOfItems items := by
  induction items with
  | nil => exact List.Subset.refl _
  | cons v vs ih =>
    rw [List.filter_cons]
    split
    · exact append_subset_append (List.Subset.refl _) ih
    · exact List.subset_append_of_subset_right _ ih

theorem refsOfMembers_filter_subset (members : Assoc Json) (keep : String × Json → Bool) :
    refsOfMembers (members.filter keep) ⊆ refsOfMembers members := by
  induction members with
  | nil => exact List.Subset.refl _
  | cons e rest ih =>
    obtain ⟨k, v⟩ := e
    rw [List.filter_cons]
    split
    · exact append_subset_append (List.Subset.refl _) ih
    · exact List.subset_append_of_subset_right _ ih

theorem refsOfMembers_insert_subset (members : Assoc Json) {key : String} (hkey : key ≠ "$ref")
    (v : Json) : refsOfMembers (members.insert key v) ⊆ refs v ++ refsOfMembers members := by
  induction members with
  | nil =>
    intro t ht
    simpa [Assoc.insert, refsOfMembers, hkey] using ht
  | cons e rest ih =>
    obtain ⟨k, w⟩ := e
    intro t ht
    unfold Assoc.insert at ht
    split at ht
    · simpa [refsOfMembers, hkey] using ht
    · split at ht
      · simp only [refsOfMembers, List.mem_append, hkey, if_false, List.not_mem_nil, false_or]
          at ht ⊢
        tauto
      · rw [refsOfMembers, List.mem_append] at ht
        rw [refsOfMembers, List.mem_append, List.mem_append]
        rcases ht with ht | ht
        · exact Or.inr (Or.inl ht)
        · exact (List.mem_append.mp (ih ht)).imp_right Or.inr

end Schema

namespace Contract

/-- Whether references of a scope lead to the same parts of two contracts, and these parts refer to
more of the scope. -/
structure Agree (c c' : Contract) (scope : String → Prop) : Prop where
  same : ∀ t, scope t → c'.resolveReference t = c.resolveReference t
  closed : ∀ t v, scope t → c.resolveReference t = .ok v → ∀ u ∈ refs v, scope u

section

variable {c c' : Contract} {scope : String → Prop} {v w : Json}

/-! ### References into the components -/

/-- Whether a reference leads into the components as it is written. What compiles undoes escapes
with a percent sign first, and a contract does not. -/
def pointsIntoComponents (target : String) : Bool :=
  match target.toList with
  | '#' :: '/' :: cs => (Text.splitOn '/' cs).head?.any fun segment =>
    String.ofList (Pointer.unescape segment) == "components"
  | _ => false

/-- Such a reference leads to the same part of contracts with the same components. -/
theorem resolveReference_congr {t : String} (ht : pointsIntoComponents t = true)
    (hc : c'.components? = c.components?) : c'.resolveReference t = c.resolveReference t := by
  unfold pointsIntoComponents at ht
  unfold components? at hc
  split at ht
  · next cs hcs =>
    simp only [resolveReference, hcs, Pointer.find?]
    cases hs : Text.splitOn '/' cs with
    | nil => simp [hs] at ht
    | cons segment rest =>
      simp only [hs, List.head?_cons, Option.any_some, beq_iff_eq] at ht
      simp only [List.foldlM_cons, Pointer.child?, document, ht, hc]
  · cases ht

/-- What a reference leads to refers to what the contract refers to. -/
theorem refs_subset_of_resolveReference {t : String} (h : c.resolveReference t = .ok v) :
    refs v ⊆ refs c.document := by
  unfold resolveReference at h
  split at h
  · split at h
    · next w hw =>
      obtain rfl := Except.ok.inj h
      exact refs_of_find? hw
    · cases h
  · cases h

/-- Whether a reference leads into the components, however it is read. -/
def IntoComponents (target : String) : Prop :=
  pointsIntoComponents target = true ∧ leadsIntoComponents target = true

instance : DecidablePred IntoComponents := fun _ => inferInstanceAs (Decidable (_ ∧ _))

/-- Contracts with the same components agree on references into them, if no others stand there. -/
theorem agree_of_components (hc : c'.components? = c.components?)
    (h : ∀ t ∈ refs c.document, IntoComponents t) : c.Agree c' IntoComponents :=
  ⟨fun _ ht => resolveReference_congr ht.1 hc,
    fun _ _ _ hv u hu => h u (refs_subset_of_resolveReference hv hu)⟩

/-! ### Resolving -/

/-- What refers to the scope alone is resolved alike. -/
theorem Agree.resolve_eq (h : c.Agree c' scope) (hv : ∀ t ∈ refs v, scope t) :
    c'.resolve v = c.resolve v := by
  unfold resolve
  cases ht : referenceOf? v with
  | none => rfl
  | some t => exact h.same t (hv t (mem_refs_of_referenceOf? ht))

/-- What it is resolved to refers to the scope alone. -/
theorem Agree.refs_of_resolve (h : c.Agree c' scope) (hv : ∀ t ∈ refs v, scope t)
    (hw : c.resolve v = .ok w) : ∀ t ∈ refs w, scope t := by
  unfold resolve at hw
  cases ht : referenceOf? v with
  | none =>
    rw [ht] at hw
    obtain rfl := Except.ok.inj hw
    exact hv
  | some t =>
    rw [ht] at hw
    exact h.closed t w (hv t (mem_refs_of_referenceOf? ht)) hw

theorem Agree.resolveOr_eq (h : c.Agree c' scope) (hv : ∀ t ∈ refs v, scope t) :
    c'.resolveOr v = c.resolveOr v := by
  unfold resolveOr
  rw [h.resolve_eq hv]

end

end Contract

/-! ## Bodies -/

namespace Synthesis

section

variable {c c' : Contract} {scope : String → Prop} {v w : Json}

theorem isReadOnly_eq (h : c.Agree c' scope) (hv : ∀ t ∈ refs v, scope t) :
    isReadOnly c' v = isReadOnly c v := by
  unfold isReadOnly
  rw [h.resolveOr_eq hv]

theorem withoutReadOnly_eq (h : c.Agree c' scope) (hv : ∀ t ∈ refs v, scope t) :
    withoutReadOnly c' v = withoutReadOnly c v := by
  unfold withoutReadOnly
  split
  · next members =>
    split
    · next properties hp =>
      have hreadOnly : properties.filter (fun e => isReadOnly c' e.2) =
          properties.filter fun e => isReadOnly c e.2 :=
        List.filter_congr fun e he => isReadOnly_eq h fun t ht =>
          hv t (refs_subset_of_mem_members (Assoc.mem_of_get? hp) t
            (refs_subset_of_mem_members he t ht))
      rw [hreadOnly]
    · rfl
  · rfl

theorem refs_dropRequired (names : List String) (members : Assoc Json) :
    refsOfMembers (dropRequired names members) ⊆ refsOfMembers members := by
  unfold dropRequired
  split
  · next required hr =>
    dsimp only
    split
    · exact refsOfMembers_filter_subset _ _
    · refine List.Subset.trans (refsOfMembers_insert_subset _ (by decide) _)
        (List.append_subset.mpr ⟨?_, List.Subset.refl _⟩)
      exact List.Subset.trans (refsOfItems_filter_subset _ _) fun t ht =>
        refs_subset_of_mem_members (Assoc.mem_of_get? hr) t ht
  · exact List.Subset.refl _

theorem refs_withoutReadOnly (c : Contract) (v : Json) : refs (withoutReadOnly c v) ⊆ refs v := by
  unfold withoutReadOnly
  split
  · split
    · exact refs_dropRequired _ _
    · exact List.Subset.refl _
  · exact List.Subset.refl _

theorem relaxed_eq (h : c.Agree c' scope) (hv : ∀ t ∈ refs v, scope t) :
    relaxed c' v = relaxed c v := by
  unfold relaxed
  rw [h.resolve_eq hv, withoutReadOnly_eq h hv]
  cases hr : c.resolve v with
  | error f => simp only [bind, Except.bind]
  | ok target =>
    have htarget := withoutReadOnly_eq h (h.refs_of_resolve hv hr)
    simp only [bind, Except.bind, htarget]

theorem refs_of_relaxed (h : c.Agree c' scope) (hv : ∀ t ∈ refs v, scope t)
    (hw : relaxed c v = .ok w) : ∀ t ∈ refs w, scope t := by
  unfold relaxed at hw
  split at hw
  · obtain ⟨target, htarget, hw⟩ := Except.bind_eq_ok_iff.mp hw
    obtain rfl := Except.ok.inj hw
    split
    · exact fun t ht => h.refs_of_resolve hv htarget t (refs_withoutReadOnly c target ht)
    · exact hv
  · obtain rfl := Except.ok.inj hw
    exact fun t ht => hv t (refs_withoutReadOnly c v ht)

end

/-- An entry that is selected is one of the content. -/
theorem exists_get?_of_select? {content : Assoc Json} {header : MediaHeader} {media : Json}
    (h : MediaType.select? content header = some media) : ∃ key, content.get? key = some media := by
  unfold MediaType.select? at h
  split at h
  · next entry hentry =>
    obtain rfl := Option.some.inj h
    obtain ⟨key, -, hkey⟩ := List.exists_of_findSome?_eq_some hentry
    exact ⟨key, hkey⟩
  · dsimp only at h
    split at h
    · next entry hentry =>
      obtain rfl := Option.some.inj h
      exact ⟨_, hentry⟩
    · exact ⟨_, h⟩

theorem exists_mem_of_defaultMedia? {content : Assoc Json} {media : Json}
    (h : defaultMedia? content = some media) : ∃ key, (key, media) ∈ content := by
  unfold defaultMedia? at h
  split at h
  · next entry hentry =>
    obtain rfl := Option.some.inj h
    exact ⟨_, Assoc.mem_of_get? hentry⟩
  · obtain ⟨e, he, rfl⟩ := Option.map_eq_some_iff.mp h
    exact ⟨e.1, List.mem_of_find?_eq_some he⟩

/-- The entry for a content type, or a fault. -/
def mediaOf (route : String) (content : Assoc Json) : ContentType → Except Failure (Option Json)
  | some header =>
    match MediaType.select? content header with
    | some media => .ok (some media)
    | none => .error (.unsupportedMediaType route (some header.raw))
  | none => .ok (defaultMedia? content)

theorem bodySchema_eq_bind (c : Contract) (route : String) (content : Assoc Json)
    (contentType : ContentType) :
    bodySchema c route content contentType = (mediaOf route content contentType).bind fun media =>
      match media.bind (·.member? "schema") with
      | some schema => relaxed c schema
      | none => .ok (.object []) := by
  unfold bodySchema mediaOf
  cases contentType with
  | none => rfl
  | some header =>
    dsimp only
    cases MediaType.select? content header <;> rfl

theorem exists_mem_of_mediaOf {route : String} {content : Assoc Json} {contentType : ContentType}
    {media : Json} (h : mediaOf route content contentType = .ok (some media)) :
    ∃ key, (key, media) ∈ content := by
  unfold mediaOf at h
  split at h
  · split at h
    · next hm =>
      obtain rfl := Option.some.inj (Except.ok.inj h)
      obtain ⟨key, hkey⟩ := exists_get?_of_select? hm
      exact ⟨key, Assoc.mem_of_get? hkey⟩
    · cases h
  · exact exists_mem_of_defaultMedia? (Except.ok.inj h)

section

variable {c c' : Contract} {scope : String → Prop} {route : String} {content : Assoc Json}
  {contentType : ContentType}

theorem refs_of_schema {media : Option Json} {schema : Json}
    (hcontent : ∀ t ∈ refsOfMembers content, scope t)
    (hmedia : mediaOf route content contentType = .ok media)
    (h : media.bind (·.member? "schema") = some schema) : ∀ t ∈ refs schema, scope t := by
  obtain ⟨m, rfl, hm⟩ := Option.bind_eq_some_iff.mp h
  obtain ⟨key, hkey⟩ := exists_mem_of_mediaOf hmedia
  exact fun t ht => hcontent t (refs_subset_of_mem_members hkey t (refs_of_member? hm ht))

theorem bodySchema_eq (h : c.Agree c' scope) (hcontent : ∀ t ∈ refsOfMembers content, scope t) :
    bodySchema c' route content contentType = bodySchema c route content contentType := by
  rw [bodySchema_eq_bind, bodySchema_eq_bind]
  cases hm : mediaOf route content contentType with
  | error f => simp only [Except.bind]
  | ok media =>
    simp only [Except.bind]
    cases hs : media.bind (·.member? "schema") with
    | none => rfl
    | some schema => exact relaxed_eq h (refs_of_schema hcontent hm hs)

theorem refs_of_bodySchema (h : c.Agree c' scope) (hcontent : ∀ t ∈ refsOfMembers content, scope t)
    {w : Json} (hw : bodySchema c route content contentType = .ok w) : ∀ t ∈ refs w, scope t := by
  rw [bodySchema_eq_bind] at hw
  obtain ⟨media, hm, hw⟩ := Except.bind_eq_ok_iff.mp hw
  split at hw
  · next schema hs => exact refs_of_relaxed h (refs_of_schema hcontent hm hs) hw
  · obtain rfl := Except.ok.inj hw
    exact fun t ht => absurd ht List.not_mem_nil

/-- The content of a body refers to what the body refers to. -/
theorem refs_of_content {body : Json} (hbody : ∀ t ∈ refs body, scope t)
    (h : (body.member? "content").bind Json.asObject? = some content) :
    ∀ t ∈ refsOfMembers content, scope t := by
  obtain ⟨v, hv, hmembers⟩ := Option.bind_eq_some_iff.mp h
  rw [refs_of_asObject? hmembers]
  exact fun t ht => hbody t (refs_of_member? hv ht)

variable {r r' : Route}

/-- **A body that refers to the scope alone is synthesized alike.** -/
theorem body_eq (h : c.Agree c' scope) (hr : ∀ raw ∈ r.requestBody, ∀ t ∈ refs raw, scope t)
    (hbody : r'.requestBody = r.requestBody) (htemplate : r'.template = r.template) :
    body c' r' contentType = body c r contentType := by
  unfold body
  rw [hbody, htemplate]
  cases hraw : r.requestBody with
  | none => rfl
  | some raw =>
    dsimp only
    rw [h.resolve_eq (hr raw hraw)]
    cases hresolve : c.resolve raw with
    | error f => simp only [bind, Except.bind]
    | ok v =>
      have hv := h.refs_of_resolve (hr raw hraw) hresolve
      simp only [bind, Except.bind]
      cases hcontent : (v.member? "content").bind Json.asObject? with
      | none => simp only
      | some content => simp only [bodySchema_eq h (refs_of_content hv hcontent)]

theorem refs_of_body (h : c.Agree c' scope) (hr : ∀ raw ∈ r.requestBody, ∀ t ∈ refs raw, scope t)
    {w : Json} {required : Bool} (hw : body c r contentType = .ok (w, required)) :
    ∀ t ∈ refs w, scope t := by
  unfold body at hw
  split at hw
  · obtain ⟨rfl, -⟩ := Prod.mk.inj (Except.ok.inj hw)
    exact fun t ht => absurd ht List.not_mem_nil
  · next raw hraw =>
    obtain ⟨v, hresolve, hw⟩ := Except.bind_eq_ok_iff.mp hw
    split at hw
    · obtain ⟨rfl, -⟩ := Prod.mk.inj (Except.ok.inj hw)
      exact fun t ht => absurd ht List.not_mem_nil
    · next content hcontent =>
      obtain ⟨schema, hschema, hw⟩ := Except.bind_eq_ok_iff.mp hw
      obtain ⟨rfl, -⟩ := Prod.mk.inj (Except.ok.inj hw)
      exact refs_of_bodySchema h
        (refs_of_content (h.refs_of_resolve (hr raw hraw) hresolve) hcontent) hschema

end

end Synthesis

/-! ## Coercion -/

section

variable {c c' : Contract} {scope : String → Prop}

mutual

/-- **A schema that refers to the scope alone coerces alike.** -/
theorem Coercion.value_eq (h : c.Agree c' scope) : (v schema : Json) →
    (∀ t ∈ refs schema, scope t) → Coercion.value c' v schema = Coercion.value c v schema
  | .array items, schema, hs => by
    rw [Coercion.value, Coercion.value, h.resolve_eq hs]
    cases hr : c.resolve schema with
    | error f => rfl
    | ok resolved =>
      simp only
      cases hi : Coercion.itemsOf? resolved (Coercion.kindsOf resolved) with
      | none => rfl
      | some each =>
        refine congrArg Json.array (Coercion.values_eq h items each fun t ht => ?_)
        unfold Coercion.itemsOf? at hi
        split at hi
        · exact h.refs_of_resolve hs hr t (refs_of_member? hi ht)
        · cases hi
  | .null, schema, hs | .bool _, schema, hs | .number _, schema, hs | .string _, schema, hs
  | .object _, schema, hs => by
    rw [Coercion.value, Coercion.value, h.resolve_eq hs]

theorem Coercion.values_eq (h : c.Agree c' scope) : (vs : List Json) → (schema : Json) →
    (∀ t ∈ refs schema, scope t) → Coercion.values c' vs schema = Coercion.values c vs schema
  | [], _, _ => rfl
  | v :: vs, schema, hs => by
    rw [Coercion.values, Coercion.values, Coercion.value_eq h v schema hs,
      Coercion.values_eq h vs schema hs]

end

end

/-! ## Security -/

/-- Whether contracts have the same security schemes, which refer to a scope alone, and the same
requirements. -/
structure Contract.SameSecurity (c c' : Contract) (scope : String → Prop) : Prop where
  requirements : c'.security = c.security
  schemes : c'.securitySchemes? = c.securitySchemes?
  refers : ∀ schemes ∈ c.securitySchemes?, ∀ t ∈ refsOfMembers schemes, scope t

theorem Contract.sameSecurity_of_components {c c' : Contract}
    (hc : c'.components? = c.components?) (hsecurity : c'.security = c.security)
    (h : ∀ t ∈ refs c.document, IntoComponents t) : c.SameSecurity c' IntoComponents where
  requirements := hsecurity
  schemes := by
    unfold securitySchemes?
    rw [hc]
  refers schemes hschemes t ht := by
    obtain ⟨components, hcomponents, hschemes⟩ := Option.bind_eq_some_iff.mp hschemes
    obtain ⟨v, hv, hmembers⟩ := Option.bind_eq_some_iff.mp hschemes
    rw [refs_of_asObject? hmembers] at ht
    exact h t (refs_subset_of_mem_members (Assoc.mem_of_get? hcomponents) t (refs_of_member? hv ht))

theorem Route.securityQueryParameters_eq {c c' : Contract} {scope : String → Prop} {r r' : Route}
    (h : c.Agree c' scope) (hs : c.SameSecurity c' scope) (hr : r'.security = r.security) :
    r'.securityQueryParameters c' = r.securityQueryParameters c := by
  have hrequirements : r'.requirements c' = r.requirements c := by
    unfold requirements
    rw [hr, hs.requirements]
  unfold securityQueryParameters
  rw [hs.schemes, hrequirements]
  cases hschemes : c.securitySchemes? with
  | none => rfl
  | some schemes =>
    have hone : queryParameterOf? c' schemes = queryParameterOf? c schemes := by
      funext name
      unfold queryParameterOf?
      cases hscheme : schemes.get? name with
      | none => rfl
      | some scheme =>
        have hrefs : ∀ t ∈ refs scheme, scope t := fun t ht => hs.refers schemes hschemes t
          (refs_subset_of_mem_members (Assoc.mem_of_get? hscheme) t ht)
        simp only [bind, Option.bind, h.resolveOr_eq hrefs]
    simp only [hone]

end ApiContract
