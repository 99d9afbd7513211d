import ApiContract.Proofs.Request.Document
import ApiContract.Proofs.Schema.Restating
/-!
# Request schemas with references in them

A declared schema may be written out, or as a reference to a component that is the same schema. The
documents of two such requests are refused alike, or tell the same problems of every request.
-/

namespace ApiContract

open Schema

namespace Schema

/-! ## References of nullable schemas -/

theorem refsOfItems_append (vs ws : List Json) :
    refsOfItems (vs ++ ws) = refsOfItems vs ++ refsOfItems ws := by
  induction vs with
  | nil => rfl
  | cons v vs ih => rw [List.cons_append, refsOfItems, refsOfItems, ih, List.append_assoc]

theorem refs_widenKinds (v : Json) : refs (widenKinds v) = refs v := by
  cases v with
  | array kinds =>
    rw [widenKinds]
    split
    · rfl
    · exact (refsOfItems_append kinds _).trans (List.append_nil _)
  | _ => rfl

theorem refs_widenValues (v : Json) : refs (widenValues v) = refs v := by
  cases v with
  | array values =>
    rw [widenValues]
    split
    · rfl
    · exact (refsOfItems_append values _).trans (List.append_nil _)
  | _ => rfl

theorem refsOfMembers_modify {key : String} {f : Json → Json} (hkey : key ≠ "$ref")
    (hf : ∀ v, refs (f v) = refs v) (members : Assoc Json) :
    refsOfMembers (members.modify key f) = refsOfMembers members := by
  induction members with
  | nil => rfl
  | cons e rest ih =>
    obtain ⟨k, v⟩ := e
    have ih : refsOfMembers (List.map (fun e => if e.1 = key then (e.1, f e.2) else e) rest) =
      refsOfMembers rest := ih
    by_cases hk : k = key
    · simp [Assoc.modify, refsOfMembers, hk, hkey, hf, ih]
    · simp [Assoc.modify, refsOfMembers, hk, ih]

theorem refsOfMembers_widen (members : Assoc Json) :
    refsOfMembers (widen members) = refsOfMembers members := by
  unfold widen
  split
  · rw [refsOfMembers_modify (by decide) refs_widenValues,
      refsOfMembers_modify (by decide) refs_widenKinds]
  · rfl

mutual

/-- Making a schema plain about null changes no reference. -/
theorem refs_normalize : (v : Json) → refs (normalize v) = refs v
  | .object members => by
    rw [normalize, refs, refsOfMembers_widen, refsOfMembers_normalize members, refs]
  | .array items => by rw [normalize, refs, refsOfItems_normalize items, refs]
  | .null | .bool _ | .number _ | .string _ => rfl

theorem refsOfItems_normalize : (items : List Json) →
    refsOfItems (normalizeItems items) = refsOfItems items
  | [] => rfl
  | v :: vs => by
    rw [normalizeItems, refsOfItems, refs_normalize v, refsOfItems_normalize vs, refsOfItems]

theorem refsOfMembers_normalize : (members : List (String × Json)) →
    refsOfMembers (normalizeMembers members) = refsOfMembers members
  | [] => rfl
  | (k, v) :: rest => by
    have htext : (normalize v).asString? = v.asString? := by cases v <;> rfl
    rw [normalizeMembers, refsOfMembers, htext, refs_normalize v, refsOfMembers_normalize rest,
      refsOfMembers]

end

/-- Widening maps of schemas that are related one by one. -/
theorem rel_widen {Q : Json → Json → Prop} {members members' : Assoc Json}
    (hnull : ∀ v v', Q v v' → (v = .bool true ↔ v' = .bool true))
    (hkinds : ∀ v v', Q v v' → Q (widenKinds v) (widenKinds v'))
    (hvalues : ∀ v v', Q v v' → Q (widenValues v) (widenValues v'))
    (h : Assoc.Rel Q members members') : Assoc.Rel Q (widen members) (widen members') := by
  have hnullable : members.get? "nullable" = some (.bool true) ↔
      members'.get? "nullable" = some (.bool true) := by
    have hget := h.get? "nullable"
    generalize members.get? "nullable" = v, members'.get? "nullable" = v' at hget
    cases hget with
    | none => rfl
    | some hv => rw [Option.some_inj, Option.some_inj, hnull _ _ hv]
  unfold widen
  by_cases hn : members.get? "nullable" = some (.bool true)
  · rw [if_pos hn, if_pos (hnullable.mp hn)]
    exact (h.modify hkinds "type").modify hvalues "enum"
  · rw [if_neg hn, if_neg fun hn' => hn (hnullable.mpr hn')]
    exact h

end Schema

namespace Compiler

/-! ## References of a scope -/

/-- The components alone, as a document. -/
def alone (x : Compiler) : Json := withComponents x.components (.object [])

/-- Whether an object has no other members than the schema of a request, or a reference. -/
def IsBare (members : Assoc Json) : Prop :=
  ∀ k, members.contains k = true → k ∈ ["$ref", "properties", "required"]

theorem isBare_reference (target : String) : IsBare [("$ref", .string target)] := by
  intro k h
  rw [Assoc.contains_iff_mem_keys] at h
  obtain rfl : k = "$ref" := List.mem_singleton.mp h
  decide

/-- Whether a reference leads to one part, whatever the schemas of a request are. -/
def LeadsOutside (x : Compiler) (t : String) : Prop :=
  ∀ members, IsBare members →
    resolveReference (withComponents x.components (.object members)) t =
      resolveReference x.alone t

/-- References into the components do. -/
theorem leadsOutside_of_leadsIntoComponents {x : Compiler} {t : String}
    (h : leadsIntoComponents t = true) : x.LeadsOutside t := by
  intro members hmembers
  unfold alone
  cases x.components with
  | none =>
    refine resolveReference_congr h ?_
    cases hc : members.get? "components" with
    | none => rfl
    | some v => exact absurd (hmembers "components" (by simp [Assoc.contains_eq, hc])) (by decide)
  | some c => exact resolveReference_congr h (by simp)

/-- Whether two compilers agree on references of a scope: they lead to the same parts of the
components, which refer to more of the scope. -/
structure Agree (x x' : Compiler) (scope : String → Prop) : Prop where
  dialect : x'.dialect = x.dialect
  formats : x'.formats = x.formats
  outside : ∀ t, scope t → x.LeadsOutside t
  outside' : ∀ t, scope t → x'.LeadsOutside t
  parts : SameParts x.alone x'.alone scope

/-- Whether judging by a schema may come to a reference at the same value. -/
inductive ComesTo (x : Compiler) (schema : Json) : String → Prop
  | here {t : String} (h : t ∈ near (x.reading schema)) : ComesTo x schema t
  | onward {t u : String} {v : Json} (h : ComesTo x schema t)
      (hv : resolveReference x.alone t = .ok v)
      (hu : u ∈ near (read x.dialect x.formats v).result) : ComesTo x schema u

/-- Whether a reference may stand for a schema object: the object is good, the reference leads to it
and compiles, and judging by the object does not come back to the reference at the same value. -/
structure Refers (x : Compiler) (target : String) (schema : Json) : Prop where
  object : ∃ members, schema = .object members
  good : (metaschema x.dialect).accepts (normalize schema) = true
  resolved : resolveReference x.alone target = .ok (normalize schema)
  compiles : ∃ route c, x.compile (reference target) route = .ok c
  apart : ¬x.ComesTo schema target

/-- Whether a reference is met, without a fault, from one that compiles. -/
def Met (x : Compiler) (t : String) : Prop :=
  ∃ target route c, x.compile (reference target) route = .ok c ∧ c.definitions.contains t = true

section

variable {x x' : Compiler} {scope : String → Prop} {members members' : Assoc Json}

theorem Agree.sameParts (h : x.Agree x' scope) (hm : IsBare members) (hm' : IsBare members') :
    SameParts (withComponents x.components (.object members))
      (withComponents x'.components (.object members')) scope where
  same t ht := by rw [h.outside t ht _ hm, h.outside' t ht _ hm', h.parts.same t ht]
  closed t v ht hv := by
    rw [h.outside t ht _ hm] at hv
    exact h.parts.closed t v ht hv

/-- What such a reference leads to, and what that refers to. -/
theorem Met.exists_part (h : x.Agree x' scope) {t : String} (ht : scope t) (hmet : x.Met t) :
    ∃ v, resolveReference x.alone t = .ok v ∧ Faultless x.dialect x.formats v ∧
      ∀ u, .reference u ∈ (read x.dialect x.formats v).events → scope u ∧ x.Met u := by
  obtain ⟨target, route, c, hc, hcontains⟩ := hmet
  have hl := linked_of_compile hc
  obtain ⟨s, hs⟩ := Option.isSome_iff_exists.mp hcontains
  obtain ⟨v, hv, hfaultless, -, hinner⟩ := hl.settled t s hs
  rw [document_eq, normalize_reference] at hv
  have hv : resolveReference x.alone t = .ok v :=
    (h.outside t ht _ (isBare_reference target)).symm.trans hv
  exact ⟨v, hv, hfaultless, fun u hu => ⟨h.parts.closed t v ht hv u (mem_refs_of_reference hu),
    target, route, c, hc, hinner u hu⟩⟩

/-- References that are met without a fault are closed in every document. -/
theorem Agree.closedUnder (h : x.Agree x' scope) (hm : IsBare members) :
    ClosedUnder x.dialect x.formats (withComponents x.components (.object members))
      fun t => scope t ∧ x.Met t := by
  rintro t ⟨ht, hmet⟩
  obtain ⟨v, hv, hfaultless, hinner⟩ := hmet.exists_part h ht
  exact ⟨v, (h.outside t ht _ hm).trans hv, hfaultless, hinner⟩

theorem Agree.closedUnder' (h : x.Agree x' scope) (hm : IsBare members) :
    ClosedUnder x.dialect x.formats (withComponents x'.components (.object members))
      fun t => scope t ∧ x.Met t := by
  rintro t ⟨ht, hmet⟩
  obtain ⟨v, hv, hfaultless, hinner⟩ := hmet.exists_part h ht
  exact ⟨v, (h.outside' t ht _ hm).trans ((h.parts.same t ht).trans hv), hfaultless, hinner⟩

/-- A reference that may stand for a schema is met without a fault. -/
theorem Refers.met {target : String} {schema : Json} (h : x.Refers target schema) :
    x.Met target := by
  obtain ⟨route, c, hc⟩ := h.compiles
  refine ⟨target, route, c, hc, (linked_of_compile hc).entered target ?_⟩
  rw [document_eq, read_withComponents, normalize_reference, read_reference]
  exact List.mem_cons_self

/-! ## Schemas and references to them -/

/-- Whether one schema is another, or a reference to it. -/
inductive Restates (x : Compiler) (scope : String → Prop) : Json → Json → Prop
  | same (v : Json) (h : ∀ t ∈ refs v, scope t) : Restates x scope v v
  | reference {target : String} {schema : Json} (ht : scope target) (h : x.Refers target schema) :
      Restates x scope schema (Schema.reference target)

/-- Whether a property of one document may stand for that of another. -/
structure Replaces (x : Compiler) (root root' : Json) (scope : String → Prop) (v v' : Json) :
    Prop where
  interchangeable : Interchangeable x.dialect x.formats root root' scope
    (fun t => scope t ∧ x.Met t) v v'
  refers : ∀ t, .reference t ∈ (read x.dialect x.formats v).events → scope t
  refers' : ∀ t, .reference t ∈ (read x.dialect x.formats v').events → scope t
  shape : (v = v' ∧ ∀ t ∈ refs v, scope t) ∨ ∃ ms ms', v = .object ms ∧ v' = .object ms'

theorem Replaces.same {root root' : Json} {v : Json} (h : ∀ t ∈ refs v, scope t) :
    x.Replaces root root' scope v v :=
  ⟨.refl v, fun t ht => h t (mem_refs_of_reference ht), fun t ht => h t (mem_refs_of_reference ht),
    .inl ⟨rfl, h⟩⟩

namespace Replaces

variable {root root' v v' : Json}

theorem eq_true_iff (h : x.Replaces root root' scope v v') :
    v = .bool true ↔ v' = .bool true := by
  rcases h.shape with ⟨rfl, -⟩ | ⟨_, _, rfl, rfl⟩
  · rfl
  · exact ⟨nofun, nofun⟩

/-- Widening changes no object, and what it changes refers to the same. -/
theorem widened (h : x.Replaces root root' scope v v') {f : Json → Json}
    (hf : ∀ v, refs (f v) = refs v) (hobject : ∀ ms, f (.object ms) = .object ms) :
    x.Replaces root root' scope (f v) (f v') := by
  rcases h.shape with ⟨rfl, hrefs⟩ | ⟨_, _, rfl, rfl⟩
  · exact .same fun t ht => hrefs t (by rwa [hf] at ht)
  · rwa [hobject, hobject]

/-- Plain schemas whose properties may stand for one another. -/
theorem plain {declared declared' : Assoc Json} {required : Option (List String)} {typed : Bool}
    (h : Assoc.Rel (x.Replaces root root' scope) declared declared') :
    x.Replaces root root' scope (.object (plainMembers declared required typed))
      (.object (plainMembers declared' required typed)) := by
  have hrefers := ((List.forall₂_and_left _ _).mp
    (List.Forall₂.imp (fun e e' he => ⟨he.2.refers, he⟩) h)).1
  have hrefers' := ((List.forall₂_and_left _ _).mp
    (List.Forall₂.flip (List.Forall₂.imp (fun e e' he => ⟨he.2.refers', he⟩) h))).1
  refine ⟨.plain (h.imp fun _ _ hv => hv.interchangeable), fun t ht => ?_,
    fun t ht => ?_, .inr ⟨_, _, rfl, rfl⟩⟩
  all_goals
    rw [read_plain] at ht
    obtain ⟨e, he, ht⟩ := List.mem_flatMap.mp ht
  · exact hrefers e he t ht
  · exact hrefers' e he t ht

end Replaces

/-- A reference may stand for what it refers to, in documents of requests. -/
theorem Restates.replaces (h : x.Agree x' scope) (hm : IsBare members) (hm' : IsBare members')
    {v v' : Json} (hv : x.Restates scope v v') :
    x.Replaces (withComponents x.components (.object members))
      (withComponents x'.components (.object members')) scope (normalize v) (normalize v') := by
  cases hv with
  | same _ hscope => exact .same fun t ht => hscope t (by rwa [refs_normalize] at ht)
  | @reference target _ ht hr =>
    obtain ⟨own, rfl⟩ := hr.object
    have hpart := hr.resolved
    have hgood := accepts_iff_findingsOf.mp hr.good
    have hapart := hr.apart
    obtain ⟨w, hw, hfaultless, hinner⟩ := hr.met.exists_part h ht
    obtain rfl := Except.ok.inj (hw.symm.trans hpart)
    rw [normalize_reference]
    refine ⟨?_, fun t ht' => (hinner t ht').1, fun t ht' => ?_, .inr ⟨_, _, rfl, rfl⟩⟩
    · have hclosed : ∀ t v, scope t → x.ComesTo (.object own) t →
          resolveReference (withComponents x.components (.object members)) t = .ok v →
            ∀ u ∈ near (read x.dialect x.formats v).result, x.ComesTo (.object own) u := by
        intro t v hscope hnear hv u hu
        rw [h.outside t hscope _ hm] at hv
        exact .onward hnear hv hu
      have hevents : ∀ e ∈ (read x.dialect x.formats (normalize (.object own))).events,
          ∃ t, e = .reference t ∧ scope t ∧ x.Met t := by
        intro e he
        cases e with
        | fault f => exact absurd he (hfaultless f)
        | reference t => exact ⟨t, rfl, hinner t he⟩
      exact .reference hgood
        ((h.outside' target ht _ hm').trans ((h.parts.same target ht).trans hw)) ⟨ht, hr.met⟩
        hevents hclosed (fun t hu => .here hu) hapart
    · rw [read_reference] at ht'
      obtain rfl := Event.reference.inj (List.mem_singleton.mp ht')
      exact ht

end

end Compiler

/-! ## Documents -/

/-- Whether two locations declare the same parameters, with schemas that are related. -/
structure LocationSchema.Rel (R : Json → Json → Prop) (s s' : LocationSchema) : Prop where
  properties : Assoc.Rel R s.properties s'.properties
  required : s'.required = s.required

/-- Whether two request schemas differ only in the schemas of parameters, which are related. -/
structure RequestSchema.Rel (R : Json → Json → Prop) (s s' : RequestSchema) : Prop where
  location : ∀ l, LocationSchema.Rel R (s.location l) (s'.location l)
  body : s'.body = s.body
  bodyRequired : s'.bodyRequired = s.bodyRequired
  directives : s'.directives = s.directives

theorem LocationSchema.Rel.imp {R R' : Json → Json → Prop} (h : ∀ v v', R v v' → R' v v')
    {s s' : LocationSchema} (hs : Rel R s s') : Rel R' s s' :=
  ⟨hs.properties.imp h, hs.required⟩

theorem RequestSchema.Rel.imp {R R' : Json → Json → Prop} (h : ∀ v v', R v v' → R' v v')
    {s s' : RequestSchema} (hs : Rel R s s') : Rel R' s s' :=
  ⟨fun l => (hs.location l).imp h, hs.body, hs.bodyRequired, hs.directives⟩

section

variable {x x' : Compiler} {scope : String → Prop} {members members' : Assoc Json}

/-- What is judged of a location with references in it is what was judged without them. -/
theorem LocationSchema.Rel.replaces {s s' : LocationSchema} (hs : Rel (x.Restates scope) s s')
    (h : x.Agree x' scope)
    (hm : Compiler.IsBare members) (hm' : Compiler.IsBare members') :
    x.Replaces (withComponents x.components (.object members))
      (withComponents x'.components (.object members')) scope
      (normalize s.toSchema) (normalize s'.toSchema) := by
  have hproperties : Assoc.Rel (x.Replaces (withComponents x.components (.object members))
      (withComponents x'.components (.object members')) scope)
      (widen (normalizeMembers s.properties)) (widen (normalizeMembers s'.properties)) := by
    refine rel_widen (fun v v' hv => hv.eq_true_iff)
      (fun v v' hv => hv.widened refs_widenKinds fun _ => rfl)
      (fun v v' hv => hv.widened refs_widenValues fun _ => rfl) ?_
    rw [normalizeMembers_eq_map, normalizeMembers_eq_map, Assoc.Rel, List.forall₂_map_left_iff,
      List.forall₂_map_right_iff]
    exact hs.properties.imp fun _ _ hv => hv.replaces h hm hm'
  rw [LocationSchema.toSchema_eq, LocationSchema.toSchema_eq, normalize_plain, normalize_plain,
    LocationSchema.listed?, LocationSchema.listed?, hs.required]
  exact .plain hproperties

namespace RequestSchema

variable {s s' : RequestSchema}

theorem isBare_whole (s : RequestSchema) : Compiler.IsBare s.whole := by
  intro k h
  rw [Assoc.contains_iff_mem_keys] at h
  have hkeys : Assoc.keys s.whole = ["properties", "required"] := rfl
  rw [hkeys] at h
  exact List.mem_cons_of_mem _ h

/-- What is judged of a request is, property by property, what was judged without references. -/
theorem Rel.replaces (hs : Rel (x.Restates scope) s s') (hrefs : ∀ t ∈ refs s.body, scope t)
    (h : x.Agree x' scope) :
    Assoc.Rel (x.Replaces (withComponents x.components (.object s.whole))
        (withComponents x'.components (.object s'.whole)) scope)
      (normalizeMembers s.properties) (normalizeMembers s'.properties) := by
  have hlocation := fun l => (hs.location l).replaces h s.isBare_whole s'.isBare_whole
  have hbody : x.Replaces (withComponents x.components (.object s.whole))
      (withComponents x'.components (.object s'.whole)) scope
      (normalize s.body) (normalize s'.body) := by
    rw [hs.body]
    exact .same fun t ht => hrefs t (by rwa [refs_normalize] at ht)
  exact .cons ⟨rfl, hbody⟩ (.cons ⟨rfl, hlocation .cookie⟩ (.cons ⟨rfl, hlocation .header⟩
    (.cons ⟨rfl, hlocation .path⟩ (.cons ⟨rfl, hlocation .query⟩ .nil))))

/-- **The documents of requests are refused alike with references and without, or tell the same
problems.** -/
theorem Rel.rel_compile (hs : Rel (x.Restates scope) s s') (hrefs : ∀ t ∈ refs s.body, scope t)
    (h : x.Agree x' scope) (route : String) :
    Except.Rel (fun c c' : Compiled => ∀ w, c.problems w = c'.problems w)
      (x.compile s.toSchema route) (x'.compile s'.toSchema route) := by
  have hreplaces := hs.replaces hrefs h
  have hdocument : ∀ (y : Compiler) (t : RequestSchema),
      y.document t.toSchema = withComponents y.components (.object t.whole) := fun y t => by
    rw [Compiler.document_eq, normalize_toSchema]
  have hlisted : s'.whole =
      plainMembers (normalizeMembers s'.properties) (some s.listed) false := by
    unfold whole listed
    rw [hs.bodyRequired]
  have hplain : x.Replaces (withComponents x.components (.object s.whole))
      (withComponents x'.components (.object s'.whole)) scope
      (.object (plainMembers (normalizeMembers s.properties) (some s.listed) false))
      (.object (plainMembers (normalizeMembers s'.properties) (some s.listed) false)) :=
    .plain hreplaces
  have hcompiled : Except.Rel (fun c c' : Compiled => ∀ w, c.problems w = c'.problems w)
      (Schema.compile x.dialect x.formats (withComponents x.components (.object s.whole)))
      (Schema.compile x.dialect x.formats (withComponents x'.components (.object s'.whole))) := by
    refine Schema.rel_compile rfl (by rw [hlisted])
      (h.sameParts s.isBare_whole s'.isBare_whole) (h.closedUnder s.isBare_whole)
      (h.closedUnder' s'.isBare_whole) (fun t ht => hplain.refers t ?_)
      (fun t ht => hplain.refers' t ?_) (hreplaces.imp fun _ _ hv => hv.interchangeable)
    · rwa [read_withComponents] at ht
    · rwa [read_withComponents, hlisted] at ht
  unfold Compiler.compile
  rw [h.dialect, h.formats, hdocument, hdocument]
  rcases hcompiled.eq_or with ⟨f, hf, hf'⟩ | ⟨c, c', hc, hc', hproblems⟩
  · rw [hf, hf']
    exact .error _
  · rw [hc, hc']
    exact .ok hproblems

end RequestSchema

end

end ApiContract
