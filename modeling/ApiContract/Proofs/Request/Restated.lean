import ApiContract.Proofs.Contract.Agreeing
import ApiContract.Proofs.Request.ByReference
import ApiContract.Proofs.Request.Prepared
/-!
# Parameters by reference

The schema of a parameter may be written out, or as a reference to a component that is the same
schema. This changes neither how the raw value is reshaped nor how it is coerced, unless the schema
declares arrays or is one of an object in the query; so requests are checked alike.
-/

namespace ApiContract

open Schema Synthesis

/-! ## Schemas -/

/-- Whether a reference may stand for a schema in a contract: it leads there, to a schema object
that is no reference itself, and in compiled documents as well. -/
structure Contract.Refers (c : Contract) (x : Compiler) (target : String) (schema : Json) : Prop
    extends x.Refers target schema where
  leads : c.resolveReference target = .ok schema
  direct : schema.member? "$ref" = none

/-- Whether one schema is another that refers to a scope, or a reference to it. -/
inductive Contract.Restates (c : Contract) (x : Compiler) (scope : String → Prop) :
    Json → Json → Prop
  | same (v : Json) (h : ∀ t ∈ refs v, scope t) : Restates c x scope v v
  | reference {target : String} {schema : Json} (ht : scope target)
      (h : c.Refers x target schema) : Restates c x scope schema (Schema.reference target)

section

variable {c c' : Contract} {x x' : Compiler} {scope : String → Prop}

theorem Contract.Restates.restates {v v' : Json} (h : c.Restates x scope v v') :
    x.Restates scope v v' := by
  cases h with
  | same _ h => exact .same v h
  | reference ht h => exact .reference ht h.toRefers

theorem Contract.resolve_of_direct (c : Contract) {v : Json} (h : v.member? "$ref" = none) :
    c.resolve v = .ok v := by
  unfold resolve referenceOf?
  rw [h]
  rfl

/-- Coercing follows the reference. -/
theorem Coercion.value_restated (h : c.Agree c' scope) {schema schema' : Json}
    (hs : c.Restates x scope schema schema') (v : Json) :
    Coercion.value c' v schema' = Coercion.value c v schema := by
  cases hs with
  | same _ hs => exact Coercion.value_eq h v schema hs
  | @reference target _ ht hr =>
    have hresolve : c'.resolve (Schema.reference target) = c.resolve schema :=
      (h.same target ht).trans (hr.leads.trans (c.resolve_of_direct hr.direct).symm)
    have hitems : ∀ each : Json, ∀ items : List Json, schema.member? "items" = some each →
        Coercion.values c' items each = Coercion.values c items each := fun each items hm =>
      Coercion.values_eq h items each fun t ht' =>
        h.closed target schema ht hr.leads t (refs_of_member? hm ht')
    cases v with
    | array items =>
      rw [Coercion.value, Coercion.value, hresolve, c.resolve_of_direct hr.direct]
      simp only
      cases hi : Coercion.itemsOf? schema (Coercion.kindsOf schema) with
      | none => rfl
      | some each =>
        refine congrArg Json.array (hitems each items ?_)
        unfold Coercion.itemsOf? at hi
        split at hi
        · exact hi
        · cases hi
    | _ => rw [Coercion.value, Coercion.value, hresolve]

theorem Coercion.members_restated (h : c.Agree c' scope) {declared declared' : Assoc Json}
    (hd : Assoc.Rel (c.Restates x scope) declared declared') (values : Assoc Json) :
    Coercion.members c' values declared' = Coercion.members c values declared := by
  refine List.map_congr_left fun e _ => ?_
  have hget := hd.get? e.1
  generalize declared.get? e.1 = s, declared'.get? e.1 = s' at hget
  cases hget with
  | none => rfl
  | some hs => exact congrArg (Prod.mk e.1) (Coercion.value_restated h hs e.2)

/-! ## Definitions -/

/-- Whether the schema of a parameter gives no directive: it declares no arrays, and is not one of
an object in the query. -/
structure IsPlain (location : String) (schema : Json) : Prop where
  array : declaresKind schema "array" = false
  object : location = "query" → hasObject schema = false

/-- Whether a parameter that is written down is another, with a reference for its schema. -/
inductive Contract.RestatesParameter (c : Contract) (x : Compiler) (scope : String → Prop) :
    Json → Json → Prop
  | same (v : Json) (h : ∀ t ∈ refs v, scope t) : RestatesParameter c x scope v v
  | reference {target : String} {schema : Json} {members : Assoc Json} (ht : scope target)
      (h : c.Refers x target schema) (hschema : members.get? "schema" = some schema)
      (hplain : IsPlain ((ParameterDefinition.text? members "in").getD "") schema) :
      RestatesParameter c x scope (.object members)
        (.object (members.insert "schema" (Schema.reference target)))

/-- The same of its definition. -/
inductive Contract.RestatesDefinition (c : Contract) (x : Compiler) (scope : String → Prop) :
    ParameterDefinition → ParameterDefinition → Prop
  | same (d : ParameterDefinition) (h : ∀ s ∈ d.source, ∀ t ∈ refs s.schema, scope t) :
      RestatesDefinition c x scope d d
  | reference {target : String} {schema : Json} {d : ParameterDefinition} (ht : scope target)
      (h : c.Refers x target schema) (hschema : d.source = some (.direct schema))
      (hplain : IsPlain d.location schema) :
      RestatesDefinition c x scope d { d with source := some (.direct (Schema.reference target)) }

theorem ParameterDefinition.refs_of_readSource {members : Assoc Json} {name route : String}
    {source : Option SchemaSource} (h : readSource members name route = .ok source) :
    ∀ s ∈ source, refs s.schema ⊆ refsOfMembers members := by
  unfold readSource at h
  split at h
  · next schema hschema =>
    obtain rfl := Except.ok.inj h
    intro s hs
    obtain rfl := Option.some.inj hs
    exact fun t ht => refs_subset_of_mem_members (Assoc.mem_of_get? hschema) t ht
  · split at h
    · obtain rfl := Except.ok.inj h
      exact fun s hs => absurd hs (Option.not_mem_none s)
    · next mediaType media hcontent =>
      obtain rfl := Except.ok.inj h
      intro s hs
      obtain rfl := Option.some.inj hs
      obtain ⟨content, hget, hobject⟩ := Option.bind_eq_some_iff.mp hcontent
      intro t ht
      refine refs_subset_of_mem_members (Assoc.mem_of_get? hget) t ?_
      rw [← refs_of_asObject? hobject]
      refine refs_subset_of_mem_members (k := mediaType) (v := media) List.mem_cons_self t ?_
      simp only [SchemaSource.schema] at ht
      cases hm : media.member? "schema" with
      | none =>
        rw [hm] at ht
        exact absurd ht List.not_mem_nil
      | some schema =>
        rw [hm] at ht
        exact refs_of_member? hm ht
    · cases h

/-- What is written with a reference is read with a reference. -/
theorem ParameterDefinition.rel_ofJson {v v' : Json} (h : c.RestatesParameter x scope v v')
    (route : String) :
    Except.Rel (c.RestatesDefinition x scope) (ofJson v route) (ofJson v' route) := by
  cases h with
  | same _ h =>
    cases hd : ofJson v route with
    | error f => exact .error f
    | ok d =>
      refine .ok (.same d fun s hs t ht => ?_)
      unfold ofJson at hd
      split at hd
      · split at hd
        · cases hd
        · obtain ⟨source, hsource, hd⟩ := Except.bind_eq_ok_iff.mp hd
          obtain rfl := Except.ok.inj hd
          exact h t (refs_of_readSource hsource s hs ht)
      · cases hd
  | @reference target schema members ht h hschema hplain =>
    have htext : ∀ key, key ≠ "schema" →
        text? (members.insert "schema" (Schema.reference target)) key = text? members key :=
      fun key hkey => by
        unfold text?
        rw [Assoc.get?_insert_of_ne _ _ (Ne.symm hkey)]
    have hflag : ∀ key, key ≠ "schema" →
        flag? (members.insert "schema" (Schema.reference target)) key = flag? members key :=
      fun key hkey => by
        unfold flag?
        rw [Assoc.get?_insert_of_ne _ _ (Ne.symm hkey)]
    unfold ofJson readSource
    simp only [htext _ (show "name" ≠ "schema" by decide), htext _ (show "in" ≠ "schema" by decide),
      htext _ (show "style" ≠ "schema" by decide), hflag _ (show "required" ≠ "schema" by decide),
      hflag _ (show "explode" ≠ "schema" by decide), hschema, Assoc.get?_insert_self]
    cases text? members "name" with
    | none => exact .error _
    | some name =>
      exact .ok (.reference (d := ⟨name, (text? members "in").getD "", _, _, _, _⟩) ht h rfl hplain)

/-! ## Declaring -/

theorem ofName?_eq_some_query {name : String} (h : Location.ofName? name = some .query) :
    name = "query" := by
  have hmem := List.find?_some h
  exact (beq_iff_eq.mp hmem).symm

/-- A plain schema gives no directive, and neither does a reference. -/
theorem reshapes_of_isPlain {d : ParameterDefinition} {location : Location} {schema : Json}
    (hlocation : Location.ofName? d.location = some location)
    (hsource : d.source = some (.direct schema)) (hplain : IsPlain d.location schema)
    (route : String) : reshapes d (.direct schema) location route = .ok [] := by
  have hencoded : isEncoded location (.direct schema) = false := by
    unfold isEncoded
    by_cases hq : location = .query
    · subst hq
      simp [hplain.object (ofName?_eq_some_query hlocation)]
    · simp [hq]
  unfold reshapes ParameterDefinition.directSchema?
  simp [hencoded, hsource, hplain.array, pure, Except.pure]

theorem isPlain_reference (location target : String) :
    IsPlain location (Schema.reference target) :=
  ⟨rfl, fun _ => rfl⟩

/-- Whether two lists of declarations are the same, with references in the place of schemas. -/
structure Synthesis.Declared.Rel (R : Json → Json → Prop) (d d' : Declared) : Prop where
  location : ∀ l, LocationSchema.Rel R (d.locations.get l) (d'.locations.get l)
  directives : d'.directives = d.directives

theorem LocationSchema.Rel.declare {R : Json → Json → Prop} {s s' : LocationSchema} (h : Rel R s s')
    (name : String) {v v' : Json} (hv : R v v') (required : Bool) :
    Rel R (s.declare name v required) (s'.declare name v' required) := by
  refine ⟨h.properties.insert name hv, ?_⟩
  unfold LocationSchema.declare
  rw [h.required]

theorem Synthesis.Declared.Rel.modify {R : Json → Json → Prop} {d d' : Declared} (h : Rel R d d')
    {f g : LocationSchema → LocationSchema}
    (hf : ∀ s s', LocationSchema.Rel R s s' → LocationSchema.Rel R (f s) (g s'))
    (location : Location) (directives : List Directive) :
    Rel R ⟨d.locations.modify f location, d.directives ++ directives⟩
      ⟨d'.locations.modify g location, d'.directives ++ directives⟩ := by
  refine ⟨fun l => ?_, by rw [h.directives]⟩
  rw [PerLocation.get_modify, PerLocation.get_modify]
  split
  · exact hf _ _ (h.location l)
  · exact h.location l

/-- A parameter with a location and a schema is declared under the directives for it. -/
theorem addParameter_eq_bind {s : Declared} {d : ParameterDefinition} {location : Location}
    {source : SchemaSource} (hlocation : Location.ofName? d.location = some location)
    (hsource : d.source = some source) (route : String) :
    addParameter s d route = (reshapes d source location route).bind fun rs =>
      .ok ⟨s.locations.modify
        (·.declare (recordedName location d.name) source.schema d.required) location,
        s.directives ++ rs.map (⟨·, recordedName location d.name, location⟩)⟩ := by
  unfold addParameter
  rw [hlocation, hsource]
  rfl

/-- A parameter with a reference for its schema is declared alike. -/
theorem rel_addParameter {d d' : ParameterDefinition} (hd : c.RestatesDefinition x scope d d')
    {s s' : Declared} (hs : s.Rel (c.Restates x scope) s') (route : String) :
    Except.Rel (Declared.Rel (c.Restates x scope)) (addParameter s d route)
      (addParameter s' d' route) := by
  have hadd : ∀ {location : Location} (rs : List Reshape) {v v' : Json}
      (_ : c.Restates x scope v v'), Except.Rel (Declared.Rel (c.Restates x scope))
        (.ok ⟨s.locations.modify (·.declare (recordedName location d.name) v d.required) location,
          s.directives ++ rs.map (⟨·, recordedName location d.name, location⟩)⟩)
        (.ok ⟨s'.locations.modify (·.declare (recordedName location d.name) v' d.required) location,
          s'.directives ++ rs.map (⟨·, recordedName location d.name, location⟩)⟩ :
            Except Failure Declared) :=
    fun rs _ _ hv => .ok (hs.modify (fun _ _ h => h.declare _ hv _) _ _)
  cases hlocation : Location.ofName? d.location with
  | none =>
    have hfails : ∀ (s : Declared) (d' : ParameterDefinition), d'.location = d.location →
        d'.name = d.name → addParameter s d' route =
          .error (.contractShape route (.parameterLocation d.location d.name)) := by
      intro s d' hl hn
      unfold addParameter
      rw [hl, hn, hlocation]
    have hsame : d'.location = d.location ∧ d'.name = d.name := by cases hd <;> exact ⟨rfl, rfl⟩
    rw [hfails s d rfl rfl, hfails s' d' hsame.1 hsame.2]
    exact .error _
  | some location =>
    cases hd with
    | same _ hrefs =>
      cases hsource : d.source with
      | none =>
        unfold addParameter
        rw [hlocation, hsource]
        exact .error _
      | some source =>
        rw [addParameter_eq_bind hlocation hsource, addParameter_eq_bind hlocation hsource]
        cases reshapes d source location route with
        | error f => exact .error f
        | ok rs => exact hadd rs (.same _ (hrefs source hsource))
    | @reference target schema _ ht hr hsource hplain =>
      let d' : ParameterDefinition := { d with source := some (.direct (Schema.reference target)) }
      have hreshapes : reshapes d' (.direct (Schema.reference target)) location route = .ok [] :=
        reshapes_of_isPlain (d := d') hlocation rfl (isPlain_reference d.location target) route
      rw [addParameter_eq_bind hlocation hsource, reshapes_of_isPlain hlocation hsource hplain,
        addParameter_eq_bind (d := d') hlocation rfl, hreshapes]
      exact hadd [] (.reference ht hr)

/-! ## Routes -/

/-- Whether a route is another, with references for the schemas of its parameters. -/
structure Route.Restated (c c' : Contract) (x : Compiler) (scope : String → Prop) (r r' : Route) :
    Prop where
  parameters : List.Forall₂ (fun raw raw' =>
    Except.Rel (c.RestatesParameter x scope) (c.resolve raw) (c'.resolve raw'))
    r.parameters r'.parameters
  same : r' = { r with parameters := r'.parameters }
  refers : ∀ raw ∈ r.requestBody, ∀ t ∈ refs raw, scope t

/-- **The schema of the requests of a route is synthesized alike**: the same fault, or the same
schema with references in it. -/
theorem Route.Restated.rel_synthesize {r r' : Route} (hr : r.Restated c c' x scope r')
    (h : c.Agree c' scope) (contentType : ContentType) :
    Except.Rel (fun s s' => RequestSchema.Rel (c.Restates x scope) s s' ∧
        ∀ t ∈ refs s.body, scope t)
      (RequestSchema.synthesize c r contentType) (RequestSchema.synthesize c' r' contentType) := by
  have htemplate : r'.template = r.template := by rw [hr.same]
  have hbody : r'.requestBody = r.requestBody := by rw [hr.same]
  have hdeclared : Except.Rel (Declared.Rel (c.Restates x scope))
      (r.parameters.foldlM (addRaw c r.template) Declared.none)
      (r'.parameters.foldlM (addRaw c' r'.template) Declared.none) := by
    refine Except.Rel.foldlM (fun s s' raw raw' hs hraw => ?_) hr.parameters ?_
    · rw [htemplate]
      exact hraw.bind fun v v' hv => (ParameterDefinition.rel_ofJson hv r.template).bind
        fun d d' hd => rel_addParameter hd hs r.template
    · exact ⟨fun l => by cases l <;> exact ⟨.nil, rfl⟩, rfl⟩
  refine hdeclared.bind fun d d' hd => ?_
  rw [body_eq h hr.refers hbody htemplate]
  cases hb : body c r contentType with
  | error f => exact .error f
  | ok b => exact .ok ⟨⟨hd.location, rfl, rfl, by rw [hd.directives]⟩, refs_of_body h hr.refers hb⟩

/-! ## Plans -/

/-- Whether two plans differ only in references for the schemas of parameters. -/
structure RequestPlan.Rel (R : Json → Json → Prop) (p p' : RequestPlan) : Prop where
  schema : RequestSchema.Rel R p.schema p'.schema
  problems : ∀ v, p.validator.problems v = p'.validator.problems v
  security : p'.securityQueryParameters = p.securityQueryParameters

/-- **Plans are built alike.** -/
theorem Route.Restated.rel_build {r r' : Route} (hr : r.Restated c c' x scope r')
    (h : c.Agree c' scope) (hs : c.SameSecurity c' scope) (hx : x.Agree x' scope)
    (contentType : ContentType) :
    Except.Rel (RequestPlan.Rel (c.Restates x scope)) (RequestPlan.build c x r contentType)
      (RequestPlan.build c' x' r' contentType) := by
  refine (hr.rel_synthesize h contentType).bind fun s s' hschema => ?_
  have htemplate : r'.template = r.template := by rw [hr.same]
  rw [htemplate]
  refine ((hschema.1.imp fun _ _ hv => hv.restates).rel_compile hschema.2 hx r.template).bind
    fun k k' hk => ?_
  exact .ok ⟨hschema.1, hk, Route.securityQueryParameters_eq h hs (by rw [hr.same])⟩

end

/-! ## Checking -/

/-- Whether two validators of requests differ only in references for the schemas of parameters. -/
structure RequestValidator.Agree (x x' : RequestValidator) (scope : String → Prop) : Prop where
  contract : x.contract.Agree x'.contract scope
  unknown : x'.allowUnknownQueryParameters = x.allowUnknownQueryParameters
  coerce : x'.coerceTypes = x.coerceTypes

section

variable {x x' : RequestValidator} {compiler : Compiler} {scope : String → Prop}
  {plan plan' : RequestPlan}

theorem RequestSchema.Rel.keys_eq {R : Json → Json → Prop} {s s' : RequestSchema} (h : Rel R s s')
    (l : Location) : (s'.location l).properties.keys = (s.location l).properties.keys :=
  (h.location l).properties.keys_eq

namespace RequestValidator

theorem refusedKey?_eq (h : x.Agree x' scope)
    (hp : RequestPlan.Rel (x.contract.Restates compiler scope) plan plan') (r : Request) :
    x'.refusedKey? plan' r = x.refusedKey? plan r := by
  have hadmits : plan'.admits = plan.admits := by
    funext key
    unfold RequestPlan.admits
    rw [hp.security]
    exact congrArg (· || _) ((hp.schema.location .query).properties.contains_eq key)
  unfold refusedKey? unknownKey?
  rw [h.unknown, hadmits]

theorem coerced_eq (h : x.Agree x' scope)
    (hp : RequestPlan.Rel (x.contract.Restates compiler scope) plan plan')
    (values : PerLocation (Assoc Json)) :
    x'.coerced plan'.schema values = x.coerced plan.schema values := by
  have hmembers := fun l : Location =>
    Coercion.members_restated h.contract (hp.schema.location l).properties
  unfold coerced
  rw [h.coerce]
  split
  · simp only [PerLocation.zipWith, PerLocation.mk.injEq]
    exact ⟨hmembers .query _, hmembers .header _, hmembers .path _, hmembers .cookie _⟩
  · rfl

theorem writeBack_eq {R : Json → Json → Prop} {s s' : RequestSchema} (h : RequestSchema.Rel R s s')
    (judged : PerLocation (Assoc Json)) (r : Request) :
    writeBack s' judged r = writeBack s judged r := by
  have hover : ∀ l judged host, overwrite (s'.location l) judged host =
      overwrite (s.location l) judged host := fun l judged host => by
    unfold overwrite
    rw [h.keys_eq l]
  unfold writeBack
  rw [show overwrite s'.locations.query = overwrite s.locations.query from
      funext₂ (hover .query),
    show overwrite s'.locations.headers = overwrite s.locations.headers from
      funext₂ (hover .header),
    show overwrite s'.locations.params = overwrite s.locations.params from funext₂ (hover .path),
    show overwrite s'.locations.cookies = overwrite s.locations.cookies from
      funext₂ (hover .cookie)]

/-- **A request is checked alike against such plans**, and handed back the same. -/
theorem check_eq (h : x.Agree x' scope)
    (hp : RequestPlan.Rel (x.contract.Restates compiler scope) plan plan') (template : String)
    (params : Assoc String) (r : Request) :
    x'.check plan' template params r = x.check plan template params r := by
  have hprepare : x'.prepare plan' params r = x.prepare plan params r := by
    unfold prepare
    rw [hp.schema.directives]
    exact congrArg (·, _) (coerced_eq h hp _)
  unfold check
  rw [refusedKey?_eq h hp, hprepare]
  simp only [← hp.problems, writeBack_eq hp.schema]

end RequestValidator

end

end ApiContract
