import ApiContract.Proofs.Failing
import ApiContract.Proofs.Route.Operations
import ApiContract.Request.Synthesis
/-!
# The names that a query may hold

A plan admits the query parameters that its route declares, and those that the security requirements
in force ask for. Both stand in the contract: the first under the operation or its path, the second
under the schemes that the requirements name.
-/

namespace ApiContract

/-- Whether a value describes a parameter of a name in the query. -/
def Json.IsQueryParameter (v : Json) (name : String) : Prop :=
  v.member? "in" = some (.string "query") ∧ v.member? "name" = some (.string name)

namespace Contract

/-- Whether a parameter as it is written, or what it refers to, is that of a name in the query. -/
def WritesInQuery (c : Contract) (name : String) (raw : Json) : Prop :=
  ∃ v, c.resolve raw = .ok v ∧ v.IsQueryParameter name

/-- Whether a security requirement names a scheme that asks for a name in the query. -/
def SecuresInQuery (c : Contract) (name : String) (requirement : Json) : Prop :=
  ∃ schemes scheme key, c.securitySchemes? = some schemes ∧ schemes.get? key = some scheme ∧
    (requirement.member? key).isSome = true ∧ (c.resolveOr scheme).IsQueryParameter name

end Contract

namespace Operation

/-- Whether an operation, or its path, declares a query parameter of a name. -/
def DeclaresInQuery (o : Operation) (c : Contract) (name : String) : Prop :=
  ∃ raw ∈ written o.item ++ written o.members, c.WritesInQuery name raw

/-- Whether the security requirements in force ask for a name in the query. -/
def IsSecuredInQuery (o : Operation) (c : Contract) (name : String) : Prop :=
  ∃ requirement ∈ o.requirements c, c.SecuresInQuery name requirement

end Operation

/-! ## Parts of a value -/

theorem Json.asString?_eq_some {v : Json} {s : String} : v.asString? = some s ↔ v = .string s := by
  cases v <;> simp [asString?]

theorem Json.bind_asString?_eq_some {v : Option Json} {s : String} :
    v.bind asString? = some s ↔ v = some (.string s) := by
  cases v with
  | none => simp
  | some v => simp [asString?_eq_some]

/-! ## Merging -/

namespace Contract

variable {c : Contract} {name : String}

theorem parameterKey?_eq_query_iff {raw : Json} :
    c.parameterKey? raw = some (name, "query") ↔ c.WritesInQuery name raw := by
  unfold parameterKey? WritesInQuery Json.IsQueryParameter
  cases c.resolve raw with
  | error f => simp [Except.toOption]
  | ok v =>
    simp only [Except.toOption, Except.ok.injEq, exists_eq_left', Option.bind_eq_bind,
      Option.bind_some, Option.pure_def]
    rw [← Json.bind_asString?_eq_some, ← Json.bind_asString?_eq_some]
    cases (v.member? "name").bind Json.asString? <;>
      cases (v.member? "in").bind Json.asString? <;> simp [and_comm]

/-- A parameter of another name is not that of the name. -/
theorem not_writesInQuery {raw v : Json} (hv : c.resolve raw = .ok v)
    (hname : v.member? "name" ≠ some (.string name)) : ¬ c.WritesInQuery name raw := by
  rintro ⟨v', hv', -, hname'⟩
  obtain rfl := Except.ok.inj (hv.symm.trans hv')
  exact hname hname'

/-- Merging loses no query parameter: what is left out of a path is declared by the operation. -/
theorem exists_mem_mergeParameters {ofPath ofOperation : List Json} :
    (∃ raw ∈ c.mergeParameters ofPath ofOperation, c.WritesInQuery name raw) ↔
      ∃ raw ∈ ofPath ++ ofOperation, c.WritesInQuery name raw := by
  unfold mergeParameters
  simp only [List.mem_append, List.mem_filter]
  constructor
  · rintro ⟨raw, hmem, hname⟩
    exact ⟨raw, hmem.imp_left And.left, hname⟩
  · rintro ⟨raw, hmem | hmem, hname⟩
    · by_cases hown : (ofOperation.map c.parameterKey?).contains (some (name, "query")) = true
      · obtain ⟨raw', hmem', hkey⟩ := List.mem_map.mp (List.contains_iff_mem.mp hown)
        exact ⟨raw', Or.inr hmem', parameterKey?_eq_query_iff.mp hkey⟩
      · refine ⟨raw, Or.inl ⟨hmem, ?_⟩, hname⟩
        rw [parameterKey?_eq_query_iff.mpr hname]
        simpa using hown
    · exact ⟨raw, Or.inr hmem, hname⟩

end Contract

/-! ## Declaring -/

theorem LocationSchema.declares_declare (x : LocationSchema) (name : String) (schema : Json)
    (required : Bool) (other : String) :
    (x.declare name schema required).declares other = (decide (name = other) || x.declares other) :=
  Assoc.contains_insert _ _ _ _

namespace ParameterDefinition

/-- A definition holds the name and the location that are written. -/
theorem name_and_location_of_ofJson {v : Json} {route : String} {d : ParameterDefinition}
    (h : ofJson v route = .ok d) :
    v.member? "name" = some (.string d.name) ∧
      d.location = ((v.member? "in").bind Json.asString?).getD "" := by
  unfold ofJson at h
  split at h
  · next members =>
    split at h
    · cases h
    · next name hname =>
      obtain ⟨source, -, h⟩ := Except.bind_eq_ok_iff.mp h
      obtain rfl := Except.ok.inj h
      exact ⟨Json.bind_asString?_eq_some.mp hname, rfl⟩
  · cases h

/-- So it is that of a name in the query exactly if the value is. -/
theorem isQueryParameter_iff {v : Json} {route : String} {d : ParameterDefinition}
    (h : ofJson v route = .ok d) {name : String} :
    v.IsQueryParameter name ↔ d.location = "query" ∧ d.name = name := by
  obtain ⟨hname, hlocation⟩ := name_and_location_of_ofJson h
  unfold Json.IsQueryParameter
  rw [hname, hlocation, ← Json.bind_asString?_eq_some, Option.some.injEq, Json.string.injEq]
  refine and_congr_left fun _ => ?_
  cases (v.member? "in").bind Json.asString? <;> simp

end ParameterDefinition

namespace Synthesis

variable {c : Contract} {route : String} {x y : Declared} {name : String}

/-- A parameter that is added is declared in its location, under its recorded name, and its
directives are appended. -/
theorem addParameter_eq_ok {d : ParameterDefinition} (h : addParameter x d route = .ok y) :
    ∃ location source rs, Location.ofName? d.location = some location ∧ d.source = some source ∧
      reshapes d source location route = .ok rs ∧
      y = ⟨x.locations.modify (·.declare (recordedName location d.name) source.schema d.required)
          location, x.directives ++ rs.map (⟨·, recordedName location d.name, location⟩)⟩ := by
  unfold addParameter at h
  split at h
  · next location hlocation =>
    split at h
    · next source hsource =>
      obtain ⟨rs, hrs, h⟩ := Except.bind_eq_ok_iff.mp h
      exact ⟨location, source, rs, hlocation, hsource, hrs, (Except.ok.inj h).symm⟩
    · cases h
  · cases h

theorem ofName?_eq_query_iff {s : String} : Location.ofName? s = some .query ↔ s = "query" := by
  unfold Location.ofName? Location.all
  constructor
  · intro h
    have hname := List.find?_some h
    exact (beq_iff_eq.mp hname).symm
  · rintro rfl
    decide

/-- **Adding a parameter declares it, and nothing else, in the query.** -/
theorem declares_of_addRaw {raw : Json} (h : addRaw c route x raw = .ok y) :
    y.locations.query.declares name = true ↔
      x.locations.query.declares name = true ∨ c.WritesInQuery name raw := by
  obtain ⟨v, hv, h⟩ := Except.bind_eq_ok_iff.mp h
  obtain ⟨d, hd, h⟩ := Except.bind_eq_ok_iff.mp h
  obtain ⟨location, source, rs, hlocation, -, -, rfl⟩ := addParameter_eq_ok h
  have hwrites : c.WritesInQuery name raw ↔ location = .query ∧ d.name = name := by
    unfold Contract.WritesInQuery
    simp only [hv, Except.ok.injEq, exists_eq_left', ParameterDefinition.isQueryParameter_iff hd]
    rw [← ofName?_eq_query_iff, hlocation, Option.some.injEq]
  have hquery : (x.locations.modify
      (·.declare (recordedName location d.name) source.schema d.required) location).query =
      (x.locations.modify
        (·.declare (recordedName location d.name) source.schema d.required) location).get .query :=
    rfl
  rw [hwrites, hquery, PerLocation.get_modify]
  by_cases hl : location = .query
  · subst hl
    simp [LocationSchema.declares_declare, recordedName, PerLocation.get, or_comm]
  · simp [hl, PerLocation.get]

/-- Adding parameters one after the other declares all of them. -/
theorem declares_of_foldlM {raws : List Json} (h : raws.foldlM (addRaw c route) x = .ok y) :
    y.locations.query.declares name = true ↔
      x.locations.query.declares name = true ∨ ∃ raw ∈ raws, c.WritesInQuery name raw := by
  induction raws generalizing x with
  | nil =>
    obtain rfl := Except.ok.inj h
    simp
  | cons raw raws ih =>
    rw [List.foldlM_cons] at h
    obtain ⟨z, hz, h⟩ := Except.bind_eq_ok_iff.mp h
    rw [ih h, declares_of_addRaw hz, or_assoc]
    simp only [List.mem_cons, exists_eq_or_imp]

end Synthesis

/-- Behind well-formed parameters the schema of a route is left to its body. -/
theorem RequestSchema.synthesize_of_declared {c : Contract} {r : Route}
    {declared : Synthesis.Declared}
    (h : r.parameters.foldlM (Synthesis.addRaw c r.template) .none = .ok declared)
    (contentType : ContentType) :
    synthesize c r contentType = Synthesis.body c r contentType >>= fun b =>
      .ok ⟨declared.locations, b.1, b.2, Directive.inOrder declared.directives⟩ := by
  simp only [synthesize, h]
  rfl

/-- **The schema of an operation declares what the operation and its path declare.** -/
theorem RequestSchema.declares_iff {c : Contract} {o : Operation} {contentType : ContentType}
    {schema : RequestSchema} (h : synthesize c (o.route c) contentType = .ok schema)
    {name : String} :
    schema.locations.query.declares name = true ↔ o.DeclaresInQuery c name := by
  obtain ⟨declared, hdeclared, h⟩ := Except.bind_eq_ok_iff.mp h
  obtain ⟨⟨body, bodyRequired⟩, -, h⟩ := Except.bind_eq_ok_iff.mp h
  obtain rfl := Except.ok.inj h
  have hnone : Synthesis.Declared.none.locations.query.declares name ≠ true := by
    simp [Synthesis.Declared.none, LocationSchema.declares, Assoc.contains]
  rw [Synthesis.declares_of_foldlM hdeclared, or_iff_right hnone]
  exact Contract.exists_mem_mergeParameters

/-! ## Security -/

namespace Route

theorem queryParameterOf?_eq_some_iff {c : Contract} {schemes : Assoc Json} {key name : String} :
    queryParameterOf? c schemes key = some name ↔
      ∃ scheme, schemes.get? key = some scheme ∧ (c.resolveOr scheme).IsQueryParameter name := by
  unfold queryParameterOf? Json.IsQueryParameter
  cases schemes.get? key with
  | none => simp
  | some scheme =>
    simp only [Option.bind_eq_bind, Option.bind_some, Option.some.injEq, exists_eq_left']
    rw [← Json.bind_asString?_eq_some, ← Json.bind_asString?_eq_some]
    split
    · next hin => simp [hin]
    · next hin => simp [hin]

/-- Collecting names, each once, loses none. -/
theorem mem_foldl_collect {names seen : List String} {name : String} :
    name ∈ names.foldl (fun seen name => if seen.contains name then seen else seen ++ [name]) seen ↔
      name ∈ seen ∨ name ∈ names := by
  induction names generalizing seen with
  | nil => simp
  | cons n names ih =>
    rw [List.foldl_cons, ih, List.mem_cons]
    split
    · next hn =>
      rw [List.contains_iff_mem] at hn
      constructor
      · rintro (h | h)
        · exact Or.inl h
        · exact Or.inr (Or.inr h)
      · rintro (h | rfl | h)
        · exact Or.inl h
        · exact Or.inl hn
        · exact Or.inr h
    · rw [List.mem_append, List.mem_singleton, or_assoc]

/-- **The security parameters of a route are those that its requirements ask for.** -/
theorem mem_securityQueryParameters_iff {c : Contract} {r : Route} {name : String} :
    name ∈ r.securityQueryParameters c ↔
      ∃ requirement ∈ r.requirements c, c.SecuresInQuery name requirement := by
  unfold securityQueryParameters Contract.SecuresInQuery
  cases c.securitySchemes? with
  | none => simp
  | some schemes =>
    have hkeys : ∀ (requirement : Json) (key : String),
        (requirement.member? key).isSome = true ↔
          key ∈ Assoc.keys (requirement.asObject?.getD []) := by
      intro requirement key
      rw [← Assoc.contains_iff_mem_keys]
      cases requirement <;> simp [Json.member?, Json.asObject?, Assoc.contains]
    simp only [mem_foldl_collect, List.not_mem_nil, false_or, List.mem_flatMap, List.mem_filterMap,
      queryParameterOf?_eq_some_iff, hkeys, Assoc.keys, List.mem_map]
    refine exists_congr fun requirement => and_congr_right fun _ => ?_
    constructor
    · rintro ⟨e, he, scheme, hscheme, hname⟩
      exact ⟨schemes, scheme, e.1, rfl, hscheme, ⟨e, he, rfl⟩, hname⟩
    · rintro ⟨_, scheme, _, ⟨⟩, hscheme, ⟨e, he, rfl⟩, hname⟩
      exact ⟨e, he, scheme, hscheme, hname⟩

end Route

end ApiContract
