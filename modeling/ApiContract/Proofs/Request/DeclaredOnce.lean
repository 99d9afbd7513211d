import ApiContract.Proofs.Parameter.Reshaping
import ApiContract.Proofs.Request.Declared
import ApiContract.Proofs.Request.Directives
/-!
# A query parameter that is declared once

Of a query parameter that a route declares once, the schema of the route holds the schema, and has
the directives that its definition calls for, in their order. What the other parameters add is for
other names.
-/

namespace ApiContract

/-! ## Reshaping by a definition -/

namespace Reshape

/-- What a conversion makes of a value, if one was supplied. -/
def reshaped (x : Reshape) (v : Json) : Json :=
  if Directive.isPresent (some v) then (x.convert? v).getD v else v

/-- What conversions make of a value, one after the other. -/
def reshapedBy (xs : List Reshape) (v : Json) : Json := xs.foldl (fun v x => x.reshaped v) v

/-- Conversions in the order in which they are applied. -/
def inOrder (xs : List Reshape) : List Reshape :=
  xs.filter (·.rank == 0) ++ xs.filter (·.rank == 1) ++ xs.filter (·.rank == 2)

end Reshape

namespace Directive

/-- Only the directives of a name reshape its value. -/
theorem reshapeAll_eq_reshapedBy (ds : List Directive) (name : String) (v : Json) :
    reshapeAll ds name v = Reshape.reshapedBy ((ds.filter (·.name = name)).map (·.reshape)) v := by
  induction ds generalizing v with
  | nil => rfl
  | cons d ds ih =>
    rw [reshapeAll_cons, ih, List.filter_cons]
    by_cases hn : d.name = name
    · rw [if_pos hn, if_pos (by simpa using hn)]
      rfl
    · rw [if_neg hn, if_neg (by simpa using hn)]

/-- Ordering leaves out no directive of a kind, and adds none. -/
theorem filter_inOrder (p : Directive → Bool) (ds : List Directive) :
    (inOrder ds).filter p = inOrder (ds.filter p) := by
  have hswap : ∀ q : Directive → Bool, (ds.filter q).filter p = (ds.filter p).filter q := by
    intro q
    rw [List.filter_filter, List.filter_filter]
    exact List.filter_congr fun d _ => Bool.and_comm _ _
  simp only [inOrder, List.filter_append, hswap]

theorem map_reshape_inOrder (ds : List Directive) :
    (inOrder ds).map (·.reshape) = Reshape.inOrder (ds.map (·.reshape)) := by
  simp only [inOrder, Reshape.inOrder, List.map_append, List.filter_map, Function.comp_def]

end Directive

/-! ## What a definition calls for -/

namespace ParameterDefinition

/-- The style of a parameter in a location, if it is one. -/
def styleIn (d : ParameterDefinition) (location : Location) : Option Style :=
  match d.style with
  | some name => Style.ofName? name
  | none => some location.defaultStyle

/-- Whether each item of an array has a value of its own. -/
def explodesIn (d : ParameterDefinition) (location : Location) : Bool :=
  d.explode.getD (d.styleIn location = some .form)

end ParameterDefinition

namespace Synthesis

variable {d : ParameterDefinition} {source : SchemaSource} {location : Location} {route : String}

theorem arrayReshape_eq_ok_iff {x : Reshape} :
    arrayReshape d location route = .ok x ↔
      (d.explodesIn location = true ∧ x = .wrapSingle) ∨
      (d.explodesIn location = false ∧ ∃ delimiter,
        (d.styleIn location).bind Style.delimiter? = some delimiter ∧
          x = .splitArray delimiter) := by
  have heq : arrayReshape d location route =
      if d.explodesIn location then .ok .wrapSingle
      else ((d.styleIn location).bind Style.delimiter?).elim
        (.error (.contractShape route (.parameterStyle (d.style.getD "") d.name)))
        fun delimiter => .ok (.splitArray delimiter) := by
    unfold arrayReshape ParameterDefinition.explodesIn ParameterDefinition.styleIn
    refine congrArg (ite _ _) ?_
    cases d.style with
    | none => cases (some location.defaultStyle).bind Style.delimiter? <;> rfl
    | some name => cases (Style.ofName? name).bind Style.delimiter? <;> rfl
  rw [heq]
  cases d.explodesIn location with
  | true => simp [eq_comm]
  | false => cases (d.styleIn location).bind Style.delimiter? <;> simp [eq_comm]

/-- The conversions of a parameter: decoding where it is a JSON text, and behind it the one of an
array. -/
theorem reshapes_eq_ok_iff {xs : List Reshape} :
    reshapes d source location route = .ok xs ↔ ∃ ys,
      xs = (if isEncoded location source then [.parseJson] else []) ++ ys ∧
      ((∃ schema x, d.directSchema? = some schema ∧ declaresKind schema "array" = true ∧
          arrayReshape d location route = .ok x ∧ ys = [x]) ∨
        ((∀ schema, d.directSchema? = some schema → declaresKind schema "array" = false) ∧
          ys = [])) := by
  unfold reshapes
  generalize (if isEncoded location source then [Reshape.parseJson] else []) = decode
  cases hs : d.directSchema? with
  | none =>
    constructor
    · intro h
      exact ⟨[], by simpa using (Except.ok.inj h).symm, Or.inr ⟨nofun, rfl⟩⟩
    · rintro ⟨ys, rfl, ⟨_, _, h, -⟩ | ⟨-, rfl⟩⟩
      · cases h
      · rw [List.append_nil]
        rfl
  | some schema =>
    by_cases ha : declaresKind schema "array" = true
    · simp only [if_pos ha, Except.bind_eq_ok_iff]
      constructor
      · rintro ⟨x, hx, h⟩
        exact ⟨[x], (Except.ok.inj h).symm, Or.inl ⟨schema, x, rfl, ha, hx, rfl⟩⟩
      · rintro ⟨ys, rfl, ⟨_, x, -, -, hx, rfl⟩ | ⟨hno, -⟩⟩
        · exact ⟨x, hx, rfl⟩
        · exact absurd (hno schema rfl) (by simp [ha])
    · simp only [if_neg ha]
      constructor
      · intro h
        refine ⟨[], by simpa using (Except.ok.inj h).symm, Or.inr ⟨fun _ h => ?_, rfl⟩⟩
        obtain rfl := Option.some.inj h
        simpa using ha
      · rintro ⟨ys, rfl, ⟨_, _, h, ha', -⟩ | ⟨-, rfl⟩⟩
        · obtain rfl := Option.some.inj h
          exact absurd ha' ha
        · rw [List.append_nil]
          rfl

/-- What an array calls for is no decoding. -/
theorem arrayReshape_ne_parseJson : arrayReshape d location route ≠ .ok .parseJson := by
  intro h
  rcases arrayReshape_eq_ok_iff.mp h with ⟨-, h⟩ | ⟨-, _, -, h⟩ <;> cases h

/-- Decoding comes first. -/
theorem exists_of_parseJson_mem {xs : List Reshape} (h : reshapes d source location route = .ok xs)
    (hmem : .parseJson ∈ xs) : ∃ ys, xs = .parseJson :: ys := by
  obtain ⟨ys, rfl, hys⟩ := reshapes_eq_ok_iff.mp h
  split at hmem
  · next hencoded => exact ⟨ys, by rw [if_pos hencoded]; rfl⟩
  · rw [List.nil_append] at hmem
    rcases hys with ⟨_, x, -, -, hx, rfl⟩ | ⟨-, rfl⟩
    · obtain rfl := List.mem_singleton.mp hmem
      exact absurd hx arrayReshape_ne_parseJson
    · exact absurd hmem List.not_mem_nil

/-- Where nothing is decoded, splitting is all there is. -/
theorem eq_of_splitArray_mem {xs : List Reshape} {delimiter : Char}
    (h : reshapes d source location route = .ok xs) (hmem : .splitArray delimiter ∈ xs)
    (hno : .parseJson ∉ xs) : xs = [.splitArray delimiter] := by
  obtain ⟨ys, rfl, hys⟩ := reshapes_eq_ok_iff.mp h
  split at hno
  · exact absurd List.mem_cons_self hno
  · next hplain =>
    rw [if_neg hplain, List.nil_append] at hmem ⊢
    rcases hys with ⟨_, x, -, -, -, rfl⟩ | ⟨-, rfl⟩
    · rw [List.mem_singleton.mp hmem]
    · exact absurd hmem List.not_mem_nil

/-- They come in the order in which they are applied. -/
theorem inOrder_of_reshapes {xs : List Reshape}
    (h : reshapes d source location route = .ok xs) : Reshape.inOrder xs = xs := by
  obtain ⟨ys, rfl, hys⟩ := reshapes_eq_ok_iff.mp h
  have hrank : ys = [] ∨ ys = [.wrapSingle] ∨ ∃ delimiter, ys = [.splitArray delimiter] := by
    rcases hys with ⟨_, x, -, -, hx, rfl⟩ | ⟨-, rfl⟩
    · rcases arrayReshape_eq_ok_iff.mp hx with ⟨-, rfl⟩ | ⟨-, delimiter, -, rfl⟩
      · exact Or.inr (Or.inl rfl)
      · exact Or.inr (Or.inr ⟨delimiter, rfl⟩)
    · exact Or.inl rfl
  split <;> rcases hrank with rfl | rfl | ⟨delimiter, rfl⟩ <;> rfl

end Synthesis

/-! ## Declaring once -/

/-- Whether a route declares a query parameter of a name by a definition, and no other of the name.
-/
def Route.DeclaresOnce (route : Route) (c : Contract) (name : String) (d : ParameterDefinition) :
    Prop :=
  ∃ before raw after v, route.parameters = before ++ raw :: after ∧
    c.resolve raw = .ok v ∧ v.IsQueryParameter name ∧
    ParameterDefinition.ofJson v route.template = .ok d ∧
    ∀ other ∈ before ++ after, ¬ c.WritesInQuery name other

namespace Synthesis

/-- The reshapings of a query parameter so far. -/
def Declared.reshapesOf (x : Declared) (name : String) : List Reshape :=
  (x.directives.filter fun d => d.location = .query ∧ d.name = name).map (·.reshape)

variable {c : Contract} {route name : String} {x y : Declared}

/-- A parameter that is another one leaves what is known of a query parameter. -/
theorem addRaw_of_not_writesInQuery {raw : Json} (h : addRaw c route x raw = .ok y)
    (hno : ¬ c.WritesInQuery name raw) :
    y.locations.query.properties.get? name = x.locations.query.properties.get? name ∧
      y.reshapesOf name = x.reshapesOf name := by
  obtain ⟨v, hv, h⟩ := Except.bind_eq_ok_iff.mp h
  obtain ⟨d, hd, h⟩ := Except.bind_eq_ok_iff.mp h
  obtain ⟨location, source, rs, hlocation, -, -, rfl⟩ := addParameter_eq_ok h
  have hother : ¬ (location = .query ∧ d.name = name) := by
    rintro ⟨rfl, hname⟩
    refine hno ⟨v, hv, (ParameterDefinition.isQueryParameter_iff hd).mpr ⟨?_, hname⟩⟩
    exact ofName?_eq_query_iff.mp hlocation
  constructor
  · show Assoc.get? ((x.locations.modify _ location).get .query).properties name = _
    rw [PerLocation.get_modify]
    split
    · next hquery =>
      subst hquery
      exact Assoc.get?_insert_of_ne _ _ fun hname => hother ⟨rfl, hname⟩
    · rfl
  · have hnone : (rs.map (⟨·, recordedName location d.name, location⟩ : Reshape → Directive)).filter
        (fun d => d.location = .query ∧ d.name = name) = [] := by
      rw [List.filter_eq_nil_iff, List.forall_mem_map]
      intro r _
      simp only [decide_eq_true_eq]
      rintro ⟨rfl, hname⟩
      exact hother ⟨rfl, hname⟩
    unfold Declared.reshapesOf
    rw [List.filter_append, hnone, List.append_nil]

theorem foldlM_addRaw_of_not_writesInQuery {raws : List Json}
    (h : raws.foldlM (addRaw c route) x = .ok y) (hno : ∀ raw ∈ raws, ¬ c.WritesInQuery name raw) :
    y.locations.query.properties.get? name = x.locations.query.properties.get? name ∧
      y.reshapesOf name = x.reshapesOf name := by
  induction raws generalizing x with
  | nil =>
    obtain rfl := Except.ok.inj h
    exact ⟨rfl, rfl⟩
  | cons raw raws ih =>
    obtain ⟨hraw, hraws⟩ := List.forall_mem_cons.mp hno
    rw [List.foldlM_cons] at h
    obtain ⟨z, hz, h⟩ := Except.bind_eq_ok_iff.mp h
    obtain ⟨hschema, hreshapes⟩ := ih h hraws
    obtain ⟨hschema', hreshapes'⟩ := addRaw_of_not_writesInQuery hz hraw
    exact ⟨hschema.trans hschema', hreshapes.trans hreshapes'⟩

/-- The parameter itself declares its schema, and adds its reshapings. -/
theorem addRaw_of_isQueryParameter {raw v : Json} {d : ParameterDefinition}
    (h : addRaw c route x raw = .ok y) (hv : c.resolve raw = .ok v)
    (hname : v.IsQueryParameter name) (hd : ParameterDefinition.ofJson v route = .ok d) :
    ∃ source rs, d.source = some source ∧ reshapes d source .query route = .ok rs ∧
      y.locations.query.properties.get? name = some source.schema ∧
      y.reshapesOf name = x.reshapesOf name ++ rs := by
  obtain ⟨v', hv', h⟩ := Except.bind_eq_ok_iff.mp h
  obtain rfl := Except.ok.inj (hv.symm.trans hv')
  obtain ⟨d', hd', h⟩ := Except.bind_eq_ok_iff.mp h
  obtain rfl := Except.ok.inj (hd.symm.trans hd')
  obtain ⟨location, source, rs, hlocation, hsource, hrs, rfl⟩ := addParameter_eq_ok h
  obtain ⟨hquery, rfl⟩ := (ParameterDefinition.isQueryParameter_iff hd).mp hname
  obtain rfl : location = .query :=
    Option.some.inj (hlocation.symm.trans (ofName?_eq_query_iff.mpr hquery))
  refine ⟨source, rs, hsource, hrs, Assoc.get?_insert_self _ _ _, ?_⟩
  have hall : (rs.map (⟨·, recordedName .query d.name, .query⟩ : Reshape → Directive)).filter
      (fun e => e.location = .query ∧ e.name = d.name) =
      rs.map (⟨·, recordedName .query d.name, .query⟩) := by
    rw [List.filter_eq_self, List.forall_mem_map]
    intro r _
    simp [recordedName]
  unfold Declared.reshapesOf
  rw [List.filter_append, hall, List.map_append, List.map_map]
  exact congrArg _ (List.map_id rs)

end Synthesis

namespace RequestSchema

variable {c : Contract} {route : Route} {contentType : ContentType} {schema : RequestSchema}
  {name : String} {d : ParameterDefinition}

/-- The reshapings of a query parameter, in the order in which they are applied. -/
def reshapesOf (schema : RequestSchema) (name : String) : List Reshape :=
  (schema.directives.filter fun d => d.location = .query ∧ d.name = name).map (·.reshape)

theorem mem_reshapesOf_iff {x : Reshape} :
    x ∈ schema.reshapesOf name ↔ ⟨x, name, .query⟩ ∈ schema.directives := by
  unfold reshapesOf
  simp only [List.mem_map, List.mem_filter, decide_eq_true_eq]
  constructor
  · rintro ⟨⟨_, _, _⟩, ⟨hmem, rfl, rfl⟩, rfl⟩
    exact hmem
  · exact fun hmem => ⟨_, ⟨hmem, rfl, rfl⟩, rfl⟩

/-- They are what the directives do to the value of the parameter. -/
theorem reshapeAll_directives (schema : RequestSchema) (name : String) (v : Json) :
    Directive.reshapeAll (RequestValidator.directivesOf schema.directives .query) name v =
      Reshape.reshapedBy (schema.reshapesOf name) v := by
  rw [Directive.reshapeAll_eq_reshapedBy, RequestValidator.directivesOf, List.filter_filter,
    reshapesOf]
  simp only [Bool.decide_and, Bool.and_comm]

/-- **What a schema holds of a query parameter that is declared once**: its schema, and the
reshapings that its definition calls for. -/
theorem exists_of_declaresOnce (h : synthesize c route contentType = .ok schema)
    (hd : route.DeclaresOnce c name d) :
    ∃ source, d.source = some source ∧
      Synthesis.reshapes d source .query route.template = .ok (schema.reshapesOf name) ∧
      (schema.location .query).properties.get? name = some source.schema := by
  obtain ⟨declared, hdeclared, h⟩ := Except.bind_eq_ok_iff.mp h
  obtain ⟨⟨body, bodyRequired⟩, -, h⟩ := Except.bind_eq_ok_iff.mp h
  obtain rfl := Except.ok.inj h
  obtain ⟨before, raw, after, v, hparameters, hv, hname, hd, hothers⟩ := hd
  rw [hparameters, List.foldlM_append] at hdeclared
  obtain ⟨x, hx, hdeclared⟩ := Except.bind_eq_ok_iff.mp hdeclared
  rw [List.foldlM_cons] at hdeclared
  obtain ⟨y, hy, hdeclared⟩ := Except.bind_eq_ok_iff.mp hdeclared
  -- nothing before, the parameter itself, nothing after
  have hbefore := Synthesis.foldlM_addRaw_of_not_writesInQuery hx
    fun other hother => hothers other (List.mem_append_left _ hother)
  have hafter := Synthesis.foldlM_addRaw_of_not_writesInQuery hdeclared
    fun other hother => hothers other (List.mem_append_right _ hother)
  obtain ⟨source, rs, hsource, hrs, hschema, hreshapes⟩ :=
    Synthesis.addRaw_of_isQueryParameter hy hv hname hd
  have hall : declared.reshapesOf name = rs := by
    rw [hafter.2, hreshapes, hbefore.2]
    rfl
  have hordered : ((Directive.inOrder declared.directives).filter
      fun d => d.location = .query ∧ d.name = name).map (·.reshape) = rs := by
    rw [Directive.filter_inOrder, Directive.map_reshape_inOrder]
    exact (congrArg Reshape.inOrder hall).trans (Synthesis.inOrder_of_reshapes hrs)
  refine ⟨source, hsource, ?_, hafter.1.trans hschema⟩
  rw [hrs]
  exact congrArg Except.ok hordered.symm

end RequestSchema

end ApiContract
