import ApiContract.Proofs.Request.Coercing
/-!
# A parameter of a path that an operation declares again

A parameter of a path is left out when an operation has one of the same key. Keys are compared as
they are written, and names of headers are recorded in lower case, so a header of the path may stay
beside the header of the operation that has its name in another case. Its schema is then replaced,
but its directives stay, and so does its place among the required names.
-/

namespace ApiContract

theorem PerLocation.ext_get {α : Type} {x y : PerLocation α} (h : ∀ l, x.get l = y.get l) : x = y := by
  obtain ⟨query, headers, params, cookies⟩ := x
  have hquery := h .query
  have hheaders := h .header
  have hparams := h .path
  have hcookies := h .cookie
  simp only [get] at hquery hheaders hparams hcookies
  subst hquery hheaders hparams hcookies
  rfl

attribute [ext] LocationSchema

/-- Ordering leaves out no directive. -/
theorem Directive.length_inOrder (ds : List Directive) : (inOrder ds).length = ds.length := by
  induction ds with
  | nil => rfl
  | cons d ds ih =>
    obtain ⟨reshape, name, location⟩ := d
    cases reshape <;> simp_all [inOrder, Reshape.rank] <;> omega

namespace Synthesis

variable {c : Contract} {route : String} {x y : Declared} {l : Location}

/-! ## What a parameter says -/

/-- What a parameter says of its location. -/
structure Entry where
  location : Location
  /-- The name under which it is recorded. -/
  name : String
  schema : Json
  required : Bool
  reshapes : List Reshape
deriving DecidableEq, Repr

/-- What a parameter says as it is written, if it is well-formed. -/
def entryOf? (c : Contract) (route : String) (raw : Json) : Option Entry := do
  let v ← (c.resolve raw).toOption
  let d ← (ParameterDefinition.ofJson v route).toOption
  let location ← Location.ofName? d.location
  let source ← d.source
  let reshapes ← (reshapes d source location route).toOption
  return ⟨location, recordedName location d.name, source.schema, d.required, reshapes⟩

/-- What the well-formed ones of some parameters say. -/
def entries (c : Contract) (route : String) (raws : List Json) : List Entry :=
  raws.filterMap (entryOf? c route)

/-- The directives of a parameter. -/
def Entry.directives (e : Entry) : List Directive := e.reshapes.map (⟨·, e.name, e.location⟩)

/-- Add what a parameter says. -/
def Declared.add (x : Declared) (e : Entry) : Declared where
  locations := x.locations.modify (·.declare e.name e.schema e.required) e.location
  directives := x.directives ++ e.directives

/-- **Adding a parameter adds what it says**, and succeeds if it is well-formed. -/
theorem addRaw_eq_ok_iff {raw : Json} :
    addRaw c route x raw = .ok y ↔ ∃ e, entryOf? c route raw = some e ∧ y = x.add e := by
  simp only [addRaw, entryOf?, Except.bind_eq_ok_iff, Option.bind_eq_bind, Option.bind_eq_some_iff,
    Except.toOption_eq_some_iff]
  constructor
  · rintro ⟨v, hv, d, hd, h⟩
    obtain ⟨location, source, rs, hlocation, hsource, hrs, rfl⟩ := addParameter_eq_ok h
    exact ⟨_, ⟨v, hv, d, hd, location, hlocation, source, hsource, rs, hrs, rfl⟩, rfl⟩
  · rintro ⟨e, ⟨v, hv, d, hd, location, hlocation, source, hsource, rs, hrs, he⟩, rfl⟩
    obtain rfl := Option.some.inj he
    refine ⟨v, hv, d, hd, ?_⟩
    simp only [addParameter, hlocation, hsource, hrs]
    rfl

theorem foldlM_addRaw {raws : List Json}
    (h : ∀ raw ∈ raws, (entryOf? c route raw).isSome = true) :
    raws.foldlM (addRaw c route) x = .ok ((entries c route raws).foldl Declared.add x) := by
  induction raws generalizing x with
  | nil => rfl
  | cons raw raws ih =>
    obtain ⟨hraw, hraws⟩ := List.forall_mem_cons.mp h
    obtain ⟨e, he⟩ := Option.isSome_iff_exists.mp hraw
    rw [List.foldlM_cons, addRaw_eq_ok_iff.mpr ⟨e, he, rfl⟩, entries,
      List.filterMap_cons_some he]
    exact ih hraws

/-! ## Declaring one after the other -/

/-- The names that are required in a location, in order and with repetitions. -/
def requiredIn (l : Location) (es : List Entry) : List String :=
  (es.filter fun e => e.required && e.location = l).map (·.name)

/-- Collect a name, if it is new. -/
def collect (seen : List String) (name : String) : List String :=
  if seen.contains name then seen else seen ++ [name]

/-- The directives of entries come one after the other. -/
theorem directives_foldl_add (x : Declared) (es : List Entry) :
    (es.foldl Declared.add x).directives = x.directives ++ es.flatMap Entry.directives := by
  induction es generalizing x with
  | nil => simp
  | cons e es ih => simp [ih, Declared.add]

/-- The required names of a location are collected. -/
theorem required_foldl_add (x : Declared) (es : List Entry) (l : Location) :
    ((es.foldl Declared.add x).locations.get l).required =
      (requiredIn l es).foldl collect (x.locations.get l).required := by
  induction es generalizing x with
  | nil => rfl
  | cons e es ih =>
    rw [List.foldl_cons, ih, Declared.add, PerLocation.get_modify]
    by_cases hl : e.location = l
    · rw [if_pos hl]
      cases hrequired : e.required <;>
        simp [requiredIn, LocationSchema.declare, collect, hl, hrequired]
    · rw [if_neg hl]
      simp [requiredIn, hl]

/-- The last schema of a name in a location stands there. -/
theorem get?_foldl_add (x : Declared) (es : List Entry) (l : Location) (name : String) :
    ((es.foldl Declared.add x).locations.get l).properties.get? name =
      es.foldl (fun schema e => if e.location = l ∧ e.name = name then some e.schema else schema)
        ((x.locations.get l).properties.get? name) := by
  induction es generalizing x with
  | nil => rfl
  | cons e es ih =>
    rw [List.foldl_cons, ih, List.foldl_cons, Declared.add, PerLocation.get_modify]
    congr 1
    by_cases hl : e.location = l
    · rw [if_pos hl, LocationSchema.declare, Assoc.get?_insert]
      by_cases hname : e.name = name <;> simp [hl, hname]
    · rw [if_neg hl, if_neg fun h => hl h.1]

/-! ## With a parameter and without it -/

theorem prefix_foldl_collect (seen names : List String) : seen <+: names.foldl collect seen := by
  induction names generalizing seen with
  | nil => exact List.prefix_rfl
  | cons name names ih =>
    refine List.IsPrefix.trans ?_ (ih (collect seen name))
    unfold collect
    split
    · exact List.prefix_rfl
    · exact List.prefix_append seen _

theorem mem_foldl_collect {names seen : List String} {name : String} :
    name ∈ names.foldl collect seen ↔ name ∈ seen ∨ name ∈ names :=
  Route.mem_foldl_collect

/-- A name that was collected early makes no difference exactly if it would have come next. -/
theorem foldl_collect_append_eq_iff {seen names : List String} {name : String} (h : name ∉ seen) :
    names.foldl collect (seen ++ [name]) = names.foldl collect seen ↔
      names.find? (fun other => !seen.contains other) = some name := by
  induction names with
  | nil => simp
  | cons next names ih =>
    by_cases hseen : next ∈ seen
    · simpa [collect, hseen] using ih
    · have hfind : (next :: names).find? (fun other => !seen.contains other) = some next := by
        simp [hseen]
      rw [hfind, Option.some.injEq, List.foldl_cons, List.foldl_cons]
      have hnew : collect seen next = seen ++ [next] := by simp [collect, hseen]
      by_cases hname : next = name
      · subst hname
        simp [collect, hseen]
      · have hother : collect (seen ++ [name]) next = seen ++ [name] ++ [next] := by
          simp [collect, hseen, hname]
        refine iff_of_false (fun heq => ?_) hname
        rw [hnew, hother] at heq
        -- both lists begin with what was collected first
        have hfirst : seen ++ [name] <+: names.foldl collect (seen ++ [next]) :=
          heq ▸ (List.prefix_append _ _).trans (prefix_foldl_collect _ names)
        have hsame := (List.prefix_of_prefix_length_le hfirst
          (prefix_foldl_collect (seen ++ [next]) names) (by simp)).eq_of_length (by simp)
        exact hname (by simpa using hsame.symm)

/-- The value of a fold that is overwritten does not depend on its start. -/
theorem foldl_overwrite {α β : Type} {p : α → Prop} [DecidablePred p] {f : α → β} {xs : List α}
    (h : ∃ x ∈ xs, p x) (start start' : β) :
    xs.foldl (fun v x => if p x then f x else v) start =
      xs.foldl (fun v x => if p x then f x else v) start' := by
  induction xs generalizing start start' with
  | nil => simp at h
  | cons x xs ih =>
    rw [List.foldl_cons, List.foldl_cons]
    by_cases hx : p x
    · rw [if_pos hx, if_pos hx]
    · obtain ⟨y, hy, hpy⟩ := h
      rcases List.mem_cons.mp hy with rfl | hy
      · exact absurd hpy hx
      · exact ih ⟨y, hy, hpy⟩ _ _

theorem ascending_foldl_add {x : Declared} (hx : x.Ascending) (es : List Entry) :
    (es.foldl Declared.add x).Ascending := by
  induction es generalizing x with
  | nil => exact hx
  | cons e es ih =>
    refine ih fun l => ?_
    rw [Declared.add, PerLocation.get_modify]
    split
    · exact (hx l).insert _ _
    · exact hx l

variable {e : Entry} {es : List Entry}

/-- The schema of a parameter is replaced by the next one of its name. -/
theorem properties_foldl_add_add (hx : x.Ascending)
    (h : ∃ e' ∈ es, e'.location = e.location ∧ e'.name = e.name) (l : Location) :
    ((es.foldl Declared.add (x.add e)).locations.get l).properties =
      ((es.foldl Declared.add x).locations.get l).properties := by
  have hwith : (x.add e).Ascending := ascending_foldl_add hx [e]
  refine (ascending_foldl_add hwith es l).ext (ascending_foldl_add hx es l) fun name => ?_
  rw [get?_foldl_add (x.add e), get?_foldl_add x]
  by_cases hname : e.location = l ∧ e.name = name
  · obtain ⟨rfl, rfl⟩ := hname
    exact foldl_overwrite h _ _
  · have hsame := get?_foldl_add x [e] l name
    rw [List.foldl_cons, List.foldl_nil, List.foldl_cons, List.foldl_nil, if_neg hname] at hsame
    rw [hsame]

/-- The place of a parameter among the required names stays, unless it is the same without it. -/
theorem required_foldl_add_add_iff :
    (∀ l, ((es.foldl Declared.add (x.add e)).locations.get l).required =
        ((es.foldl Declared.add x).locations.get l).required) ↔
      (e.required = true → e.name ∈ (x.locations.get e.location).required ∨
        (requiredIn e.location es).find?
          (fun name => !(x.locations.get e.location).required.contains name) = some e.name) := by
  have hadd : ∀ l, ((x.add e).locations.get l).required =
      if e.required = true ∧ e.location = l then
        collect (x.locations.get l).required e.name else (x.locations.get l).required := by
    intro l
    have hone := required_foldl_add x [e] l
    rw [List.foldl_cons, List.foldl_nil] at hone
    rw [hone, requiredIn, List.filter_cons]
    by_cases h : e.required = true ∧ e.location = l <;> simp [h]
  have hother : ∀ l, ¬ (e.required = true ∧ e.location = l) →
      ((es.foldl Declared.add (x.add e)).locations.get l).required =
        ((es.foldl Declared.add x).locations.get l).required := by
    intro l hl
    rw [required_foldl_add, required_foldl_add, hadd, if_neg hl]
  have hown : (∀ l, ((es.foldl Declared.add (x.add e)).locations.get l).required =
      ((es.foldl Declared.add x).locations.get l).required) ↔ (e.required = true →
        ((es.foldl Declared.add (x.add e)).locations.get e.location).required =
          ((es.foldl Declared.add x).locations.get e.location).required) := by
    refine ⟨fun h _ => h e.location, fun h l => ?_⟩
    by_cases hl : e.required = true ∧ e.location = l
    · obtain ⟨hrequired, rfl⟩ := hl
      exact h hrequired
    · exact hother l hl
  rw [hown]
  refine forall_congr' fun hrequired => ?_
  rw [required_foldl_add, required_foldl_add, hadd, if_pos ⟨hrequired, rfl⟩]
  by_cases hmem : e.name ∈ (x.locations.get e.location).required
  · simp [collect, hmem]
  · have hcollect : collect (x.locations.get e.location).required e.name =
        (x.locations.get e.location).required ++ [e.name] := by simp [collect, hmem]
    rw [hcollect, foldl_collect_append_eq_iff hmem, or_iff_right hmem]

/-- The directives of a parameter stay, if it has any. -/
theorem inOrder_foldl_add_add_iff :
    Directive.inOrder (es.foldl Declared.add (x.add e)).directives =
        Directive.inOrder (es.foldl Declared.add x).directives ↔ e.reshapes = [] := by
  rw [directives_foldl_add, directives_foldl_add, Declared.add]
  constructor
  · intro h
    have hlength := congrArg List.length h
    simp only [Directive.length_inOrder, List.length_append, Entry.directives, List.length_map]
      at hlength
    exact List.length_eq_zero_iff.mp (by omega)
  · intro h
    rw [Entry.directives, h, List.map_nil, List.append_nil]

/-- Whether nothing shows of a parameter beside those before it and those behind it: it has no
directives, and if it is required its name comes where it would come without it. -/
structure Entry.Vanishes (e : Entry) (before after : List Entry) : Prop where
  reshapes : e.reshapes = []
  required : e.required = true → e.name ∈ requiredIn e.location before ∨
    (requiredIn e.location after).find?
      (fun name => !(requiredIn e.location before).contains name) = some e.name

instance (e : Entry) (before after : List Entry) : Decidable (e.Vanishes before after) :=
  decidable_of_iff (e.reshapes = [] ∧ (e.required = true → e.name ∈ requiredIn e.location before ∨
    (requiredIn e.location after).find?
      (fun name => !(requiredIn e.location before).contains name) = some e.name))
    ⟨fun h => ⟨h.1, h.2⟩, fun h => ⟨h.reshapes, h.required⟩⟩

/-- **What is left of a parameter that is declared again.** -/
theorem vanishes_iff {before after : List Entry}
    (h : ∃ e' ∈ after, e'.location = e.location ∧ e'.name = e.name) :
    ((before ++ e :: after).foldl Declared.add .none).locations =
        ((before ++ after).foldl Declared.add .none).locations ∧
      Directive.inOrder ((before ++ e :: after).foldl Declared.add .none).directives =
        Directive.inOrder ((before ++ after).foldl Declared.add .none).directives ↔
      e.Vanishes before after := by
  have hnone : Declared.none.Ascending := by
    intro l
    cases l <;> exact List.Pairwise.nil
  have hascending := ascending_foldl_add hnone before
  have hrequired : ∀ l name, name ∈ ((before.foldl Declared.add .none).locations.get l).required ↔
      name ∈ requiredIn l before := by
    intro l name
    have hempty : (Declared.none.locations.get l).required = [] := by cases l <;> rfl
    rw [required_foldl_add, mem_foldl_collect, hempty, or_iff_right List.not_mem_nil]
  have hfind : ∀ l, (fun name =>
      !((before.foldl Declared.add .none).locations.get l).required.contains name) =
        fun name => !(requiredIn l before).contains name := by
    intro l
    funext name
    rw [Bool.not_inj_iff, Bool.eq_iff_iff, List.contains_iff_mem, List.contains_iff_mem, hrequired]
  rw [List.foldl_append, List.foldl_append, List.foldl_cons, inOrder_foldl_add_add_iff]
  have hlocations : (after.foldl Declared.add ((before.foldl Declared.add .none).add e)).locations =
      (after.foldl Declared.add (before.foldl Declared.add .none)).locations ↔
        ∀ l, ((after.foldl Declared.add ((before.foldl Declared.add .none).add e)).locations.get
          l).required =
            ((after.foldl Declared.add (before.foldl Declared.add .none)).locations.get
              l).required := by
    refine ⟨fun heq l => by rw [heq], fun heq => PerLocation.ext_get fun l => ?_⟩
    exact LocationSchema.ext (properties_foldl_add_add hascending h l) (heq l)
  rw [hlocations, required_foldl_add_add_iff, hrequired, hfind]
  exact ⟨fun h => ⟨h.2, h.1⟩, fun h => ⟨h.required, h.reshapes⟩⟩

end Synthesis

/-! ## The parameters of a route -/

namespace Contract

/-- Whether a parameter of a path has the key of one of an operation. -/
def replaces (c : Contract) (ofOperation : List Json) (parameter : Json) : Bool :=
  match c.parameterKey? parameter with
  | some key => (ofOperation.map c.parameterKey?).contains (some key)
  | none => false

/-- The parameters of a path that stay beside those of an operation. -/
def unreplaced (c : Contract) (ofOperation ofPath : List Json) : List Json :=
  ofPath.filter fun parameter => !c.replaces ofOperation parameter

theorem mergeParameters_eq (c : Contract) (ofPath ofOperation : List Json) :
    c.mergeParameters ofPath ofOperation = c.unreplaced ofOperation ofPath ++ ofOperation := by
  refine congrArg (· ++ ofOperation) (List.filter_congr fun parameter _ => ?_)
  unfold replaces
  cases c.parameterKey? parameter <;> rfl

/-- What a parameter says stands under its key. -/
theorem exists_of_entryOf? {c : Contract} {route : String} {raw : Json} {e : Synthesis.Entry}
    (he : Synthesis.entryOf? c route raw = some e) :
    ∃ d : ParameterDefinition, d.location = e.location.name ∧
      e.name = Synthesis.recordedName e.location d.name ∧
      c.parameterKey? raw = some (d.name, d.location) := by
  simp only [Synthesis.entryOf?, Option.bind_eq_bind, Option.bind_eq_some_iff,
    Except.toOption_eq_some_iff] at he
  obtain ⟨v, hv, d, hd, location, hlocation, source, -, rs, -, he⟩ := he
  obtain rfl := Option.some.inj he
  obtain ⟨hname, hwritten⟩ := ParameterDefinition.name_and_location_of_ofJson hd
  have hfound : Location.all.find? (·.name == d.location) = some location := hlocation
  have hwritten' := List.find?_some hfound
  refine ⟨d, (beq_iff_eq.mp hwritten').symm, rfl, ?_⟩
  simp [parameterKey?, hv, Except.toOption, hname, Json.asString?, hwritten]

/-- A parameter is recorded as it is written unless it is a header, so then parameters that are
recorded alike have one key. -/
theorem parameterKey?_eq_of_entryOf? {c : Contract} {route : String} {raw raw' : Json}
    {e e' : Synthesis.Entry} (he : Synthesis.entryOf? c route raw = some e)
    (he' : Synthesis.entryOf? c route raw' = some e') (hlocation : e'.location = e.location)
    (hname : e'.name = e.name) (hheader : e.location ≠ .header) :
    c.parameterKey? raw' = c.parameterKey? raw := by
  obtain ⟨d, hlocation', hname', hkey⟩ := exists_of_entryOf? he
  obtain ⟨d', hlocation'', hname'', hkey'⟩ := exists_of_entryOf? he'
  rw [hkey, hkey', hlocation', hlocation'', hlocation]
  rw [hname', hname'', hlocation, Synthesis.recordedName, Synthesis.recordedName, if_neg hheader,
    if_neg hheader] at hname
  rw [hname]

/-- A parameter that is no header has the key of any other that is recorded alike. -/
theorem replaces_of_entryOf? {c : Contract} {route : String} {ofOperation : List Json}
    {parameter : Json} {e : Synthesis.Entry} (he : Synthesis.entryOf? c route parameter = some e)
    (hagain : ∃ e' ∈ Synthesis.entries c route ofOperation,
      e'.location = e.location ∧ e'.name = e.name) (hheader : e.location ≠ .header) :
    c.replaces ofOperation parameter = true := by
  obtain ⟨e', hmem, hlocation, hname⟩ := hagain
  obtain ⟨raw, hraw, he'⟩ := List.mem_filterMap.mp hmem
  obtain ⟨d, -, -, hkey⟩ := exists_of_entryOf? he
  rw [replaces, hkey]
  refine List.contains_iff_mem.mpr (List.mem_map.mpr ⟨raw, hraw, ?_⟩)
  rw [parameterKey?_eq_of_entryOf? he he' hlocation hname hheader, hkey]

/-- A parameter of a path with the key of one of the operation is left out. -/
theorem mergeParameters_of_replaces {c : Contract} {ofOperation : List Json} {parameter : Json}
    (h : c.replaces ofOperation parameter = true) (before after : List Json) :
    c.mergeParameters (before ++ parameter :: after) ofOperation =
      c.mergeParameters (before ++ after) ofOperation := by
  simp [mergeParameters_eq, unreplaced, h]

/-- Any other stays beside those of the operation. -/
theorem mergeParameters_of_not_replaces {c : Contract} {ofOperation : List Json} {parameter : Json}
    (h : ¬ c.replaces ofOperation parameter = true) (before after : List Json) :
    c.mergeParameters (before ++ parameter :: after) ofOperation =
      c.unreplaced ofOperation before ++ parameter :: c.mergeParameters after ofOperation := by
  simp [mergeParameters_eq, unreplaced, h]

theorem mergeParameters_append (c : Contract) (before after ofOperation : List Json) :
    c.mergeParameters (before ++ after) ofOperation =
      c.unreplaced ofOperation before ++ c.mergeParameters after ofOperation := by
  simp [mergeParameters_eq, unreplaced]

end Contract

namespace RequestSchema

open Synthesis

/-- A parameter that another behind it is recorded like makes no difference to the schema exactly
when there is none, or nothing shows of it. -/
theorem synthesize_beside_iff {c : Contract} {r : Route} {t : ContentType} {before after : List Json}
    {parameter : Json} {e : Entry}
    (hbefore : ∀ other ∈ before, (entryOf? c r.template other).isSome = true)
    (hafter : ∀ other ∈ after, (entryOf? c r.template other).isSome = true)
    (he : entryOf? c r.template parameter = some e)
    (hagain : ∃ e' ∈ entries c r.template after, e'.location = e.location ∧ e'.name = e.name) :
    synthesize c { r with parameters := before ++ parameter :: after } t =
      synthesize c { r with parameters := before ++ after } t ↔
    (∃ f, Synthesis.body c r t = .error f) ∨
      e.Vanishes (entries c r.template before) (entries c r.template after) := by
  rw [← vanishes_iff hagain]
  have hwith : ∀ other ∈ before ++ parameter :: after,
      (entryOf? c r.template other).isSome = true := by
    simp only [List.mem_append, List.mem_cons]
    rintro other (hother | rfl | hother)
    · exact hbefore other hother
    · rw [he, Option.isSome_some]
    · exact hafter other hother
  have hwithout : ∀ other ∈ before ++ after, (entryOf? c r.template other).isSome = true := by
    simp only [List.mem_append]
    exact fun other => Or.rec (hbefore other) (hafter other)
  rw [synthesize_of_declared (foldlM_addRaw hwith), synthesize_of_declared (foldlM_addRaw hwithout)]
  have hentries : entries c r.template (before ++ parameter :: after) =
      entries c r.template before ++ e :: entries c r.template after := by
    rw [entries, List.filterMap_append, List.filterMap_cons_some he]
    rfl
  have hentries' : entries c r.template (before ++ after) =
      entries c r.template before ++ entries c r.template after := List.filterMap_append
  simp only [hentries, hentries']
  -- neither body depends on the parameters
  have hbody : ∀ raws, Synthesis.body c { r with parameters := raws } t = Synthesis.body c r t :=
    fun _ => rfl
  rw [hbody (before ++ parameter :: after), hbody (before ++ after)]
  cases Synthesis.body c r t with
  | error f => exact iff_of_true rfl (Or.inl ⟨f, rfl⟩)
  | ok b =>
    simp only [bind, Except.bind, Except.ok.injEq, mk.injEq, reduceCtorEq, exists_false, false_or,
      true_and]

/-- **When a parameter of a path leaves nothing.** Beside a parameter of the operation that is
recorded in the same location and under the same name, a parameter of the path makes no difference
to the schema exactly when there is none, or the parameter is left out, or nothing shows of it. One
that is no header never makes a difference. -/
theorem synthesize_overridden_iff {c : Contract} {r : Route} {t : ContentType}
    {before after ofOperation : List Json} {parameter : Json} {e : Entry}
    (hwell : ∀ other ∈ before ++ after ++ ofOperation,
      (entryOf? c r.template other).isSome = true)
    (he : entryOf? c r.template parameter = some e)
    (hagain : ∃ e' ∈ entries c r.template ofOperation,
      e'.location = e.location ∧ e'.name = e.name) :
    (synthesize c { r with
        parameters := c.mergeParameters (before ++ parameter :: after) ofOperation } t =
      synthesize c { r with parameters := c.mergeParameters (before ++ after) ofOperation } t ↔
    (∃ f, Synthesis.body c r t = .error f) ∨ c.replaces ofOperation parameter = true ∨
      e.Vanishes (entries c r.template (c.unreplaced ofOperation before))
        (entries c r.template (c.mergeParameters after ofOperation))) ∧
    (e.location ≠ .header → synthesize c { r with
        parameters := c.mergeParameters (before ++ parameter :: after) ofOperation } t =
      synthesize c { r with parameters := c.mergeParameters (before ++ after) ofOperation } t) := by
  refine ⟨?_, fun hheader => ?_⟩
  · by_cases hreplaced : c.replaces ofOperation parameter = true
    · refine iff_of_true ?_ (Or.inr (Or.inl hreplaced))
      rw [Contract.mergeParameters_of_replaces hreplaced]
    have hbefore : ∀ other ∈ c.unreplaced ofOperation before,
        (entryOf? c r.template other).isSome = true := fun other hother =>
      hwell other (by simp [(List.mem_filter.mp hother).1])
    have hafter : ∀ other ∈ c.mergeParameters after ofOperation,
        (entryOf? c r.template other).isSome = true := by
      intro other hother
      rw [Contract.mergeParameters_eq, List.mem_append] at hother
      rcases hother with hother | hother
      · exact hwell other (by simp [(List.mem_filter.mp hother).1])
      · exact hwell other (by simp [hother])
    obtain ⟨e', hmem, hshared⟩ := hagain
    have hbehind : ∃ e' ∈ entries c r.template (c.mergeParameters after ofOperation),
        e'.location = e.location ∧ e'.name = e.name := by
      refine ⟨e', ?_, hshared⟩
      rw [Contract.mergeParameters_eq, entries, List.filterMap_append]
      exact List.mem_append_right _ hmem
    rw [or_iff_right hreplaced, Contract.mergeParameters_of_not_replaces hreplaced,
      Contract.mergeParameters_append]
    exact synthesize_beside_iff hbefore hafter he hbehind
  · rw [Contract.mergeParameters_of_replaces (Contract.replaces_of_entryOf? he hagain hheader)]

end RequestSchema

/-- A parameter in a header that may hold a text. -/
def textHeader (name : String) (required : Bool) : Json :=
  .object [
    ("in", .string "header"),
    ("name", .string name),
    ("required", .bool required),
    ("schema", .object [("type", .string "string")])]

/-- A contract with `GET /a`, whose path has the header `X-Id` and whose operation has `x-id`. -/
def cased (required : Bool) : Contract where
  root := [
    ("openapi", .string "3.0.3"),
    ("paths", .object [("/a", .object [
      ("get", .object [
        ("parameters", .array [textHeader "x-id" false]),
        ("responses", .object [])]),
      ("parameters", .array [textHeader "X-Id" required])])])]
  version := "3.0.3"

/-- The route of `GET /a`, with some parameters. -/
def casedRoute (parameters : List Json) : Route where
  method := .get
  template := "/a"
  operationId := none
  placeholders := []
  parameters
  requestBody := none
  responses := []
  security := none

/-- Of an optional header nothing is left. -/
theorem synthesize_overridden_iff_optional :
    (cased false).routes = .ok [casedRoute
        ((cased false).mergeParameters [textHeader "X-Id" false] [textHeader "x-id" false])] ∧
      RequestSchema.synthesize (cased false) (casedRoute
          ((cased false).mergeParameters [textHeader "X-Id" false] [textHeader "x-id" false])) none =
        RequestSchema.synthesize (cased false) (casedRoute
          ((cased false).mergeParameters [] [textHeader "x-id" false])) none := by
  have he : Synthesis.entryOf? (cased false) "/a" (textHeader "X-Id" false) =
      some ⟨.header, "x-id", .object [("type", .string "string")], false, []⟩ := by decide +kernel
  have hwell : ∀ other ∈ ([] ++ [] ++ [textHeader "x-id" false] : List Json),
      (Synthesis.entryOf? (cased false) "/a" other).isSome = true := by decide +kernel
  refine ⟨rfl, (RequestSchema.synthesize_overridden_iff (r := casedRoute []) hwell he ?_).1.mpr
    (Or.inr (Or.inr ?_))⟩
  · decide +kernel
  · decide +kernel

/-- A required header stays required. -/
theorem synthesize_overridden_ne :
    (cased true).routes = .ok [casedRoute
        ((cased true).mergeParameters [textHeader "X-Id" true] [textHeader "x-id" false])] ∧
      RequestSchema.synthesize (cased true) (casedRoute
          ((cased true).mergeParameters [textHeader "X-Id" true] [textHeader "x-id" false])) none ≠
        RequestSchema.synthesize (cased true) (casedRoute
          ((cased true).mergeParameters [] [textHeader "x-id" false])) none :=
  ⟨rfl, by decide +kernel⟩

end ApiContract
