import ApiContract.Proofs.Schema.Plain
import ApiContract.Proofs.Schema.Within
import ApiContract.Request.Validation
/-!
# The document of a request schema

Parameters and body are judged together, as properties of one document. The document accepts a
request exactly if the names that are required are there and each schema accepts within it what it is
for. Where all references lead into the components each schema compiles on its own as well, and
accepts the same.
-/

namespace ApiContract

open Schema

/-! ## Plain documents -/

namespace LocationSchema

/-- The names that the schema of a location lists as required, if it has such a list. -/
def listed? (x : LocationSchema) : Option (List String) :=
  if x.required.isEmpty then none else some x.required

theorem getD_listed? (x : LocationSchema) : x.listed?.getD [] = x.required := by
  unfold listed?
  cases h : x.required <;> rfl

theorem toSchema_eq (x : LocationSchema) :
    x.toSchema = .object (plainMembers x.properties x.listed? true) := by
  unfold toSchema listed? plainMembers
  cases h : x.required <;>
    simp only [Json.ofMembers, Assoc.ofList, Assoc.insertAll, Assoc.insert, List.isEmpty_nil,
      List.isEmpty_cons, List.cons_append, List.nil_append, List.foldl_cons, List.foldl_nil,
      String.reduceLT, String.reduceEq, Option.map_none, Option.map_some, Option.toList_none,
      Option.toList_some, if_true, if_false, Bool.false_eq_true]

end LocationSchema

namespace RequestSchema

variable (schema : RequestSchema)

/-- The properties of the document of a request schema. -/
def properties : Assoc Json :=
  [("body", schema.body),
    ("cookies", schema.locations.cookies.toSchema),
    ("headers", schema.locations.headers.toSchema),
    ("params", schema.locations.params.toSchema),
    ("query", schema.locations.query.toSchema)]

/-- The members that an instance must have. -/
def listed : List String :=
  ["query", "headers", "params"] ++ if schema.bodyRequired then ["body"] else []

theorem toSchema_eq :
    schema.toSchema = .object (plainMembers schema.properties (some schema.listed) false) := by
  simp only [toSchema, properties, listed, plainMembers, Json.ofMembers, Assoc.ofList,
    Assoc.insertAll, Assoc.insert, List.foldl_cons, List.foldl_nil, String.reduceLT,
    String.reduceEq, Option.map_some, Option.toList_some, List.cons_append, List.nil_append,
    if_true, if_false, Bool.false_eq_true]

theorem mem_properties {d : String × Json} :
    d ∈ schema.properties ↔
      d = ("body", schema.body) ∨ ∃ l : Location, d = (l.field, (schema.location l).toSchema) := by
  constructor
  · intro hd
    simp only [properties, List.mem_cons, List.not_mem_nil, or_false] at hd
    rcases hd with h | h | h | h | h
    · exact Or.inl h
    · exact Or.inr ⟨.cookie, h⟩
    · exact Or.inr ⟨.header, h⟩
    · exact Or.inr ⟨.path, h⟩
    · exact Or.inr ⟨.query, h⟩
  · rintro (rfl | ⟨l, rfl⟩)
    · exact List.mem_cons_self
    · cases l <;> simp [properties, location, PerLocation.get, Location.field]

/-- The document as it is compiled, apart from the components. -/
def whole : Assoc Json :=
  plainMembers (normalizeMembers schema.properties) (some schema.listed) false

theorem normalize_toSchema : normalize schema.toSchema = .object schema.whole := by
  rw [toSchema_eq, normalize_plain, widen_of_get?_none (by rfl)]
  rfl

/-- The same, with the references of each schema resolved in the document. -/
structure SatisfiedWithin (x : Compiler) (route : String) (values : PerLocation (Assoc Json))
    (body : Option Json) : Prop where
  required : ∀ l, ∀ name ∈ (schema.location l).required, (values.get l).contains name = true
  declared : ∀ l, ∀ d ∈ (schema.location l).properties, ∀ v,
    (values.get l).get? d.1 = some v → x.AcceptsWithin schema.toSchema d.2 route v
  accepted : ∀ v, body = some v → x.AcceptsWithin schema.toSchema schema.body route v
  present : schema.bodyRequired = true → body.isSome = true

end RequestSchema

/-! ## Instances -/

namespace RequestValidator

variable {values : PerLocation (Assoc Json)} {body : Option Json}

/-- The members of an instance. -/
theorem exists_instanceOf (values : PerLocation (Assoc Json)) (body : Option Json) :
    ∃ members : Assoc Json, instanceOf values body = .object members ∧
      (∀ l : Location, members.get? l.field = some (.object (values.get l))) ∧
      members.get? "body" = body := by
  refine ⟨_, rfl, fun l => ?_, ?_⟩
  · cases body <;> cases l <;>
      simp [Assoc.ofList, Assoc.insertAll, Assoc.get?_insert, Location.field, PerLocation.get]
  · cases body <;> simp [Assoc.ofList, Assoc.insertAll, Assoc.get?_insert]

end RequestValidator

/-! ## Judging -/

section

variable {x : Compiler} {schema : RequestSchema} {route : String} {c : Compiled}

namespace RequestSchema

theorem inside_whole (hc : x.compile schema.toSchema route = .ok c) :
    Inside x.dialect x.formats (.object schema.whole) (.object schema.whole) := by
  rw [Compiler.compile_eq_ok_iff, normalize_toSchema, Schema.compile_eq_ok_iff,
    accepts_withComponents] at hc
  exact ⟨hc.1, fun _ he => he⟩

theorem inside_property (hc : x.compile schema.toSchema route = .ok c) {d : String × Json}
    (hd : d ∈ schema.properties) :
    Inside x.dialect x.formats (.object schema.whole) (normalize d.2) := by
  refine (inside_whole hc).property (d := (d.1, normalize d.2)) ?_
  rw [normalizeMembers_eq_map]
  exact List.mem_map_of_mem hd

/-- The properties of a location are compiled as they are declared. -/
theorem normalize_location (hc : x.compile schema.toSchema route = .ok c) (l : Location) :
    normalize (schema.location l).toSchema =
      .object (plainMembers (normalizeMembers (schema.location l).properties)
        (schema.location l).listed? true) := by
  have hin := inside_property hc ((mem_properties schema).mpr (Or.inr ⟨l, rfl⟩))
  rw [LocationSchema.toSchema_eq, normalize_plain] at hin ⊢
  rw [widen_eq_self_of_accepts fun e he => (hin.property he).good]

theorem inside_parameter (hc : x.compile schema.toSchema route = .ok c) {l : Location}
    {d : String × Json} (hd : d ∈ (schema.location l).properties) :
    Inside x.dialect x.formats (.object schema.whole) (normalize d.2) := by
  have hin := inside_property hc ((mem_properties schema).mpr (Or.inr ⟨l, rfl⟩))
  rw [normalize_location hc] at hin
  refine hin.property (d := (d.1, normalize d.2)) ?_
  rw [normalizeMembers_eq_map]
  exact List.mem_map_of_mem hd

/-- The schema of a location judges its values one by one. -/
theorem accepted_judge_location (hc : x.compile schema.toSchema route = .ok c)
    {l : Location} {values : Assoc Json} {fuel : Nat}
    (hfuel : c.Ample [] (.object values) fuel) {p : Place} :
    (judge (c.meaning fuel) p (.object values) (read x.dialect x.formats
        (normalize (schema.location l).toSchema)).result).accepted = true ↔
      (∀ d ∈ (schema.location l).properties, ∀ v, values.get? d.1 = some v →
        x.AcceptsWithin schema.toSchema d.2 route v) ∧
      ∀ name ∈ (schema.location l).required, values.contains name = true := by
  rw [normalize_location hc, accepted_judge_read_plain, LocationSchema.getD_listed?,
    normalizeMembers_eq_map, List.forall_mem_map]
  refine and_congr_left fun _ => forall_congr' fun d => forall_congr' fun hd =>
    forall_congr' fun v => imp_congr_right fun hv => ?_
  exact Compiler.accepted_judge_within hc (normalize_toSchema schema) (inside_parameter hc hd)
    (hfuel.mono (Nat.le_of_lt (depth_lt_of_mem_members (Assoc.mem_of_get? hv)))) _

/-- **The document accepts a request exactly if each schema accepts its part within it.** -/
theorem accepts_instanceOf_iff_within (hc : x.compile schema.toSchema route = .ok c)
    (values : PerLocation (Assoc Json)) (body : Option Json) :
    c.accepts (RequestValidator.instanceOf values body) = true ↔
      schema.SatisfiedWithin x route values body := by
  obtain ⟨members, hinstance, hlocation, hbody⟩ := RequestValidator.exists_instanceOf values body
  have hschema : c.schema = (read x.dialect x.formats (.object schema.whole)).result := by
    rw [Compiler.compile_eq_ok_iff, normalize_toSchema, Schema.compile_eq_ok_iff] at hc
    rw [(linked_of_link hc.2).schema, read_withComponents]
  have hfuel : ∀ {k w}, members.get? k = some w → c.Ample [] w (c.followBound (.object members)) :=
    fun hw => c.ample_followBound (Nat.le_of_lt (depth_lt_of_mem_members (Assoc.mem_of_get? hw)))
  rw [hinstance]
  show (judge (c.meaning (c.followBound (.object members))) .root (.object members)
    c.schema).accepted = true ↔ _
  rw [hschema, whole, accepted_judge_read_plain, normalizeMembers_eq_map, List.forall_mem_map]
  constructor
  · rintro ⟨hproperties, hlisted⟩
    -- each location is a property of the document, and the instance always has it
    have hvalues := fun l : Location => (accepted_judge_location hc (hfuel (hlocation l))).mp
      (hproperties _ ((mem_properties schema).mpr (Or.inr ⟨l, rfl⟩)) _ (hlocation l))
    refine ⟨fun l => (hvalues l).2, fun l => (hvalues l).1, fun v hv => ?_, fun hrequired => ?_⟩
    · have hmem := (mem_properties schema).mpr (Or.inl rfl)
      rw [← hbody] at hv
      exact (Compiler.accepted_judge_within hc (normalize_toSchema schema)
        (inside_property hc hmem) (hfuel hv) _).mp (hproperties _ hmem v hv)
    · rw [← hbody]
      exact hlisted "body" (by simp [listed, hrequired])
  · intro h
    refine ⟨fun d hd w hw => ?_, fun k hk => ?_⟩
    · rcases (mem_properties schema).mp hd with rfl | ⟨l, rfl⟩
      · refine (Compiler.accepted_judge_within hc (normalize_toSchema schema)
          (inside_property hc hd) (hfuel hw) _).mpr (h.accepted w ?_)
        rw [← hbody]
        exact hw
      · rw [hlocation l, Option.some.injEq] at hw
        subst hw
        exact (accepted_judge_location hc (hfuel (hlocation l))).mpr
          ⟨h.declared l, h.required l⟩
    · have hfield : ∀ l : Location, members.contains l.field = true := fun l => by
        rw [Assoc.contains_eq, hlocation l]
        rfl
      -- the document asks for three of the locations, and perhaps for the body
      simp only [Option.getD_some, listed, List.cons_append, List.nil_append, List.mem_cons] at hk
      rcases hk with rfl | rfl | rfl | hk
      · exact hfield .query
      · exact hfield .header
      · exact hfield .path
      · split at hk
        · next hrequired =>
          obtain rfl := List.mem_singleton.mp hk
          rw [Assoc.contains_eq, hbody]
          exact h.present hrequired
        · exact absurd hk List.not_mem_nil

end RequestSchema

end

end ApiContract
