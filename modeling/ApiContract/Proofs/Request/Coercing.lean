import ApiContract.Proofs.Assoc.Ascending
import ApiContract.Proofs.Request.Conjunction
import ApiContract.Proofs.Schema.Coercible
/-!
# Coercion and the verdict on a request

With coercion and without it a request comes to the same plan, and the same values are judged but for
what coercion makes of the declared ones. A request that is accepted without coercion is accepted
with it exactly if every declared schema accepts what coercion makes of its value. Where coercion
reads the declared schemas as they are judged it makes nothing else of them, so the request is also
handed back the same.
-/

namespace ApiContract

/-! ## What is declared ascends -/

namespace Synthesis

variable {c : Contract} {route : String} {x y : Declared}

/-- Whether the names that are declared ascend in each location. -/
def Declared.Ascending (x : Declared) : Prop := ∀ l, (x.locations.get l).properties.Ascending

theorem ascending_addRaw {raw : Json} (h : addRaw c route x raw = .ok y) (hx : x.Ascending) :
    y.Ascending := by
  obtain ⟨v, -, h⟩ := Except.bind_eq_ok_iff.mp h
  obtain ⟨d, -, h⟩ := Except.bind_eq_ok_iff.mp h
  obtain ⟨location, source, rs, -, -, -, rfl⟩ := addParameter_eq_ok h
  intro l
  rw [PerLocation.get_modify]
  split
  · exact (hx l).insert _ _
  · exact hx l

end Synthesis

theorem RequestSchema.ascending_properties {c : Contract} {route : Route}
    {contentType : ContentType} {schema : RequestSchema}
    (h : synthesize c route contentType = .ok schema) (l : Location) :
    (schema.location l).properties.Ascending := by
  obtain ⟨declared, hdeclared, h⟩ := Except.bind_eq_ok_iff.mp h
  obtain ⟨⟨body, bodyRequired⟩, -, h⟩ := Except.bind_eq_ok_iff.mp h
  obtain rfl := Except.ok.inj h
  have hnone : Synthesis.Declared.none.Ascending := by
    intro l
    cases l <;> exact List.Pairwise.nil
  exact Except.foldlM_invariant (fun _ _ _ => Synthesis.ascending_addRaw) hdeclared hnone l

/-- Without a store the plan of a request is built for its route. -/
theorem RequestValidator.build_of_matching? {x : RequestValidator} {store : Store RequestPlan}
    {r : Request} {m : Matching} (hstore : store.enabled = false)
    (h : x.matching? store r = some m) :
    RequestPlan.build x.contract x.compiler m.route (ContentType.ofHeaders r.headers) =
      .ok m.plan := by
  unfold matching? at h
  split at h
  · rw [findPlan_of_disabled hstore] at h
    split at h
    · next plan store' hbuilt =>
      obtain rfl := Option.some.inj h
      exact congrArg Prod.fst hbuilt
    · cases h
  · cases h

namespace Validator

variable {x : Validator} {s : Stores} {r : Request} {m : Matching}

theorem build_of_matching? (hstore : s.requests.enabled = false) (h : x.matching? s r = some m) :
    RequestPlan.build x.contract x.compiler m.route (ContentType.ofHeaders r.headers) =
      .ok m.plan := by
  unfold matching? at h
  split at h
  · exact RequestValidator.build_of_matching? hstore h
  · cases h

/-- A validator with the switch for coercion set. -/
def coercing (x : Validator) (coerce : Bool) : Validator :=
  { x with config := { x.config with coerceTypes := coerce } }

/-! ## Two settings of the switch -/

/-- What coercion makes of the values that are judged without it. -/
theorem get?_judged_coercing (l : Location) (name : String) :
    (((x.coercing true).judged m r).get l).get? name =
      ((((x.coercing false).judged m r).get l).get? name).map
        (Coercion.member x.contract (m.plan.schema.location l).properties name) := by
  have hjudged : (x.coercing true).judged m r = .zipWith
      (fun values declared => Coercion.members x.contract values declared.properties)
      ((x.coercing false).judged m r) m.plan.schema.locations := rfl
  rw [hjudged, PerLocation.get_zipWith, Coercion.get?_members]
  rfl

/-- Whether coercion leaves the declared values as they are. -/
def LeavesValues (x : Validator) (m : Matching) (r : Request) : Prop :=
  ∀ l name declared v, (m.plan.schema.location l).properties.get? name = some declared →
    (((x.coercing false).judged m r).get l).get? name = some v →
      Coercion.value x.contract v declared = v

/-- Then the same values are judged: a name that is not declared is not coerced at all. -/
theorem get?_judged_coercing_of_leavesValues (h : x.LeavesValues m r) (l : Location)
    (name : String) :
    (((x.coercing true).judged m r).get l).get? name =
      (((x.coercing false).judged m r).get l).get? name := by
  rw [get?_judged_coercing]
  cases hv : (((x.coercing false).judged m r).get l).get? name with
  | none => rfl
  | some v =>
    rw [Option.map_some, Coercion.member]
    cases hdeclared : (m.plan.schema.location l).properties.get? name with
    | none => rfl
    | some declared => exact congrArg some (h l name declared v hdeclared hv)

/-- Whether each declared schema accepts, within the document of all of them, what coercion makes of
its value. -/
def AcceptsCoerced (x : Validator) (m : Matching) (r : Request) : Prop :=
  ∀ l name declared v, (m.plan.schema.location l).properties.get? name = some declared →
    (((x.coercing false).judged m r).get l).get? name = some v →
      x.compiler.AcceptsWithin m.plan.schema.toSchema declared m.route.template
        (Coercion.value x.contract v declared)

/-- What a document asks of values, once it is met without coercion. -/
theorem satisfiedWithin_coercing_iff {body : Option Json}
    (hascending : ∀ l, (m.plan.schema.location l).properties.Ascending)
    (h : m.plan.schema.SatisfiedWithin x.compiler m.route.template
      ((x.coercing false).judged m r) body) :
    m.plan.schema.SatisfiedWithin x.compiler m.route.template ((x.coercing true).judged m r) body ↔
      x.AcceptsCoerced m r := by
  have hmember : ∀ {l name declared} (v : Json),
      (m.plan.schema.location l).properties.get? name = some declared →
        Coercion.member x.contract (m.plan.schema.location l).properties name v =
          Coercion.value x.contract v declared := by
    intro l name declared v hdeclared
    rw [Coercion.member, hdeclared]
  constructor
  · intro hs l name declared v hdeclared hv
    refine hs.declared l (name, declared) (Assoc.mem_of_get? hdeclared) _ ?_
    rw [get?_judged_coercing, hv, Option.map_some, hmember v hdeclared]
  · intro hcoerced
    refine ⟨fun l name hname => ?_, fun l d hd v hv => ?_, h.accepted, h.present⟩
    · have hthere := h.required l name hname
      rw [Assoc.contains_eq] at hthere ⊢
      rw [get?_judged_coercing, Option.isSome_map]
      exact hthere
    · have hdeclared := (hascending l).get?_of_mem hd
      rw [get?_judged_coercing] at hv
      obtain ⟨w, hw, rfl⟩ := Option.map_eq_some_iff.mp hv
      rw [hmember w hdeclared]
      exact hcoerced l d.1 d.2 w hdeclared hw

/-- What is accepted without coercion and read alike is left. -/
theorem leavesValues_of_readsAlike {body : Option Json}
    (hcompile : x.compiler.compile m.plan.schema.toSchema m.route.template = .ok m.plan.validator)
    (h : m.plan.schema.SatisfiedWithin x.compiler m.route.template
      ((x.coercing false).judged m r) body)
    (halike : ∀ l name declared, (m.plan.schema.location l).properties.get? name = some declared →
      Coercion.ReadsAlikeThroughout x.contract x.compiler m.plan.schema.toSchema declared) :
    x.LeavesValues m r := by
  intro l name declared v hdeclared hv
  have hmem := Assoc.mem_of_get? hdeclared
  exact Coercion.value_eq_self hcompile (RequestSchema.normalize_toSchema _)
    (RequestSchema.inside_parameter hcompile hmem) (halike l name declared hdeclared)
    (h.declared l _ hmem v hv)

end Validator

namespace RequestValidator

/-! ## Writing back -/

theorem overwrite_congr {judged judged' : Assoc Json}
    (h : ∀ name, judged.get? name = judged'.get? name) (declared : LocationSchema)
    (host : Assoc Json) : overwrite declared judged host = overwrite declared judged' host := by
  have hone : overwriteOne judged = overwriteOne judged' := by
    funext host name
    unfold overwriteOne
    rw [h]
  unfold overwrite
  rw [hone]

/-- What is written back are the values under the names. -/
theorem writeBack_congr {judged judged' : PerLocation (Assoc Json)}
    (h : ∀ l name, (judged.get l).get? name = (judged'.get l).get? name) (schema : RequestSchema)
    (r : Request) : writeBack schema judged r = writeBack schema judged' r := by
  have hcookies : ∀ (host : Assoc Json) (name : String),
      Assoc.get? (judged.cookies.filter fun e => host.contains e.1) name =
        Assoc.get? (judged'.cookies.filter fun e => host.contains e.1) name := by
    intro host name
    have hcookie : judged.cookies.get? name = judged'.cookies.get? name := h .cookie name
    rw [Assoc.get?_filter_key, Assoc.get?_filter_key, hcookie]
  have hquery : ∀ name, judged.query.get? name = judged'.query.get? name := h .query
  have hheaders : ∀ name, judged.headers.get? name = judged'.headers.get? name := h .header
  have hparams : ∀ name, judged.params.get? name = judged'.params.get? name := h .path
  unfold writeBack
  simp only [overwrite_congr hquery, overwrite_congr hheaders, overwrite_congr hparams,
    overwrite_congr (hcookies _)]

end RequestValidator

namespace Validator

variable {x : Validator} {s : Stores} {r : Request}

/--
**When coercion rejects what is accepted without it.** Nothing is stored, and a request is validated
without coercion. With coercion it is validated as well exactly if each declared schema accepts what
coercion makes of its value. Where coercion reads the declared schemas as they are judged they do,
and the request is handed back the same.
-/
theorem validateRequest_coercing_iff (x : Validator) (s : Stores) (r : Request) {template : String}
    (hstore : s.requests.enabled = false)
    (h : ((x.coercing false).validateRequest s r).1 = .ok (.validated template)) :
    ∃ m, x.matching? s r = some m ∧ m.route.template = template ∧
      (((x.coercing true).validateRequest s r).1 = .ok (.validated template) ↔
        x.AcceptsCoerced m r) ∧
      ((∀ l name declared, (m.plan.schema.location l).properties.get? name = some declared →
          Coercion.ReadsAlikeThroughout x.contract x.compiler m.plan.schema.toSchema declared) →
        ((x.coercing true).validateRequest s r).1 = .ok (.validated template) ∧
          ((x.coercing true).validateRequest s r).2.1 =
            ((x.coercing false).validateRequest s r).2.1) := by
  obtain ⟨m, hm, rfl, -, hback⟩ := exists_matching_of_validated h
  have hm' : (x.coercing true).matching? s r = some m := hm
  have hbuild := build_of_matching? hstore hm
  have hcompile : x.compiler.compile m.plan.schema.toSchema m.route.template =
      .ok m.plan.validator := RequestPlan.compile_of_build hbuild
  have hascending := RequestSchema.ascending_properties (RequestPlan.build_eq_ok_iff.mp hbuild).1
  obtain ⟨hrefused, hsatisfied⟩ := (validateRequest_eq_validated_iff hm).mp h
  rw [Schema.Compiled.problems_eq_nil_iff,
    RequestSchema.accepts_instanceOf_iff_within hcompile] at hsatisfied
  have hiff : ((x.coercing true).validateRequest s r).1 = .ok (.validated m.route.template) ↔
      x.AcceptsCoerced m r := by
    rw [validateRequest_eq_validated_iff hm', Schema.Compiled.problems_eq_nil_iff,
      RequestSchema.accepts_instanceOf_iff_within hcompile,
      satisfiedWithin_coercing_iff hascending hsatisfied]
    exact and_iff_right hrefused
  refine ⟨m, hm, rfl, hiff, fun halike => ?_⟩
  have hleaves := leavesValues_of_readsAlike hcompile hsatisfied halike
  have hvalidated : ((x.coercing true).validateRequest s r).1 =
      .ok (.validated m.route.template) := by
    refine hiff.mpr fun l name declared v hdeclared hv => ?_
    rw [hleaves l name declared v hdeclared hv]
    exact hsatisfied.declared l _ (Assoc.mem_of_get? hdeclared) v hv
  obtain ⟨m', hm'', -, -, hback'⟩ := exists_matching_of_validated hvalidated
  obtain rfl : m = m' := Option.some.inj (hm'.symm.trans hm'')
  refine ⟨hvalidated, ?_⟩
  rw [hback, hback']
  exact RequestValidator.writeBack_congr (get?_judged_coercing_of_leavesValues hleaves) _ _

end Validator

/-! ## Nullable texts -/

/-- A contract with a component `Name`, and with `GET /a` whose query may hold `n` of a schema. -/
def naming (component schema : Json) : Contract where
  root := [
    ("components", .object [("schemas", .object [("Name", component)])]),
    ("openapi", .string "3.0.3"),
    ("paths", .object [("/a", .object [("get", .object [
      ("parameters", .array [.object [
        ("in", .string "query"),
        ("name", .string "n"),
        ("schema", schema)]]),
      ("responses", .object [])])])])]
  version := "3.0.3"

/-- Its validator, which stores nothing. -/
def namingValidator (component schema : Json) : Validator :=
  ⟨naming component schema, .ofRoutes ((naming component schema).routes.toOption.getD []),
    { schemaCache := false }⟩

def textSchema : Json := .object [("type", .string "string")]

def nullableTextSchema : Json := .object [("nullable", .bool true), ("type", .string "string")]

def toName : Json := .object [("$ref", .string "#/components/schemas/Name")]

/-- An array of what the component is. -/
def namesSchema : Json := .object [("items", toName), ("type", .string "array")]

/-- What the component is, or null: the kinds are left to the component. -/
def nullableNameSchema : Json := .object [("allOf", .array [toName]), ("nullable", .bool true)]

/-- An array of texts or nulls. -/
def namesValidator : Validator := namingValidator nullableTextSchema namesSchema

/-- A text or null. -/
def nullableNameValidator : Validator := namingValidator textSchema nullableNameSchema

/-- Where the reference of the items leads to the component, all is read alike. -/
theorem readsAlikeThroughout_names {whole : Json}
    (h : Schema.resolveReference (namesValidator.compiler.document whole)
      "#/components/schemas/Name" = .ok (Schema.normalize nullableTextSchema)) :
    Coercion.ReadsAlikeThroughout namesValidator.contract namesValidator.compiler whole
      namesSchema := by
  have hname : Coercion.ReadsAlikeThroughout namesValidator.contract namesValidator.compiler whole
      toName := by
    refine Coercion.readsAlikeThroughout_iff.mpr fun resolved hresolve => ?_
    obtain rfl : nullableTextSchema = resolved := Except.ok.inj hresolve
    refine ⟨⟨fun t ht => ?_, fun _ => rfl, fun _ => rfl, nofun⟩, nofun⟩
    obtain rfl : "#/components/schemas/Name" = t := Option.some.inj ht
    exact h
  refine Coercion.readsAlikeThroughout_iff.mpr fun resolved hresolve => ?_
  obtain rfl : namesSchema = resolved := Except.ok.inj hresolve
  refine ⟨⟨nofun, fun _ => rfl, fun _ => rfl, nofun⟩, fun each hitems => ?_⟩
  obtain rfl : toName = each := Option.some.inj hitems
  exact hname

set_option maxRecDepth 10000 in
/-- Texts that may be null as well are left as they are: the kinds name both. -/
theorem validateRequest_coercing_iff_names :
    ((namesValidator.coercing false).validateRequest namesValidator.stores
        (.ofTarget Method.get "/a?n=&n=x")).1 = .ok (.validated "/a") ∧
      ((namesValidator.coercing true).validateRequest namesValidator.stores
        (.ofTarget Method.get "/a?n=&n=x")).1 = .ok (.validated "/a") := by
  have hplain : ((namesValidator.coercing false).validateRequest namesValidator.stores
      (.ofTarget Method.get "/a?n=&n=x")).1 = .ok (.validated "/a") := by decide +kernel
  obtain ⟨m, hm, -, -, halike⟩ :=
    Validator.validateRequest_coercing_iff namesValidator namesValidator.stores _ rfl hplain
  have h : (namesValidator.matching? namesValidator.stores
      (.ofTarget Method.get "/a?n=&n=x")).map (fun m => (m.plan.schema.locations,
        Schema.resolveReference (namesValidator.compiler.document m.plan.schema.toSchema)
          "#/components/schemas/Name")) =
      some (⟨{ properties := [("n", namesSchema)] }, {}, {}, {}⟩,
        .ok (Schema.normalize nullableTextSchema)) := by decide +kernel
  rw [hm, Option.map_some, Option.some.injEq, Prod.mk.injEq] at h
  obtain ⟨hlocations, htarget⟩ := h
  refine ⟨hplain, (halike fun l name declared hdeclared => ?_).1⟩
  rw [RequestSchema.location, hlocations] at hdeclared
  have hmem := Assoc.mem_of_get? hdeclared
  cases l with
  | query =>
    obtain ⟨-, rfl⟩ := Prod.mk.inj (List.mem_singleton.mp hmem)
    exact readsAlikeThroughout_names htarget
  | _ => exact absurd hmem List.not_mem_nil

set_option maxRecDepth 10000 in
/-- An empty text is made null where the kinds are left to a branch, and the branch refuses it. -/
theorem validateRequest_coercing_rejects :
    Validator.ofContract (naming textSchema nullableNameSchema) { schemaCache := false } =
        .ok nullableNameValidator ∧
      ((nullableNameValidator.coercing false).validateRequest nullableNameValidator.stores
        (.ofTarget Method.get "/a?n=")).1 = .ok (.validated "/a") ∧
      ((nullableNameValidator.coercing true).validateRequest nullableNameValidator.stores
        (.ofTarget Method.get "/a?n=")).1 ≠ .ok (.validated "/a") :=
  ⟨rfl, by decide +kernel, by decide +kernel⟩

end ApiContract
