import ApiContract.Proofs.Contract.Agreeing
import ApiContract.Proofs.Json.Ordered
import ApiContract.Proofs.Request.SharedBucket
/-!
# The schema of a body

The body schema of a request is the one that is declared for its content type, or what that refers
to, and it does not require what is read-only. A property may be read-only by its own schema or by
what that refers to. Where it says so beside its reference the two are not told apart as the dialect
of the contract does, and such a property stays required.
-/

namespace ApiContract

namespace Synthesis

open Contract (referenceOf?)

variable {c : Contract} {r : Route} {t : ContentType} {schema v w : Json}

/-! ## Declared and resolved -/

/-- The schema that a route declares for bodies of a content type, if it declares any. -/
def declaredBody? (c : Contract) (r : Route) (t : ContentType) : Option Json := do
  let content ← content? c r
  let media ← (← (mediaOf r.template content t).toOption)
  media.member? "schema"

/-- The body of a synthesized schema is the declared one, relaxed. -/
theorem relaxed_of_synthesize {x : RequestSchema} (hx : RequestSchema.synthesize c r t = .ok x)
    (h : declaredBody? c r t = some schema) : relaxed c schema = .ok x.body := by
  obtain ⟨content, hcontent, h⟩ := Option.bind_eq_some_iff.mp h
  obtain ⟨found, hfound, h⟩ := Option.bind_eq_some_iff.mp h
  obtain ⟨media, rfl, hmember⟩ := Option.bind_eq_some_iff.mp h
  obtain ⟨declared, -, hx⟩ := Except.bind_eq_ok_iff.mp hx
  obtain ⟨⟨body, bodyRequired⟩, hbody, hx⟩ := Except.bind_eq_ok_iff.mp hx
  obtain rfl := Except.ok.inj hx
  rw [body_of_content? hcontent, bodySchema_eq_bind, Except.toOption_eq_some_iff.mp hfound] at hbody
  simp only [Except.bind, Option.bind_some, hmember] at hbody
  cases hrelaxed : relaxed c schema with
  | error f =>
    rw [hrelaxed] at hbody
    cases hbody
  | ok v =>
    rw [hrelaxed] at hbody
    exact congrArg Except.ok (Prod.mk.inj (Except.ok.inj hbody)).1

/-- What a declared body schema is read as: itself, or a schema with properties that it refers to. -/
inductive Resolves (c : Contract) (schema : Json) : Json → Prop where
  | inline (h : referenceOf? schema = none) : Resolves c schema schema
  | reference {target : String} {v : Json} (h : referenceOf? schema = some target)
      (hv : c.resolveReference target = .ok v) (hprops : (v.member? "properties").isSome = true) :
      Resolves c schema v

/-- Nothing is dropped from a schema without properties. -/
theorem withoutReadOnly_of_other
    (h : ∀ properties, v.member? "properties" ≠ some (.object properties)) :
    withoutReadOnly c v = v := by
  cases v with
  | object members =>
    simp only [withoutReadOnly]
    split
    · next properties hproperties => exact absurd hproperties (h properties)
    · rfl
  | _ => rfl

/-- A body is relaxed as what it is read as. -/
theorem relaxed_of_resolves (h : Resolves c schema v) :
    relaxed c schema = .ok (withoutReadOnly c v) := by
  unfold relaxed
  cases h with
  | inline h =>
    have hresolve : c.resolve schema = .ok schema := by rw [Contract.resolve, h]
    split
    · rw [hresolve]
      show Except.ok (if (schema.member? "properties").isSome = true then _ else _) = _
      split
      · rfl
      · next hno =>
        rw [withoutReadOnly_of_other fun properties hproperties => hno (by rw [hproperties]; rfl)]
    · rfl
  | @reference target _ h hv hprops =>
    have href : (schema.member? "$ref").isSome = true := by
      obtain ⟨text, htext, -⟩ := Option.bind_eq_some_iff.mp h
      rw [htext]
      rfl
    have hresolve : c.resolve schema = .ok v := by rw [Contract.resolve, h, ← hv]
    rw [if_pos href, hresolve]
    exact congrArg Except.ok (if_pos hprops)

/-! ## What is marked and what is read -/

/-- Whether a schema object says that it is read-only. -/
def saysReadOnly (v : Json) : Bool := (v.member? "readOnly").bind Json.asBool? = some true

/-- Whether a property is marked read-only: by its own schema, where the dialect gives a meaning to
what stands beside a reference, or by what its reference leads to. -/
def isMarked (c : Contract) (property : Json) : Bool :=
  (saysReadOnly property && (c.isRecent || (referenceOf? property).isNone)) ||
    (referenceOf? property).any fun target => (c.resolveReference target).toOption.any saysReadOnly

/-- Whether a property is not read as it is marked. It says beside its reference that it is
read-only, and what the reference leads to does not, or, in a dialect that ignores what it says, there
is nothing that it leads to. -/
def isMisread (c : Contract) (property : Json) : Bool :=
  saysReadOnly property && (referenceOf? property).any fun target =>
    if c.isRecent then (c.resolveReference target).toOption.any fun v => !saysReadOnly v
    else (c.resolveReference target).toOption.isNone

theorem isReadOnly_eq_isMarked_iff (property : Json) :
    isReadOnly c property = isMarked c property ↔ isMisread c property = false := by
  have hread : isReadOnly c property = saysReadOnly (c.resolveOr property) := rfl
  rw [hread, Contract.resolveOr, Contract.resolve, isMarked, isMisread]
  cases referenceOf? property with
  | none => simp
  | some target =>
    cases hfound : c.resolveReference target <;> cases hsays : saysReadOnly property <;>
      cases c.isRecent <;> simp [Except.toOption, hfound, hsays]

/-! ## Required names -/

/-- Whether an entry of the required names stays when names of a kind are dropped. -/
def stays (dropped : String → Bool) : Json → Bool
  | .string name => !dropped name
  | _ => true

/-- The same stays when the same of the names that are listed are dropped. -/
theorem filter_stays_eq_iff {entries : List Json} {dropped dropped' : String → Bool} :
    entries.filter (stays dropped) = entries.filter (stays dropped') ↔
      ∀ name, Json.string name ∈ entries → dropped name = dropped' name := by
  constructor
  · intro h name hname
    have hmem : ∀ d : String → Bool,
        Json.string name ∈ entries.filter (stays d) ↔ d name = false := by
      intro d
      simp [List.mem_filter, hname, stays]
    rw [Bool.eq_iff_iff, ← Bool.not_eq_false, ← Bool.not_eq_false, ← hmem, ← hmem, h]
  · intro h
    refine List.filter_congr fun e he => ?_
    cases e with
    | string name => exact congrArg (!·) (h name he)
    | _ => rfl

/-- A list of required names without some; no list is left without names. -/
def requiredBut (dropped : String → Bool) (entries : List Json) : Option Json :=
  if (entries.filter (stays dropped)).isEmpty then none
  else some (.array (entries.filter (stays dropped)))

theorem requiredBut_eq_iff {entries : List Json} {dropped dropped' : String → Bool} :
    requiredBut dropped entries = requiredBut dropped' entries ↔
      entries.filter (stays dropped) = entries.filter (stays dropped') := by
  unfold requiredBut
  constructor
  · intro h
    split at h <;> split at h
    · next hempty hempty' =>
      rw [List.isEmpty_iff.mp hempty, List.isEmpty_iff.mp hempty']
    · cases h
    · cases h
    · exact Json.array.inj (Option.some.inj h)
  · intro h
    rw [h]

theorem dropRequired_of_array {names : List String} {members : Assoc Json} {entries : List Json}
    (h : members.get? "required" = some (.array entries)) :
    dropRequired names members =
      if (entries.filter (stays names.contains)).isEmpty then members.erase "required"
      else members.insert "required" (.array (entries.filter (stays names.contains))) := by
  have hstays : stays names.contains = fun
      | .string s => !names.contains s
      | _ => true := by
    funext e
    cases e <;> rfl
  rw [hstays]
  unfold dropRequired
  split
  · next entries' h' =>
      obtain rfl : entries = entries' := Json.array.inj (Option.some.inj (h.symm.trans h'))
      rfl
  · next h' => exact absurd h (h' entries)

theorem dropRequired_of_other {names : List String} {members : Assoc Json}
    (h : ∀ entries, members.get? "required" ≠ some (.array entries)) :
    dropRequired names members = members := by
  unfold dropRequired
  split
  · next entries hentries => exact absurd hentries (h entries)
  · rfl

/-- Whether a name is that of a property of a kind. -/
def namesProperty (v : Json) (kind : Json → Bool) (name : String) : Bool :=
  match v.member? "properties" with
  | some (.object properties) => (Assoc.get? properties name).any kind
  | _ => false

/-- Whether one schema is another where names of a kind are not required: the other entries of the
required names stay in their order, no list is left without entries, and all else is the same. -/
structure RequiresBut (dropped : String → Bool) (v w : Json) : Prop where
  required : ∀ entries, v.member? "required" = some (.array entries) →
    w.member? "required" = requiredBut dropped entries
  rest : ∀ key, (key = "required" → ∀ entries, v.member? key ≠ some (.array entries)) →
    w.member? key = v.member? key
  shape : w = v ∨ ∃ members members', v = .object members ∧ w = .object members'

/-- No name of the kind is required. -/
theorem RequiresBut.not_mem {dropped : String → Bool} (h : RequiresBut dropped v w) {name : String}
    (hname : dropped name = true) {entries : List Json}
    (hentries : w.member? "required" = some (.array entries)) : .string name ∉ entries := by
  by_cases hlisted : ∃ listed, v.member? "required" = some (.array listed)
  · obtain ⟨listed, hlisted⟩ := hlisted
    rw [h.required listed hlisted, requiredBut] at hentries
    split at hentries
    · cases hentries
    · obtain rfl := Json.array.inj (Option.some.inj hentries)
      simp [List.mem_filter, stays, hname]
  · rw [h.rest "required" fun _ listed hv => hlisted ⟨listed, hv⟩] at hentries
    exact absurd ⟨entries, hentries⟩ hlisted

/-- Dropping the read-only properties drops the names of the properties that are read so. -/
theorem requiresBut_withoutReadOnly {members properties : Assoc Json}
    (hproperties : members.get? "properties" = some (.object properties))
    (hordered : properties.Ascending) :
    RequiresBut (namesProperty (.object members) (isReadOnly c)) (.object members)
      (withoutReadOnly c (.object members)) := by
  have hnames : (Assoc.keys (properties.filter fun e => isReadOnly c e.2)).contains =
      namesProperty (.object members) (isReadOnly c) := by
    funext name
    have hmember : Json.member? (.object members) "properties" = some (.object properties) :=
      hproperties
    rw [namesProperty, hmember, Bool.eq_iff_iff, List.contains_iff_mem, Option.any_eq_true,
      Assoc.keys, List.mem_map]
    constructor
    · rintro ⟨e, he, rfl⟩
      obtain ⟨he, hread⟩ := List.mem_filter.mp he
      exact ⟨e.2, hordered.get?_of_mem he, hread⟩
    · rintro ⟨p, hp, hread⟩
      exact ⟨(name, p), List.mem_filter.mpr ⟨Assoc.mem_of_get? hp, hread⟩, rfl⟩
  have hwithout : withoutReadOnly c (.object members) = .object (dropRequired
      (Assoc.keys (properties.filter fun e => isReadOnly c e.2)) members) := by
    simp only [withoutReadOnly, hproperties]
  rw [hwithout]
  refine ⟨fun entries hentries => ?_, fun key hkey => ?_, Or.inr ⟨_, _, rfl, rfl⟩⟩
  · show Assoc.get? (dropRequired _ members) "required" = _
    rw [dropRequired_of_array hentries, hnames, requiredBut]
    split
    · rw [Assoc.get?_erase, if_pos rfl]
    · rw [Assoc.get?_insert_self]
  · show Assoc.get? (dropRequired _ members) key = members.get? key
    by_cases hlisted : ∃ entries, members.get? "required" = some (.array entries)
    · obtain ⟨entries, hentries⟩ := hlisted
      have hne : "required" ≠ key := by
        rintro rfl
        exact hkey rfl entries hentries
      rw [dropRequired_of_array hentries]
      split
      · rw [Assoc.get?_erase, if_neg hne]
      · rw [Assoc.get?_insert_of_ne _ _ hne]
    · rw [dropRequired_of_other fun entries hentries => hlisted ⟨entries, hentries⟩]

/-! ## Bodies without read-only properties -/

/-- Whether the required properties of a schema are read as they are marked, and there is no list of
no names where there are no properties. -/
structure WellMarked (c : Contract) (v : Json) : Prop where
  read : ∀ entries properties, v.member? "required" = some (.array entries) →
    v.member? "properties" = some (.object properties) →
      ∀ e ∈ properties, Json.string e.1 ∈ entries → isMisread c e.2 = false
  listed : v.member? "required" = some (.array []) →
    ∃ properties, v.member? "properties" = some (.object properties)

/-- Names that are listed as required may be dropped for one reason or another, if it is the same. -/
theorem RequiresBut.iff_of {dropped dropped' : String → Bool} (h : RequiresBut dropped v w) :
    RequiresBut dropped' v w ↔ ∀ entries, v.member? "required" = some (.array entries) →
      ∀ name, Json.string name ∈ entries → dropped name = dropped' name := by
  constructor
  · intro h' entries hentries
    have heq := (h.required entries hentries).symm.trans (h'.required entries hentries)
    exact filter_stays_eq_iff.mp (requiredBut_eq_iff.mp heq)
  · intro heq
    refine ⟨fun entries hentries => ?_, h.rest, h.shape⟩
    rw [h.required entries hentries]
    exact requiredBut_eq_iff.mpr (filter_stays_eq_iff.mpr (heq entries hentries))

theorem namesProperty_of_member? {properties : Assoc Json} {kind : Json → Bool} {name : String}
    (h : v.member? "properties" = some (.object properties)) :
    namesProperty v kind name = (Assoc.get? properties name).any kind := by
  rw [namesProperty, h]

theorem requiredBut_eq_array_iff {dropped : String → Bool} (h : ∀ name, dropped name = false)
    {entries : List Json} : requiredBut dropped entries = some (.array entries) ↔ entries ≠ [] := by
  have hall : entries.filter (stays dropped) = entries :=
    List.filter_eq_self.mpr fun e _ => by cases e <;> simp [stays, h]
  rw [requiredBut, hall]
  cases entries <;> simp

/-- **Exactly the properties that are marked read-only are not required**, if they are read so. -/
theorem requiresBut_withoutReadOnly_iff (hordered : v.isOrdered = true) :
    RequiresBut (namesProperty v (isMarked c)) v (withoutReadOnly c v) ↔ WellMarked c v := by
  by_cases hproperties : ∃ properties, v.member? "properties" = some (.object properties)
  · obtain ⟨properties, hproperties⟩ := hproperties
    obtain ⟨members, rfl⟩ : ∃ members, v = .object members := by
      cases v with
      | object members => exact ⟨members, rfl⟩
      | _ => cases hproperties
    have hascending := (Json.isOrdered_object_iff.mp
      (Json.isOrdered_of_member? hordered hproperties)).1
    rw [(requiresBut_withoutReadOnly hproperties hascending).iff_of]
    simp only [namesProperty_of_member? hproperties]
    constructor
    · intro h
      refine ⟨fun entries ps hentries hps e he hlisted => ?_, fun _ => ⟨properties, hproperties⟩⟩
      obtain rfl := Json.object.inj (Option.some.inj (hproperties.symm.trans hps))
      have heq := h entries hentries e.1 hlisted
      rw [hascending.get?_of_mem he] at heq
      exact (isReadOnly_eq_isMarked_iff e.2).mp heq
    · intro h entries hentries name hname
      cases hp : Assoc.get? properties name with
      | none => rfl
      | some p =>
        exact (isReadOnly_eq_isMarked_iff p).mpr
          (h.read entries properties hentries hproperties _ (Assoc.mem_of_get? hp) hname)
  · -- nothing is dropped, and nothing is marked
    have hwithout : withoutReadOnly c v = v :=
      withoutReadOnly_of_other fun ps hps => hproperties ⟨ps, hps⟩
    have hnone : ∀ name, namesProperty v (isMarked c) name = false := by
      intro name
      unfold namesProperty
      split
      · next ps hps => exact absurd ⟨ps, hps⟩ hproperties
      · rfl
    rw [hwithout]
    constructor
    · intro h
      refine ⟨fun _ ps _ hps => absurd ⟨ps, hps⟩ hproperties, fun hempty => ?_⟩
      have hkept := h.required [] hempty
      rw [hempty] at hkept
      exact absurd rfl ((requiredBut_eq_array_iff hnone).mp hkept.symm)
    · intro h
      refine ⟨fun entries hentries => ?_, fun _ _ => rfl, Or.inl rfl⟩
      rw [hentries, eq_comm, requiredBut_eq_array_iff hnone]
      rintro rfl
      exact hproperties (h.listed hentries)

end Synthesis

namespace RequestSchema

open Synthesis

/-- **A synthesized body does not require the properties that are marked read-only, and is otherwise
the resolved schema**, exactly if the properties that are required are read as they are marked. -/
theorem body_requiresBut_iff {c : Contract} {r : Route} {t : ContentType} {x : RequestSchema}
    {schema resolved : Json} (hx : synthesize c r t = .ok x)
    (hschema : declaredBody? c r t = some schema) (hresolved : Resolves c schema resolved)
    (hordered : resolved.isOrdered = true) :
    RequiresBut (namesProperty resolved (isMarked c)) resolved x.body ↔ WellMarked c resolved := by
  have hbody := (relaxed_of_resolves hresolved).symm.trans (relaxed_of_synthesize hx hschema)
  rw [← Except.ok.inj hbody]
  exact requiresBut_withoutReadOnly_iff hordered

/-- A schema of pets, which must have an id and a name. -/
def petSchema (id : Json) : Json :=
  .object [
    ("properties", .object [("id", id), ("name", .object [("type", .string "string")])]),
    ("required", .array [.string "id", .string "name"])]

/-- A contract with `POST /pets`, whose bodies are pets by reference. -/
def petStore (version : String) (id : Json) : Contract where
  root := [
    ("components", .object [("schemas", .object [
      ("Id", .object [("type", .string "string")]), ("Pet", petSchema id)])]),
    ("openapi", .string version),
    ("paths", .object [("/pets", .object [("post", .object [
      ("requestBody", .object [("content", .object [("application/json", .object [
        ("schema", .object [("$ref", .string "#/components/schemas/Pet")])])])]),
      ("responses", .object [])])])])]
  version := version

/-- An id that is read-only is not required. -/
theorem body_requiresBut_iff_pet :
    let pet := petSchema (.object [("readOnly", .bool true)])
    let c := petStore "3.0.3" (.object [("readOnly", .bool true)])
    ∃ r x, c.routes = .ok [r] ∧ synthesize c r none = .ok x ∧
      RequiresBut (namesProperty pet (isMarked c)) pet x.body ∧
      x.body.member? "required" = some (.array [.string "name"]) := by
  intro pet c
  have hschema : Resolves c (.object [("$ref", .string "#/components/schemas/Pet")]) pet :=
    .reference rfl rfl rfl
  obtain ⟨r, x, hr, hx, hdeclared, hrequired⟩ : ∃ r x, c.routes = .ok [r] ∧
      synthesize c r none = .ok x ∧
      declaredBody? c r none = some (.object [("$ref", .string "#/components/schemas/Pet")]) ∧
      x.body.member? "required" = some (.array [.string "name"]) :=
    ⟨_, _, rfl, rfl, rfl, rfl⟩
  refine ⟨r, x, hr, hx, (body_requiresBut_iff hx hdeclared hschema (by decide +kernel)).mpr
    ⟨fun entries properties _ hproperties e he _ => ?_, nofun⟩, hrequired⟩
  obtain rfl := Json.object.inj (Option.some.inj hproperties)
  simp only [List.mem_cons, List.not_mem_nil, or_false] at he
  rcases he with rfl | rfl <;> decide +kernel

/-- What stands beside a reference is not read, though the dialect gives it a meaning. -/
theorem body_requires_marked :
    let id := Json.object [("$ref", .string "#/components/schemas/Id"), ("readOnly", .bool true)]
    let c := petStore "3.1.0" id
    ∃ r x, c.routes = .ok [r] ∧ synthesize c r none = .ok x ∧
      declaredBody? c r none = some (.object [("$ref", .string "#/components/schemas/Pet")]) ∧
      Resolves c (.object [("$ref", .string "#/components/schemas/Pet")]) (petSchema id) ∧
      isMarked c id = true ∧
      x.body.member? "required" = some (.array [.string "id", .string "name"]) ∧
      ¬ RequiresBut (namesProperty (petSchema id) (isMarked c)) (petSchema id) x.body := by
  intro id c
  have hmarked : namesProperty (petSchema id) (isMarked c) "id" = true := by decide +kernel
  refine ⟨_, _, rfl, rfl, rfl, .reference rfl rfl rfl, by decide +kernel, rfl, fun h => ?_⟩
  exact h.not_mem hmarked rfl List.mem_cons_self

end RequestSchema

end ApiContract
