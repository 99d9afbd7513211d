import ApiContract.Proofs.Request.BodySchema
import ApiContract.Proofs.Schema.Copying
/-!
# What a body schema means

A body schema that is a reference to a schema with properties is replaced by a copy of that schema.
The copy says all that the schema says, but nothing of what stands beside the reference. The older
dialect gives this no meaning, but in the newer one it is lost.
-/

namespace ApiContract

namespace Synthesis

open Contract (referenceOf?)
open Schema

variable {c : Contract} {schema v : Json}

/-! ## Required names that are kept -/

/-- Whether no required property of a schema is read as read-only. -/
def KeepsRequired (c : Contract) (v : Json) : Prop :=
  ∀ entries properties, v.member? "required" = some (.array entries) →
    v.member? "properties" = some (.object properties) →
      ∀ e ∈ properties, Json.string e.1 ∈ entries → isReadOnly c e.2 = false

theorem KeepsRequired.filter_stays {members properties : Assoc Json} {entries : List Json}
    (h : KeepsRequired c (.object members)) (hentries : members.get? "required" = some (.array entries))
    (hproperties : members.get? "properties" = some (.object properties)) :
    entries.filter (stays (Assoc.keys (properties.filter fun e => isReadOnly c e.2)).contains) =
      entries := by
  refine List.filter_eq_self.mpr fun entry hentry => ?_
  cases entry with
  | string name =>
    rw [stays, Bool.not_eq_true', Bool.eq_false_iff]
    intro hcontains
    obtain ⟨e, he, rfl⟩ := List.mem_map.mp (List.contains_iff_mem.mp hcontains)
    obtain ⟨he, hread⟩ := List.mem_filter.mp he
    rw [h entries properties hentries hproperties e he hentry] at hread
    cases hread
  | _ => rfl

/-- Such a schema stays as it is, or loses an empty list of required names. -/
theorem withoutReadOnly_cases (hordered : v.isOrdered = true) (hkept : KeepsRequired c v) :
    withoutReadOnly c v = v ∨ ∃ members, v = .object members ∧ RequiresNothing members ∧
      withoutReadOnly c v = .object (Assoc.erase members "required") := by
  by_cases hproperties : ∃ properties, v.member? "properties" = some (.object properties)
  · obtain ⟨properties, hproperties⟩ := hproperties
    cases v with
    | object members =>
      have hascending := (Json.isOrdered_object_iff.mp hordered).1
      have hmember : Assoc.get? members "properties" = some (.object properties) := hproperties
      simp only [withoutReadOnly, hmember, Json.object.injEq]
      by_cases hlisted : ∃ entries, Assoc.get? members "required" = some (.array entries)
      · obtain ⟨entries, hentries⟩ := hlisted
        rw [dropRequired_of_array hentries, hkept.filter_stays hentries hmember]
        split
        · next hempty =>
          refine Or.inr ⟨members, rfl, fun e he hname => ?_, rfl⟩
          have he' := hascending.get?_of_mem he
          rw [hname, hentries, List.isEmpty_iff.mp hempty] at he'
          exact (Option.some.inj he').symm
        · refine Or.inl ((hascending.insert _ _).ext hascending fun key => ?_)
          rw [Assoc.get?_insert]
          split
          · next hkey => rw [← hkey, hentries]
          · rfl
      · exact Or.inl (dropRequired_of_other fun entries hentries => hlisted ⟨entries, hentries⟩)
    | _ => cases hproperties
  · exact Or.inl (withoutReadOnly_of_other fun ps hps => hproperties ⟨ps, hps⟩)

/-- It is read alike. -/
theorem counterpart_withoutReadOnly (hordered : v.isOrdered = true) (hkept : KeepsRequired c v)
    {dialect : Dialect} {formats : Bool} :
    Counterpart dialect formats Compiled.JudgedSame (normalize v) (normalize (withoutReadOnly c v)) := by
  rcases withoutReadOnly_cases hordered hkept with heq | ⟨members, rfl, hnothing, heq⟩
  · rw [heq]
    exact ⟨rfl, fun _ _ _ => rfl⟩
  · rw [heq, normalize_erase _ (by decide), Schema.normalize]
    exact counterpart_erase_required hnothing.normalize

/-- It accepts the same where it stands. -/
theorem accepts_withoutReadOnly_iff (hordered : v.isOrdered = true) (hkept : KeepsRequired c v)
    {x : Compiler} {route : String} {compiled : Compiled} (hc : x.compile v route = .ok compiled)
    (w : Json) : x.Accepts (withoutReadOnly c v) route w ↔ x.Accepts v route w := by
  rcases withoutReadOnly_cases hordered hkept with heq | ⟨members, rfl, hnothing, heq⟩
  · rw [heq]
  · have hcompiled := hc
    rw [Compiler.compile_eq_ok_iff, Schema.normalize] at hcompiled
    obtain ⟨compiled', hcompiled', hsame⟩ :=
      exists_compile_unrequired hnothing.normalize hcompiled
    have hc' : x.compile (.object (Assoc.erase members "required")) route = .ok compiled' := by
      rw [Compiler.compile_eq_ok_iff, normalize_erase _ (by decide)]
      exact hcompiled'
    rw [heq]
    simp only [Compiler.Accepts, hc, hc', Except.ok.injEq, exists_eq_left', hsame]

/-- A relaxed schema is the schema itself without its read-only properties, or a reference that
stays, or what the reference is read as without the read-only properties. -/
theorem relaxed_cases {body : Json} (h : relaxed c schema = .ok body) :
    (referenceOf? schema = none ∧ body = withoutReadOnly c schema) ∨
      ∃ target, referenceOf? schema = some target ∧
        (body = schema ∨ ∃ v, Resolves c schema v ∧ body = withoutReadOnly c v) := by
  cases href : referenceOf? schema with
  | none =>
    rw [relaxed_of_resolves (.inline href), Except.ok.injEq] at h
    exact Or.inl ⟨rfl, h.symm⟩
  | some target =>
    refine Or.inr ⟨target, rfl, ?_⟩
    rw [relaxed, Json.bind_asString?_eq_some.mp href, Option.isSome_some, if_pos rfl,
      Contract.resolve, href] at h
    obtain ⟨v, hv, h⟩ := Except.bind_eq_ok_iff.mp h
    split at h
    · next hproperties =>
      exact Or.inr ⟨v, .reference href hv hproperties, (Except.ok.inj h).symm⟩
    · exact Or.inl (Except.ok.inj h).symm

end Synthesis

namespace RequestSchema

open Contract (referenceOf?)
open Synthesis

/-- **A synthesized body accepts what the declared schema accepts, exactly if nothing is lost that
stands beside its reference.** In the older dialect nothing is. -/
theorem body_accepts_iff {c : Contract} {r : Route} {t : ContentType} {y : RequestSchema}
    {schema : Json} (hy : synthesize c r t = .ok y) (hschema : declaredBody? c r t = some schema)
    {formats : Bool} {route : String} {compiled : Schema.Compiled}
    (hc : (Compiler.ofContract c formats).compile schema route = .ok compiled)
    (hordered : ∀ v, Resolves c schema v → v.isOrdered = true)
    (hkept : ∀ v, Resolves c schema v → KeepsRequired c v)
    (hcopy : ∀ target v, referenceOf? schema = some target → Resolves c schema v →
      (Compiler.ofContract c formats).Copyable schema compiled target v y.body) :
    (∀ w, (Compiler.ofContract c formats).Accepts y.body route w ↔
        (Compiler.ofContract c formats).Accepts schema route w) ↔
      (c.isRecent = true → ∀ target, referenceOf? schema = some target → ∀ w,
        (Compiler.ofContract c formats).Accepts y.body route w →
          (Compiler.ofContract c formats).AcceptsBeside schema target route w) := by
  rcases relaxed_cases (relaxed_of_synthesize hy hschema) with
    ⟨href, hbody⟩ | ⟨target, href, hbody | ⟨v, hresolves, hbody⟩⟩
  · have hresolves : Resolves c schema schema := .inline href
    rw [hbody, href]
    exact iff_of_true (accepts_withoutReadOnly_iff (hordered _ hresolves) (hkept _ hresolves) hc)
      fun _ => nofun
  · rw [hbody, href]
    refine iff_of_true (fun _ => Iff.rfl) fun _ target' htarget' w hw => ?_
    obtain rfl := Option.some.inj htarget'
    exact hw.beside href
  · have hcopied := Compiler.accepts_iff_of_copyable hc href (hcopy target v href hresolves)
      (hbody ▸ counterpart_withoutReadOnly (hordered _ hresolves) (hkept _ hresolves))
    rw [href]
    constructor
    · intro hsame _ target' htarget' w hw
      obtain rfl := Option.some.inj htarget'
      exact ((hcopied w).mp ((hsame w).mp hw)).2
    · intro hlost w
      rw [hcopied w, iff_self_and]
      intro hw
      cases hrecent : c.isRecent with
      | false =>
        refine Compiler.acceptsBeside_of_draft4 ?_ hc href w
        simp [Compiler.ofContract, Contract.dialect, hrecent]
      | true => exact hlost hrecent target rfl w hw

/-- A reference to the schema of pets, with required names beside it. -/
def namedPet : Json :=
  .object [("$ref", .string "#/components/schemas/Pet"), ("required", .array [.string "name"])]

/-- A contract with `POST /pets`, whose bodies are pets with a name. -/
def namedPetStore (version : String) : Contract where
  root := [
    ("components", .object [("schemas", .object [
      ("Pet", .object [("properties", .object [
        ("name", .object [("type", .string "string")])])])])]),
    ("openapi", .string version),
    ("paths", .object [("/pets", .object [("post", .object [
      ("requestBody", .object [("content", .object [("application/json", .object [
        ("schema", namedPet)])])]),
      ("responses", .object [])])])])]
  version := version

/-- In the older dialect the body accepts what the schema accepts, a pet without a name for one. -/
theorem body_accepts_iff_pet :
    let c := namedPetStore "3.0.3"
    let x := Compiler.ofContract c true
    ∃ r y, c.routes = .ok [r] ∧ synthesize c r none = .ok y ∧
      (∀ w, x.Accepts y.body "/pets" w ↔ x.Accepts namedPet "/pets" w) ∧
      x.Accepts namedPet "/pets" (.object []) := by
  intro c x
  let pet : Json := .object [("properties", .object [
    ("name", .object [("type", .string "string")])])]
  obtain ⟨r, y, hr, hy, hdeclared, hbody⟩ : ∃ r y, c.routes = .ok [r] ∧
      synthesize c r none = .ok y ∧ declaredBody? c r none = some namedPet ∧ y.body = pet :=
    ⟨_, _, rfl, rfl, rfl, rfl⟩
  obtain ⟨compiled, hc, hempty⟩ : x.Accepts namedPet "/pets" (.object []) := by decide +kernel
  have hresolves : ∀ v, Resolves c namedPet v → v = pet := by
    intro v hv
    cases hv with
    | inline h => cases h
    | reference h hv =>
      obtain rfl := Option.some.inj h
      exact (Except.ok.inj hv).symm
  have hinto : compiled.StaysInComponents := by
    refine Schema.Compiled.staysInComponents_of_refs hc ?_
    decide +kernel
  refine ⟨r, y, hr, hy, (body_accepts_iff hy hdeclared hc (fun v hv => ?_) (fun v hv => ?_)
    fun target v htarget hv => ?_).mpr fun hrecent => ?_, ⟨compiled, hc, hempty⟩⟩
  · rw [hresolves v hv]
    decide +kernel
  · rw [hresolves v hv]
    rintro entries properties hentries
    cases hentries
  · obtain rfl := Option.some.inj htarget
    rw [hresolves v hv, hbody]
    refine ⟨rfl, fun u w hu hw => ?_, by decide +kernel, fun _ => False, fun _ _ h => h.elim,
      fun u hu => ?_, id⟩
    · exact Compiler.kept_of_staysInComponents hinto rfl rfl rfl hu hw
    · have hnear : Schema.near (x.reading pet) = [] := by decide +kernel
      rw [hnear] at hu
      exact absurd hu List.not_mem_nil
  · exact absurd hrecent (by decide)

/-- In the newer dialect the body also accepts a pet without a name, which the schema does not. -/
theorem body_accepts_more :
    let c := namedPetStore "3.1.0"
    let x := Compiler.ofContract c true
    ∃ r y pet properties, c.routes = .ok [r] ∧ synthesize c r none = .ok y ∧
      declaredBody? c r none = some namedPet ∧ Resolves c namedPet pet ∧
      pet.member? "properties" = some (.object properties) ∧
      (∀ e ∈ properties, isReadOnly c e.2 = false) ∧
      (∃ compiled, x.compile namedPet "/pets" = .ok compiled) ∧
      x.Accepts y.body "/pets" (.object []) ∧ ¬x.Accepts namedPet "/pets" (.object []) := by
  intro c x
  obtain ⟨compiled, hcompiled, -⟩ :
      x.Accepts namedPet "/pets" (.object [("name", .string "Rex")]) := by decide +kernel
  exact ⟨_, _, _, _, rfl, rfl, rfl, .reference rfl rfl rfl, rfl, by decide +kernel,
    ⟨compiled, hcompiled⟩, by decide +kernel, by decide +kernel⟩

end RequestSchema

end ApiContract
