import ApiContract.Proofs.Schema.Parts
/-!
# Schemas that are compiled on a route

A schema is compiled with the components of its contract. What a schema accepts that stands inside
of a compiled one is what it accepts when judging starts from it. Where all references lead into the
components this is also what it accepts when it is compiled on its own.
-/

namespace ApiContract

open Schema

namespace Schema.Compiled

/-- Whether all references that a compiled schema follows lead into the components. -/
def StaysInComponents (c : Compiled) : Prop :=
  ∀ t, c.definitions.contains t = true → leadsIntoComponents t = true

/-- Whether all references of a schema are defined. -/
def Defines (c : Compiled) (s : Schema) : Prop := ∀ t ∈ targets s, c.definitions.contains t = true

/-- A compiled schema with the same definitions that starts from another schema. -/
def startingAt (c : Compiled) (s : Schema) : Compiled := { c with schema := s }

/-- **A schema that is met while judging judges as it does at the start.** -/
theorem accepted_judge_eq_startingAt {dialect : Dialect} {formats : Bool} {root : Json}
    {c : Compiled} (hl : Linked dialect formats root c) {s : Schema}
    (hs : c.Defines s) {v : Json} {fuel : Nat} (hfuel : c.Ample [] v fuel) (p : Place) :
    (judge (c.meaning fuel) p v s).accepted = (c.startingAt s).accepts v := by
  have hself := hl.share hl fun t ht => ⟨ht, fun _ hv => hv⟩
  have hshare : c.Share (c.startingAt s) c.definitions.keys := ⟨rfl, hself.defined⟩
  show _ = (judge ((c.startingAt s).meaning ((c.startingAt s).followBound v)) .root v s).accepted
  exact (alike_judge_meaning hshare (fun t ht => Assoc.contains_iff_mem_keys.mp (hs t ht)) hfuel
    ((c.startingAt s).ample_followBound (Nat.le_refl _)) p .root).accepted_eq

end Schema.Compiled

namespace Compiler

theorem document_eq (x : Compiler) (schema : Json) :
    x.document schema = withComponents x.components (normalize schema) := by
  unfold document
  split
  · next members components hs hc => rw [hs, hc]; rfl
  · next hno =>
    cases hs : normalize schema with
    | object members =>
      cases hc : x.components with
      | none => rfl
      | some components => exact absurd hc (hno members components hs)
    | _ => rfl

theorem compile_eq_ok_iff {x : Compiler} {schema : Json} {route : String} {c : Compiled} :
    x.compile schema route = .ok c ↔
      Schema.compile x.dialect x.formats (withComponents x.components (normalize schema)) =
        .ok c := by
  rw [← document_eq]
  unfold compile
  cases Schema.compile x.dialect x.formats (x.document schema) <;> simp

/-- Whether a schema of a route, compiled on its own, accepts a value. -/
def Accepts (x : Compiler) (schema : Json) (route : String) (v : Json) : Prop :=
  ∃ c, x.compile schema route = .ok c ∧ c.accepts v = true

instance (x : Compiler) (schema : Json) (route : String) (v : Json) :
    Decidable (x.Accepts schema route v) :=
  decidable_of_iff ((x.compile schema route).toOption.any (·.accepts v) = true) <| by
    unfold Accepts
    cases x.compile schema route <;> simp [Except.toOption]

/-- A schema as it is read on a route. -/
def reading (x : Compiler) (schema : Json) : Schema :=
  (read x.dialect x.formats (normalize schema)).result

/-- Whether a schema accepts a value when its references are resolved in the document of another
schema. -/
def AcceptsWithin (x : Compiler) (whole schema : Json) (route : String) (v : Json) : Prop :=
  ∃ c, x.compile whole route = .ok c ∧ (c.startingAt (x.reading schema)).accepts v = true

section

variable {x : Compiler} {whole part : Json} {route : String} {c : Compiled} {members : Assoc Json}

theorem linked_of_compile (hc : x.compile whole route = .ok c) :
    Linked x.dialect x.formats (x.document whole) c := by
  rw [compile_eq_ok_iff, Schema.compile_eq_ok_iff] at hc
  rw [document_eq]
  exact linked_of_link hc.2

/-- What is compiled is the schema as it is read. -/
theorem schema_of_compile (hc : x.compile whole route = .ok c) : c.schema = x.reading whole := by
  rw [(linked_of_compile hc).schema, document_eq, read_withComponents, reading]

/-- What a part of a compiled document refers to is defined. -/
theorem defines_of_inside (hc : x.compile whole route = .ok c)
    (hwhole : normalize whole = .object members)
    (hpart : Inside x.dialect x.formats (.object members) (normalize part)) :
    c.Defines (x.reading part) := by
  intro t ht
  have hl := linked_of_compile hc
  rw [document_eq, hwhole] at hl
  refine hl.entered t ?_
  rw [read_withComponents]
  exact hpart.events _ (reference_mem_events ht)

/-- A part of a compiled document judges within it. -/
theorem accepted_judge_within (hc : x.compile whole route = .ok c)
    (hwhole : normalize whole = .object members)
    (hpart : Inside x.dialect x.formats (.object members) (normalize part)) {v : Json} {fuel : Nat}
    (hfuel : c.Ample [] v fuel) (p : Place) :
    (judge (c.meaning fuel) p v (x.reading part)).accepted = true ↔
      x.AcceptsWithin whole part route v := by
  unfold AcceptsWithin
  simp only [hc, Except.ok.injEq, exists_eq_left']
  rw [Compiled.accepted_judge_eq_startingAt (linked_of_compile hc)
    (defines_of_inside hc hwhole hpart) hfuel]

/-- **Where all references lead into the components a part judges as it does on its own.** -/
theorem accepted_judge_part (hc : x.compile whole route = .ok c)
    (hwhole : normalize whole = .object members) (hnone : members.get? "components" = none)
    (hinto : c.StaysInComponents)
    (hpart : Inside x.dialect x.formats (.object members) (normalize part)) {v : Json} {fuel : Nat}
    (hfuel : c.Ample [] v fuel) (p : Place) :
    (judge (c.meaning fuel) p v (x.reading part)).accepted = true ↔ x.Accepts part route v := by
  rw [compile_eq_ok_iff, hwhole] at hc
  obtain ⟨c', hc', haccepts⟩ := exists_compile_part hc hnone hinto hpart
  rw [reading, haccepts v fuel p hfuel]
  unfold Accepts
  simp only [compile_eq_ok_iff, hc', Except.ok.injEq, exists_eq_left']

/-- There it does not matter in which document its references are resolved. -/
theorem acceptsWithin_iff_accepts (hc : x.compile whole route = .ok c)
    (hwhole : normalize whole = .object members) (hnone : members.get? "components" = none)
    (hinto : c.StaysInComponents)
    (hpart : Inside x.dialect x.formats (.object members) (normalize part)) {v : Json} :
    x.AcceptsWithin whole part route v ↔ x.Accepts part route v := by
  have hfuel := c.ample_followBound (Nat.le_refl (depth v))
  rw [← accepted_judge_within hc hwhole hpart hfuel .root]
  exact accepted_judge_part hc hwhole hnone hinto hpart hfuel .root

end

end Compiler

/-- References lead into the components if all that stand anywhere in the document do. -/
theorem Schema.Compiled.staysInComponents_of_refs {x : Compiler} {part : Json} {route : String}
    {c : Compiled} (hc : x.compile part route = .ok c)
    (h : ∀ t ∈ refs (x.document part), leadsIntoComponents t = true) : c.StaysInComponents := by
  intro t ht
  rw [Compiler.compile_eq_ok_iff, Schema.compile_eq_ok_iff, ← Compiler.document_eq] at hc
  exact h t (mem_refs_of_link hc.2 ht)

end ApiContract
