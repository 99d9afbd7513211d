import ApiContract.Proofs.Schema.Components
import ApiContract.Schema.Compiler
/-!
# Parts of a document on their own

Where all references of a compiled document lead into its components, a schema that was read inside
of it can be compiled on its own, beside the same components. It then accepts what it accepts
inside.
-/

namespace ApiContract

namespace Schema

/-! ## References into the components -/

/-- Whether a reference leads into the components of a document: the first segment of its pointer
names them. -/
def leadsIntoComponents (target : String) : Bool :=
  match target.toList with
  | '#' :: '/' :: cs =>
    match Utf8.decode? (Percent.decode (Utf8.encode cs)) with
    | some decoded =>
      (Text.splitOn '/' decoded).head?.any fun segment =>
        String.ofList (Pointer.unescape segment) == "components"
    | none => false
  | _ => false

/-- Where such a reference leads depends on the components alone. -/
theorem exists_onward {target : String} (h : leadsIntoComponents target = true) :
    ∃ (onward : Json → Except Fault Json) (missing : Fault), ∀ members : Assoc Json,
      resolveReference (.object members) target =
        match members.get? "components" with
        | some components => onward components
        | none => .error missing := by
  unfold leadsIntoComponents at h
  split at h
  · next cs ht =>
    simp only [resolveReference, ht, resolveFragment]
    cases hd : Utf8.decode? (Percent.decode (Utf8.encode cs)) with
    | none => simp [hd] at h
    | some decoded =>
      simp only [hd] at h ⊢
      cases hs : Text.splitOn '/' decoded with
      | nil => simp [hs] at h
      | cons segment rest =>
        simp only [hs, List.head?_cons, Option.any_some, beq_iff_eq] at h
        refine ⟨fun v => rest.foldlM (referenceStep (String.ofList ('/' :: cs))) v,
          .noTarget (String.ofList ('/' :: cs)), fun members => ?_⟩
        rw [List.foldlM_cons]
        simp only [referenceStep, Json.member?, Json.asObject?, Option.bind_some, h]
        cases members.get? "components" <;> rfl
  · simp at h

/-- It leads to the same part of documents with the same components. -/
theorem resolveReference_congr {target : String} (h : leadsIntoComponents target = true)
    {members members' : Assoc Json}
    (hc : members.get? "components" = members'.get? "components") :
    resolveReference (.object members) target = resolveReference (.object members') target := by
  obtain ⟨onward, missing, heq⟩ := exists_onward h
  rw [heq, heq, hc]

/-- It leads nowhere where there are no components. -/
theorem resolveReference_ne_ok {target : String} (h : leadsIntoComponents target = true)
    {members : Assoc Json} (hc : members.get? "components" = none) (v : Json) :
    resolveReference (.object members) target ≠ .ok v := by
  obtain ⟨onward, missing, heq⟩ := exists_onward h
  rw [heq, hc]
  exact nofun

/-! ## Documents with components -/

/-- Put components into the root of a schema. -/
def withComponents (components : Option Json) : Json → Json
  | .object members =>
    match components with
    | some c => .object (Assoc.insert members "components" c)
    | none => .object members
  | v => v

section

variable {dialect : Dialect} {formats : Bool} {components : Option Json}

theorem read_withComponents (v : Json) :
    read dialect formats (withComponents components v) = read dialect formats v := by
  cases v with
  | object members =>
    cases components with
    | none => rfl
    | some c => exact read_insert_components members c
  | _ => rfl

theorem accepts_withComponents (v : Json) :
    (metaschema dialect).accepts (withComponents components v) =
      (metaschema dialect).accepts v := by
  cases v with
  | object members =>
    cases components with
    | none => rfl
    | some c =>
      exact accepts_object_congr fun k hk => Assoc.get?_insert_of_ne _ _ (Ne.symm hk)
  | _ => rfl

theorem compile_eq_ok_iff {root : Json} {c : Compiled} :
    compile dialect formats root = .ok c ↔
      (metaschema dialect).accepts root = true ∧ link dialect formats root = .ok c := by
  unfold compile Compiled.accepts Verdict.accepted
  cases hv : (metaschema dialect).violations root with
  | nil =>
    rw [Compiled.violations] at hv
    simp [hv]
  | cons x xs =>
    rw [Compiled.violations] at hv
    simp [hv]

/-- What a schema with components refers to, on the way from a document with the same ones. -/
theorem resolveReference_withComponents {members own : Assoc Json} {target : String} {v : Json}
    (hnone : members.get? "components" = none) (h : leadsIntoComponents target = true)
    (hv : resolveReference (withComponents components (.object members)) target = .ok v) :
    resolveReference (withComponents components (.object own)) target = .ok v := by
  cases components with
  | none => exact absurd hv (resolveReference_ne_ok h hnone v)
  | some c =>
    rw [← hv]
    exact resolveReference_congr h (by simp)

/-- Whether a schema stands inside of a good document: it is good, and reading the document meets
all that reading the schema meets. -/
structure Inside (dialect : Dialect) (formats : Bool) (whole part : Json) : Prop where
  good : (metaschema dialect).accepts part = true
  events : ∀ e ∈ (read dialect formats part).events, e ∈ (read dialect formats whole).events

/-- **A part of a document compiles on its own, and accepts there what it accepts inside.** -/
theorem exists_compile_part {members : Assoc Json} {c : Compiled} {part : Json}
    (hc : compile dialect formats (withComponents components (.object members)) = .ok c)
    (hnone : members.get? "components" = none)
    (hinto : ∀ t, c.definitions.contains t = true → leadsIntoComponents t = true)
    (hpart : Inside dialect formats (.object members) part) :
    ∃ c', compile dialect formats (withComponents components part) = .ok c' ∧
      ∀ v fuel p, c.Ample [] v fuel →
        (judge (c.meaning fuel) p v (read dialect formats part).result).accepted =
          c'.accepts v := by
  obtain ⟨haccepts, hevents⟩ := hpart
  obtain ⟨-, hlink⟩ := compile_eq_ok_iff.mp hc
  have hl := linked_of_link hlink
  have hinside : ∀ e ∈ (read dialect formats (withComponents components part)).events,
      e ∈ (read dialect formats (withComponents components (.object members))).events := by
    intro e he
    rw [read_withComponents] at he ⊢
    exact hevents e he
  -- what the part can refer to: nothing if it is a flag, and else what the document defines
  let scope (t : String) : Prop :=
    (∃ own, part = .object own) ∧ c.definitions.contains t = true
  have hover : ∀ t, .reference t ∈ (read dialect formats
      (withComponents components part)).events → scope t := by
    intro t ht
    refine ⟨?_, hl.entered t (hinside _ ht)⟩
    rcases shaped_of_accepts haccepts with h | ⟨b, rfl⟩
    · exact h
    · rw [read_withComponents] at ht
      cases b <;> simp [read, pure] at ht
  have hclosed : ClosedUnder dialect formats (withComponents components part) scope := by
    rintro t ⟨⟨own, rfl⟩, ht⟩
    obtain ⟨s, hs⟩ := Option.isSome_iff_exists.mp ht
    obtain ⟨v, hv, hfaultless, -, hrefs⟩ := hl.settled t s hs
    exact ⟨v, resolveReference_withComponents hnone (hinto t ht) hv, hfaultless,
      fun u hu => ⟨⟨own, rfl⟩, hrefs u hu⟩⟩
  obtain ⟨c', hlink', hentered⟩ :=
    exists_link (fun f hf => hl.faultless f (hinside _ hf)) hover hclosed
  have hl' := linked_of_link hlink'
  have hshare := hl.share hl' fun t ht => by
    obtain ⟨⟨own, rfl⟩, htc⟩ := hentered t ht
    exact ⟨htc, fun v hv => resolveReference_withComponents hnone (hinto t htc) hv⟩
  have hschema : c'.schema = (read dialect formats part).result := by
    rw [hl'.schema, read_withComponents]
  refine ⟨c', compile_eq_ok_iff.mpr ⟨by rw [accepts_withComponents, haccepts], hlink'⟩, ?_⟩
  intro v fuel p hfuel
  show _ = (judge (c'.meaning (c'.followBound v)) .root v c'.schema).accepted
  rw [hschema]
  refine (Compiled.alike_judge_meaning hshare (fun t ht => ?_) hfuel
    (c'.ample_followBound (Nat.le_refl _)) p .root).accepted_eq
  refine Assoc.contains_iff_mem_keys.mp (hl'.entered t ?_)
  rw [read_withComponents]
  exact reference_mem_events ht

end

end Schema

end ApiContract
