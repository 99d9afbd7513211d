import ApiContract.Proofs.Schema.Parts
/-!
# Documents that are read alike

Where two documents are read with the same events, to schemas that are related in some way, and the
parts that their references lead to are as well, one is linked if the other is, and the definitions
are related in that way. If related schemas judge alike, the documents accept alike.
-/

namespace ApiContract

namespace Schema

/-! ## Linking -/

section

variable {dialect : Dialect} {formats : Bool} {root root' : Json} {R : Schema → Schema → Prop}

/-- Whether a text is read with the events of another, to a related schema. -/
structure Counterpart (dialect : Dialect) (formats : Bool) (R : Schema → Schema → Prop)
    (v v' : Json) : Prop where
  events : (read dialect formats v').events = (read dialect formats v).events
  related : R (read dialect formats v).result (read dialect formats v').result

theorem Counterpart.faultless {v v' : Json} (h : Counterpart dialect formats R v v')
    (hv : Faultless dialect formats v) : Faultless dialect formats v' := by
  intro f hf
  rw [h.events] at hf
  exact hv f hf

/-- **Counterparts are linked to related definitions.** -/
theorem exists_link_counterpart {c : Compiled} (h : link dialect formats root = .ok c)
    (hroot : Counterpart dialect formats R root root')
    (hparts : ∀ t v, resolveReference root t = .ok v → Faultless dialect formats v →
      c.definitions.get? t = some (read dialect formats v).result →
        ∃ v', resolveReference root' t = .ok v' ∧ Counterpart dialect formats R v v') :
    ∃ c', link dialect formats root' = .ok c' ∧ R c.schema c'.schema ∧
      ∀ t, Option.Rel R (c.definitions.get? t) (c'.definitions.get? t) := by
  have hl := linked_of_link h
  have hdefined : ∀ t, c.definitions.contains t = true → ∃ v v',
      c.definitions.get? t = some (read dialect formats v).result ∧
      resolveReference root t = .ok v ∧ Faultless dialect formats v ∧
      resolveReference root' t = .ok v' ∧ Counterpart dialect formats R v v' ∧
      ∀ u, .reference u ∈ (read dialect formats v).events → c.definitions.contains u = true := by
    intro t ht
    obtain ⟨s, hs⟩ := Option.isSome_iff_exists.mp ht
    obtain ⟨v, hv, hfaultless, rfl, hinner⟩ := hl.settled t s hs
    obtain ⟨v', hv', hcounterpart⟩ := hparts t v hv hfaultless hs
    exact ⟨v, v', hs, hv, hfaultless, hv', hcounterpart, hinner⟩
  -- the references that are defined in the one are enough for the other
  have hclosed' : ClosedUnder dialect formats root'
      (fun t => c.definitions.contains t = true) := by
    intro t ht
    obtain ⟨v, v', -, -, hfaultless, hv', hcounterpart, hinner⟩ := hdefined t ht
    exact ⟨v', hv', hcounterpart.faultless hfaultless,
      fun u hu => hinner u (hcounterpart.events ▸ hu)⟩
  obtain ⟨c', h', hwithin⟩ := exists_link (hroot.faultless hl.faultless)
    (fun t ht => hl.entered t (hroot.events ▸ ht)) hclosed'
  have hl' := linked_of_link h'
  -- and those of the other for the one, so both define the same
  have hclosed : ClosedUnder dialect formats root
      (fun t => c.definitions.contains t = true ∧ c'.definitions.contains t = true) := by
    intro t ht
    obtain ⟨v, v', -, hv, hfaultless, hv', hcounterpart, hinner⟩ := hdefined t ht.1
    obtain ⟨s', hs'⟩ := Option.isSome_iff_exists.mp ht.2
    obtain ⟨w, hw, -, -, hinner'⟩ := hl'.settled t s' hs'
    obtain rfl := Except.ok.inj (hw.symm.trans hv')
    exact ⟨v, hv, hfaultless, fun u hu => ⟨hinner u hu, hinner' u (hcounterpart.events ▸ hu)⟩⟩
  obtain ⟨c₂, h₂, hwithin'⟩ := exists_link hl.faultless
    (fun t ht => ⟨hl.entered t ht, hl'.entered t (hroot.events ▸ ht)⟩) hclosed
  obtain rfl := Except.ok.inj (h₂.symm.trans h)
  refine ⟨c', h', by rw [hl.schema, hl'.schema]; exact hroot.related, fun t => ?_⟩
  cases hs : c₂.definitions.get? t with
  | none =>
    cases hs' : c'.definitions.get? t with
    | none => exact .none
    | some s' =>
      have ht := hwithin t (by rw [Assoc.contains_eq, hs']; rfl)
      rw [Assoc.contains_eq, hs] at ht
      cases ht
  | some s =>
    have ht : c₂.definitions.contains t = true := by rw [Assoc.contains_eq, hs]; rfl
    obtain ⟨v, v', hv, -, -, hv', hcounterpart, -⟩ := hdefined t ht
    obtain ⟨s', hs'⟩ := Option.isSome_iff_exists.mp (hwithin' t ht).2
    obtain ⟨w, hw, -, rfl, -⟩ := hl'.settled t s' hs'
    obtain rfl := Except.ok.inj (hw.symm.trans hv')
    obtain rfl := Option.some.inj (hs.symm.trans hv)
    rw [hs']
    exact .some hcounterpart.related

end

/-! ## Judging -/

namespace Compiled

variable {c c' : Compiled}

/-- Whether two schemas give every value the same verdict, wherever they stand. -/
def JudgedSame (s s' : Schema) : Prop :=
  ∀ (m : Meaning) (p : Place) (v : Json), judge m p v s = judge m p v s'

/-- References to definitions that are judged the same are followed to the same verdicts. -/
theorem follow_eq_of_judgedSame (hdialect : c.dialect = c'.dialect)
    (h : ∀ t, Option.Rel JudgedSame (c.definitions.get? t) (c'.definitions.get? t)) (fuel : Nat) :
    c.follow fuel = c'.follow fuel := by
  induction fuel with
  | zero => rfl
  | succ fuel ih =>
    funext followed t p v
    rw [follow, follow]
    split
    · rfl
    · have ht := h t
      generalize c.definitions.get? t = s at ht
      generalize c'.definitions.get? t = s' at ht
      cases ht with
      | none => rfl
      | some hs =>
        simp only [ih, hdialect]
        exact hs _ _ _

/-- More fuel than is needed changes nothing. -/
theorem accepts_eq_judge {dialect : Dialect} {formats : Bool} {root : Json}
    (hl : Linked dialect formats root c) {v : Json} {fuel : Nat} (hfuel : c.followBound v ≤ fuel) :
    c.accepts v = (judge (c.meaning fuel) .root v c.schema).accepted := by
  have hself := hl.share hl fun t ht => ⟨ht, fun _ hv => hv⟩
  have hample := c.ample_followBound (Nat.le_refl (depth v))
  refine (alike_judge_meaning hself (fun t ht => ?_) hample (Nat.lt_of_lt_of_le hample hfuel) .root
    .root).accepted_eq
  rw [hl.schema] at ht
  exact Assoc.contains_iff_mem_keys.mp (hl.entered t (reference_mem_events ht))

/-- **Where schema and definitions are judged the same, the same is accepted.** -/
theorem accepts_eq_of_judgedSame {dialect : Dialect} {formats : Bool} {root root' : Json}
    (hl : Linked dialect formats root c) (hl' : Linked dialect formats root' c')
    (hschema : JudgedSame c.schema c'.schema)
    (h : ∀ t, Option.Rel JudgedSame (c.definitions.get? t) (c'.definitions.get? t)) (v : Json) :
    c.accepts v = c'.accepts v := by
  have hdialect : c.dialect = c'.dialect := hl.spoken.trans hl'.spoken.symm
  rw [accepts_eq_judge hl (Nat.le_add_right _ (c'.followBound v)),
    accepts_eq_judge hl' (Nat.le_add_left _ (c.followBound v)), meaning, meaning,
    follow_eq_of_judgedSame hdialect h, hdialect, hschema]

end Compiled

end Schema

end ApiContract
