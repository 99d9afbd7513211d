import ApiContract.Proofs.Failing
import ApiContract.Proofs.Schema.Linking
/-!
# Linking two documents

Two documents that have the same parts under their references are linked alike, as long as what they
read differs only in references that can be followed without a fault: following such references
enters nothing else, so the first fault is the same.
-/

namespace ApiContract

namespace Schema

/-- Whether references of a scope lead to the same parts of two documents, and these parts refer to
more of the scope. -/
structure SameParts (root root' : Json) (scope : String → Prop) : Prop where
  same : ∀ t, scope t → resolveReference root' t = resolveReference root t
  closed : ∀ t v, scope t → resolveReference root t = .ok v → ∀ u ∈ refs v, scope u

/-- Events that are the same, but for references of a set. -/
inductive SameEventsBut (known : String → Prop) : List Event → List Event → Prop
  | nil : SameEventsBut known [] []
  | both (e : Event) {es es' : List Event} (h : SameEventsBut known es es') :
      SameEventsBut known (e :: es) (e :: es')
  | left {t : String} (ht : known t) {es es' : List Event} (h : SameEventsBut known es es') :
      SameEventsBut known (.reference t :: es) es'
  | right {t : String} (ht : known t) {es es' : List Event} (h : SameEventsBut known es es') :
      SameEventsBut known es (.reference t :: es')

namespace SameEventsBut

variable {known : String → Prop} {es es' fs fs' : List Event}

theorem refl : (es : List Event) → SameEventsBut known es es
  | [] => .nil
  | e :: es => .both e (refl es)

theorem append (h : SameEventsBut known es es') (h' : SameEventsBut known fs fs') :
    SameEventsBut known (es ++ fs) (es' ++ fs') := by
  induction h with
  | nil => exact h'
  | both e _ ih => exact .both e ih
  | left ht _ ih => exact .left ht ih
  | right ht _ ih => exact .right ht ih

/-- References of the set alone are as good as any others of it. -/
theorem of_known (h : ∀ e ∈ es, ∃ t, e = .reference t ∧ known t)
    (h' : ∀ e ∈ es', ∃ t, e = .reference t ∧ known t) : SameEventsBut known es es' := by
  induction es with
  | nil =>
    induction es' with
    | nil => exact .nil
    | cons e es' ih =>
      obtain ⟨t, rfl, ht⟩ := h' e List.mem_cons_self
      exact .right ht (ih fun e he => h' e (List.mem_cons_of_mem _ he))
  | cons e es ih =>
    obtain ⟨t, rfl, ht⟩ := h e List.mem_cons_self
    exact .left ht (ih fun e he => h e (List.mem_cons_of_mem _ he))

end SameEventsBut

section

variable {dialect : Dialect} {formats : Bool} {root root' : Json} {scope known : String → Prop}
  {defined defined' : Assoc Schema} {fuel fuel' : Nat}

/-- Whether the same references are defined, but for some of a set. -/
def SameDefinedBut (known : String → Prop) (defined defined' : Assoc Schema) : Prop :=
  ∀ t, ¬known t → defined.contains t = defined'.contains t

/-- References of a set that is closed and without faults are followed without leaving it. -/
theorem exists_define_known (hknown : ClosedUnder dialect formats root known) {t : String}
    (ht : known t) (hfuel : unseen root defined < fuel) (hrefs : t ∈ refs root) :
    ∃ defined', define dialect formats root fuel defined (.reference t) = .ok defined' ∧
      SameDefinedBut known defined defined' ∧ unseen root defined' < fuel := by
  obtain ⟨defined', h, hentered⟩ := define_complete hknown fuel defined t ht
  have hgrows := (define_sound fuel defined defined' _ h hfuel fun u hu => by
    rwa [← Event.reference.inj hu]).1
  refine ⟨defined', h, fun u hu => ?_, Nat.lt_of_le_of_lt (unseen_le_of_grows hgrows) hfuel⟩
  rw [Bool.eq_iff_iff]
  exact ⟨hgrows.contains, fun hc => (hentered u hc).resolve_right hu⟩

/-- Whether all references among some events are of a scope and of a document. -/
def Refer (root : Json) (scope : String → Prop) (es : List Event) : Prop :=
  ∀ t, .reference t ∈ es → scope t ∧ t ∈ refs root

/-- Following events that differ in references of the set alone, given how each of the others is
followed. -/
theorem rel_foldlM_define (hknown : ClosedUnder dialect formats root known)
    (hknown' : ClosedUnder dialect formats root' known)
    (step : ∀ defined defined' t, ¬known t → scope t → t ∈ refs root → t ∈ refs root' →
      SameDefinedBut known defined defined' → unseen root defined < fuel →
      unseen root' defined' < fuel' →
        Except.Rel (SameDefinedBut known) (define dialect formats root fuel defined (.reference t))
          (define dialect formats root' fuel' defined' (.reference t)))
    {es es' : List Event} (h : SameEventsBut known es es') :
    ∀ defined defined', SameDefinedBut known defined defined' → unseen root defined < fuel →
      unseen root' defined' < fuel' → Refer root scope es → Refer root' scope es' →
        Except.Rel (SameDefinedBut known)
          (es.foldlM (define dialect formats root fuel) defined)
          (es'.foldlM (define dialect formats root' fuel') defined') := by
  induction h with
  | nil => intro defined defined' hsame _ _ _ _; exact .ok hsame
  | @left t ht es es' h ih =>
    intro defined defined' hsame hfuel hfuel' hrefer hrefer'
    obtain ⟨defined₁, h₁, hsame₁, hfuel₁⟩ :=
      exists_define_known hknown ht hfuel (hrefer t List.mem_cons_self).2
    rw [List.foldlM_cons, h₁]
    exact ih defined₁ defined' (fun u hu => (hsame₁ u hu).symm.trans (hsame u hu)) hfuel₁ hfuel'
      (fun u hu => hrefer u (List.mem_cons_of_mem _ hu)) hrefer'
  | @right t ht es es' h ih =>
    intro defined defined' hsame hfuel hfuel' hrefer hrefer'
    obtain ⟨defined₁, h₁, hsame₁, hfuel₁⟩ :=
      exists_define_known hknown' ht hfuel' (hrefer' t List.mem_cons_self).2
    rw [List.foldlM_cons, h₁]
    exact ih defined defined₁ (fun u hu => (hsame u hu).trans (hsame₁ u hu)) hfuel hfuel₁
      hrefer fun u hu => hrefer' u (List.mem_cons_of_mem _ hu)
  | @both e es es' h ih =>
    intro defined defined' hsame hfuel hfuel' hrefer hrefer'
    have hrest : Refer root scope es := fun u hu => hrefer u (List.mem_cons_of_mem _ hu)
    have hrest' : Refer root' scope es' := fun u hu => hrefer' u (List.mem_cons_of_mem _ hu)
    rw [List.foldlM_cons, List.foldlM_cons]
    cases e with
    | fault f =>
      rw [show define dialect formats root fuel defined (.fault f) = .error f by
          cases fuel <;> rfl,
        show define dialect formats root' fuel' defined' (.fault f) = .error f by
          cases fuel' <;> rfl]
      exact .error f
    | reference t =>
      have hone : ∀ {u}, Event.reference t = .reference u → u = t :=
        fun hu => (Event.reference.inj hu).symm
      obtain ⟨hscope, hrefs⟩ := hrefer t List.mem_cons_self
      have hrefs' := (hrefer' t List.mem_cons_self).2
      by_cases ht : known t
      · obtain ⟨defined₁, h₁, hsame₁, hfuel₁⟩ := exists_define_known hknown ht hfuel hrefs
        obtain ⟨defined₂, h₂, hsame₂, hfuel₂⟩ := exists_define_known hknown' ht hfuel' hrefs'
        rw [h₁, h₂]
        exact ih defined₁ defined₂
          (fun u hu => ((hsame₁ u hu).symm.trans (hsame u hu)).trans (hsame₂ u hu)) hfuel₁ hfuel₂
          hrest hrest'
      · rcases (step defined defined' t ht hscope hrefs hrefs' hsame hfuel hfuel').eq_or with
          ⟨f, h₁, h₂⟩ | ⟨defined₁, defined₂, h₁, h₂, hsame₁⟩ <;> rw [h₁, h₂]
        · exact .error f
        · have hgrows := (define_sound fuel defined defined₁ _ h₁ hfuel
            fun u hu => hone hu ▸ hrefs).1
          have hgrows' := (define_sound fuel' defined' defined₂ _ h₂ hfuel'
            fun u hu => hone hu ▸ hrefs').1
          exact ih defined₁ defined₂ hsame₁ (Nat.lt_of_le_of_lt (unseen_le_of_grows hgrows) hfuel)
            (Nat.lt_of_le_of_lt (unseen_le_of_grows hgrows') hfuel') hrest hrest'

/-- **A reference is followed alike in both documents**, by induction on the fuel of the one. -/
theorem rel_define (hparts : SameParts root root' scope)
    (hknown : ClosedUnder dialect formats root known)
    (hknown' : ClosedUnder dialect formats root' known) (fuel : Nat) :
    ∀ fuel' defined defined' t, ¬known t → scope t → t ∈ refs root → t ∈ refs root' →
      SameDefinedBut known defined defined' → unseen root defined < fuel →
      unseen root' defined' < fuel' →
        Except.Rel (SameDefinedBut known) (define dialect formats root fuel defined (.reference t))
          (define dialect formats root' fuel' defined' (.reference t)) := by
  induction fuel with
  | zero => intro _ _ _ _ _ _ _ _ _ hfuel; exact absurd hfuel (Nat.not_lt_zero _)
  | succ fuel ih =>
    intro fuel' defined defined' t ht hscope hrefs hrefs' hsame hfuel hfuel'
    cases fuel' with
    | zero => exact absurd hfuel' (Nat.not_lt_zero _)
    | succ fuel' =>
      unfold define
      rw [← hsame t ht]
      by_cases hc : defined.contains t = true
      · rw [if_pos hc, if_pos hc]
        exact .ok hsame
      · rw [if_neg hc, if_neg hc, hparts.same t hscope]
        rw [Bool.not_eq_true] at hc
        have hc' := (hsame t ht).symm.trans hc
        cases hv : resolveReference root t with
        | error f => exact .error f
        | ok v =>
          have hv' := (hparts.same t hscope).trans hv
          have hclosed : ∀ u, .reference u ∈ (read dialect formats v).events → u ∈ refs v :=
            fun u hu => mem_refs_of_reference hu
          have hlt := unseen_insert_lt (read dialect formats v).result hrefs hc
          have hlt' := unseen_insert_lt (read dialect formats v).result hrefs' hc'
          refine rel_foldlM_define hknown hknown' (ih fuel') (.refl _) _ _ (fun u hu => ?_)
            (by omega) (by omega) (fun u hu => ?_) (fun u hu => ?_)
          · rw [Assoc.contains_insert, Assoc.contains_insert, hsame u hu]
          · exact ⟨hparts.closed t v hscope hv u (hclosed u hu),
              refs_subset_of_resolveReference hv u (hclosed u hu)⟩
          · exact ⟨hparts.closed t v hscope hv u (hclosed u hu),
              refs_subset_of_resolveReference hv' u (hclosed u hu)⟩

/-- **Documents that differ in references without faults are linked alike**: both have the same
first fault, or none. -/
theorem rel_link (hparts : SameParts root root' scope)
    (hknown : ClosedUnder dialect formats root known)
    (hknown' : ClosedUnder dialect formats root' known)
    (hevents : SameEventsBut known (read dialect formats root).events
      (read dialect formats root').events)
    (hscope : ∀ t, .reference t ∈ (read dialect formats root).events → scope t)
    (hscope' : ∀ t, .reference t ∈ (read dialect formats root').events → scope t) :
    Except.Rel (fun _ _ => True) (link dialect formats root) (link dialect formats root') := by
  have hunseen : ∀ v : Json, unseen v [] < countReferences v + 1 := fun v =>
    Nat.lt_succ_of_le (Nat.le_trans List.countP_le_length (length_refs_le v))
  refine (rel_foldlM_define hknown hknown'
    (rel_define hparts hknown hknown' (countReferences root + 1) (countReferences root' + 1))
    hevents [] [] (fun _ _ => rfl) (hunseen root) (hunseen root')
    (fun t ht => ⟨hscope t ht, mem_refs_of_reference ht⟩)
    (fun t ht => ⟨hscope' t ht, mem_refs_of_reference ht⟩)).bind fun _ _ _ => .ok trivial

/-! ## What both documents define -/

/-- References that both documents define are defined alike. -/
theorem Linked.share_common {c c' : Compiled} (hl : Linked dialect formats root c)
    (hl' : Linked dialect formats root' c') (hparts : SameParts root root' scope)
    (hscope : ∀ t, c.definitions.contains t = true → scope t) :
    c.Share c' (c.definitions.keys.filter c'.definitions.contains) := by
  refine ⟨hl.spoken.trans hl'.spoken.symm, fun t ht => ?_⟩
  obtain ⟨hkey, ht'⟩ := List.mem_filter.mp ht
  have htc := Assoc.contains_iff_mem_keys.mpr hkey
  obtain ⟨s, hs⟩ := Option.isSome_iff_exists.mp htc
  obtain ⟨s', hs'⟩ := Option.isSome_iff_exists.mp ht'
  obtain ⟨v, hv, -, hread, hinner⟩ := hl.settled t s hs
  obtain ⟨v', hv', -, hread', hinner'⟩ := hl'.settled t s' hs'
  -- both definitions are read from one part
  obtain rfl : v' = v := Except.ok.inj
    (hv'.symm.trans ((hparts.same t (hscope t htc)).trans hv))
  obtain rfl : s' = s := hread'.trans hread.symm
  refine ⟨s', hs, hs', fun u hu => ?_⟩
  rw [hread] at hu
  exact List.mem_filter.mpr ⟨Assoc.contains_iff_mem_keys.mp (hinner u (reference_mem_events hu)),
    hinner' u (reference_mem_events hu)⟩

end

end Schema

end ApiContract
