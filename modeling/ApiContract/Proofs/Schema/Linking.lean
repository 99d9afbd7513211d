import ApiContract.Proofs.Schema.Following
import ApiContract.Proofs.Schema.Told
/-!
# Following the references of a document

Compiling follows references depth first. The definitions only grow; a reference that is new among
them is read from its target without a fault, and all that its target refers to is defined as well.
The fuel does not run out, because every reference on the way is one of the document's.

The other way round, a document compiles if no fault is met from it: a set of references that is
closed under what their targets refer to, all without faults, is all that compiling can enter.
-/

namespace ApiContract

namespace Schema

section

variable {dialect : Dialect} {formats : Bool} {root : Json}

/-! ## What following a reference does -/

/-- Whether a text is read without a fault. -/
def Faultless (dialect : Dialect) (formats : Bool) (v : Json) : Prop :=
  ∀ f, .fault f ∉ (read dialect formats v).events

/-- Whether a definition is that of a reference, with all that it refers to defined. -/
def Settled (dialect : Dialect) (formats : Bool) (root : Json) (defined : Assoc Schema) (t : String)
    (s : Schema) : Prop :=
  ∃ v, resolveReference root t = .ok v ∧ Faultless dialect formats v ∧
    s = (read dialect formats v).result ∧
    ∀ u, .reference u ∈ (read dialect formats v).events → defined.contains u = true

/-- Whether definitions grow by settled ones. -/
structure Grows (dialect : Dialect) (formats : Bool) (root : Json)
    (defined defined' : Assoc Schema) : Prop where
  keeps : ∀ t s, defined.get? t = some s → defined'.get? t = some s
  fresh : ∀ t s, defined'.get? t = some s →
    defined.get? t = some s ∨ Settled dialect formats root defined' t s

namespace Grows

theorem refl (defined : Assoc Schema) : Grows dialect formats root defined defined :=
  ⟨fun _ _ h => h, fun _ _ h => Or.inl h⟩

theorem contains {defined defined' : Assoc Schema} (h : Grows dialect formats root defined defined')
    {t : String} (ht : defined.contains t = true) : defined'.contains t = true := by
  rw [Assoc.contains_eq] at ht ⊢
  obtain ⟨s, hs⟩ := Option.isSome_iff_exists.mp ht
  exact Option.isSome_iff_exists.mpr ⟨s, h.keeps t s hs⟩

theorem settled {defined defined' : Assoc Schema} (h : Grows dialect formats root defined defined')
    {t : String} {s : Schema} (hs : Settled dialect formats root defined t s) :
    Settled dialect formats root defined' t s := by
  obtain ⟨v, hv, hfaultless, hread, hclosed⟩ := hs
  exact ⟨v, hv, hfaultless, hread, fun u hu => h.contains (hclosed u hu)⟩

theorem trans {defined defined' defined'' : Assoc Schema}
    (h : Grows dialect formats root defined defined')
    (h' : Grows dialect formats root defined' defined'') :
    Grows dialect formats root defined defined'' := by
  refine ⟨fun t s hs => h'.keeps t s (h.keeps t s hs), fun t s hs => ?_⟩
  rcases h'.fresh t s hs with hs | hs
  · exact (h.fresh t s hs).imp_right h'.settled
  · exact Or.inr hs

end Grows

/-- How many references of a document are not defined. -/
def unseen (root : Json) (defined : Assoc Schema) : Nat :=
  (refs root).countP fun t => !defined.contains t

theorem unseen_le_of_grows {defined defined' : Assoc Schema}
    (h : Grows dialect formats root defined defined') :
    unseen root defined' ≤ unseen root defined :=
  List.countP_mono_left fun t _ ht => by
    cases hc : defined.contains t with
    | false => rfl
    | true => simp [h.contains hc] at ht

theorem unseen_insert_lt {defined : Assoc Schema} {t : String} (s : Schema) (ht : t ∈ refs root)
    (hc : defined.contains t = false) : unseen root (defined.insert t s) < unseen root defined := by
  refine countP_lt_countP ht (by simp [hc]) (by simp [Assoc.contains_insert]) fun k hk => ?_
  simp only [Assoc.contains_insert, Bool.not_or, Bool.and_eq_true] at hk
  exact hk.2

/-! ## Soundness -/

/-- What following events does to definitions, as long as there is fuel. -/
def FollowsSoundly (dialect : Dialect) (formats : Bool) (root : Json)
    (defined defined' : Assoc Schema) (events : List Event) : Prop :=
  Grows dialect formats root defined defined' ∧ (∀ f, .fault f ∉ events) ∧
    ∀ t, .reference t ∈ events → defined'.contains t = true

/-- Following events one after the other, given how each is followed. -/
theorem foldlM_define_sound {fuel : Nat}
    (step : ∀ defined defined' e, define dialect formats root fuel defined e = .ok defined' →
      unseen root defined < fuel → (∀ t, e = .reference t → t ∈ refs root) →
        FollowsSoundly dialect formats root defined defined' [e]) :
    ∀ events defined defined',
      events.foldlM (define dialect formats root fuel) defined = .ok defined' →
        unseen root defined < fuel → (∀ t, .reference t ∈ events → t ∈ refs root) →
          FollowsSoundly dialect formats root defined defined' events := by
  intro events
  induction events with
  | nil =>
    intro defined defined' h _ _
    simp only [List.foldlM_nil, pure, Except.pure, Except.ok.injEq] at h
    subst h
    exact ⟨.refl _, nofun, nofun⟩
  | cons e es ih =>
    intro defined defined' h hfuel hrefs
    rw [List.foldlM_cons] at h
    cases hd : define dialect formats root fuel defined e with
    | error f => rw [hd] at h; simp [bind, Except.bind] at h
    | ok defined₁ =>
      rw [hd] at h
      obtain ⟨hgrows, hfault, hcontains⟩ := step defined defined₁ e hd hfuel
        fun t ht => hrefs t (by simp [ht])
      obtain ⟨hgrows', hfault', hcontains'⟩ := ih defined₁ defined' h
        (Nat.lt_of_le_of_lt (unseen_le_of_grows hgrows) hfuel)
        fun t ht => hrefs t (List.mem_cons_of_mem _ ht)
      refine ⟨hgrows.trans hgrows', fun f hf => ?_, fun t ht => ?_⟩
      · rcases List.mem_cons.mp hf with hf | hf
        · exact hfault f (by simp [hf])
        · exact hfault' f hf
      · rcases List.mem_cons.mp ht with ht | ht
        · exact hgrows'.contains (hcontains t (by simp [ht]))
        · exact hcontains' t ht

/-- **Following one event soundly**, by induction on the fuel. -/
theorem define_sound (fuel : Nat) :
    ∀ defined defined' e, define dialect formats root fuel defined e = .ok defined' →
      unseen root defined < fuel → (∀ t, e = .reference t → t ∈ refs root) →
        FollowsSoundly dialect formats root defined defined' [e] := by
  induction fuel with
  | zero => intro _ _ _ _ hfuel; exact absurd hfuel (Nat.not_lt_zero _)
  | succ fuel ih =>
    intro defined defined' e h hfuel hrefs
    cases e with
    | fault f => simp [define] at h
    | reference t =>
      unfold define at h
      by_cases hc : defined.contains t = true
      · rw [if_pos hc, Except.ok.injEq] at h
        subst h
        refine ⟨.refl _, by simp, fun u hu => ?_⟩
        simp only [List.mem_singleton, Event.reference.injEq] at hu
        rw [hu]
        exact hc
      · rw [if_neg hc] at h
        rw [Bool.not_eq_true] at hc
        cases hv : resolveReference root t with
        | error f => rw [hv] at h; simp [bind, Except.bind] at h
        | ok v =>
          rw [hv] at h
          -- a new reference costs one step of fuel, and is one fewer to be seen
          have hlt := unseen_insert_lt (read dialect formats v).result (hrefs t rfl) hc
          obtain ⟨hgrows, hfault, hcontains⟩ := foldlM_define_sound ih _ _ _ h (by omega)
            fun u hu => refs_subset_of_resolveReference hv u (mem_refs_of_reference hu)
          -- the definition of the reference itself stays while its target is followed
          have hkept := hgrows.keeps t _ (Assoc.get?_insert_self _ _ _)
          refine ⟨⟨fun u s hs => ?_, fun u s hs => ?_⟩, by simp, fun u hu => ?_⟩
          · refine hgrows.keeps u s ?_
            rw [Assoc.get?_insert_of_ne]
            · exact hs
            · rintro rfl
              simp [Assoc.contains_eq, hs] at hc
          · by_cases hu : t = u
            · subst hu
              rw [hkept, Option.some.injEq] at hs
              exact Or.inr ⟨v, hv, hfault, hs.symm, hcontains⟩
            · refine (hgrows.fresh u s hs).imp_left fun hs => ?_
              rwa [Assoc.get?_insert_of_ne _ _ hu] at hs
          · simp only [List.mem_singleton, Event.reference.injEq] at hu
            rw [Assoc.contains_eq, hu, hkept]
            rfl

/-! ## Completeness -/

/-- Whether references lead to parts without faults that refer to more of them. -/
def ClosedUnder (dialect : Dialect) (formats : Bool) (root : Json) (scope : String → Prop) : Prop :=
  ∀ t, scope t → ∃ v, resolveReference root t = .ok v ∧ Faultless dialect formats v ∧
    ∀ u, .reference u ∈ (read dialect formats v).events → scope u

theorem foldlM_define_complete {scope : String → Prop} {fuel : Nat}
    (step : ∀ defined t, scope t →
      ∃ defined', define dialect formats root fuel defined (.reference t) = .ok defined' ∧
        ∀ u, defined'.contains u = true → defined.contains u = true ∨ scope u) :
    ∀ (events : List Event) (defined : Assoc Schema), (∀ f, .fault f ∉ events) →
      (∀ t, .reference t ∈ events → scope t) →
      ∃ defined', events.foldlM (define dialect formats root fuel) defined = .ok defined' ∧
        ∀ u, defined'.contains u = true → defined.contains u = true ∨ scope u := by
  intro events
  induction events with
  | nil => intro defined _ _; exact ⟨defined, rfl, fun _ hu => Or.inl hu⟩
  | cons e es ih =>
    intro defined hfault hover
    cases e with
    | fault f => exact absurd List.mem_cons_self (hfault f)
    | reference t =>
      obtain ⟨defined₁, h₁, hentered₁⟩ := step defined t (hover t List.mem_cons_self)
      obtain ⟨defined', h', hentered'⟩ := ih defined₁
        (fun f hf => hfault f (List.mem_cons_of_mem _ hf))
        fun u hu => hover u (List.mem_cons_of_mem _ hu)
      refine ⟨defined', by rw [List.foldlM_cons, h₁]; exact h', fun u hu => ?_⟩
      exact (hentered' u hu).elim (hentered₁ u) Or.inr

/-- **Closed references are followed without a fault**, and nothing else is entered. -/
theorem define_complete {scope : String → Prop} (h : ClosedUnder dialect formats root scope)
    (fuel : Nat) :
    ∀ defined t, scope t →
      ∃ defined', define dialect formats root fuel defined (.reference t) = .ok defined' ∧
        ∀ u, defined'.contains u = true → defined.contains u = true ∨ scope u := by
  induction fuel with
  | zero => intro defined t _; exact ⟨defined, rfl, fun _ hu => Or.inl hu⟩
  | succ fuel ih =>
    intro defined t ht
    unfold define
    by_cases hc : defined.contains t = true
    · rw [if_pos hc]
      exact ⟨defined, rfl, fun _ hu => Or.inl hu⟩
    · rw [if_neg hc]
      obtain ⟨v, hv, hfaultless, hclosed⟩ := h t ht
      rw [hv]
      obtain ⟨defined', h', hentered⟩ := foldlM_define_complete ih (read dialect formats v).events
        (defined.insert t (read dialect formats v).result) hfaultless hclosed
      refine ⟨defined', h', fun u hu => ?_⟩
      rcases hentered u hu with hu | hu
      · rw [Assoc.contains_insert, Bool.or_eq_true, decide_eq_true_eq] at hu
        rcases hu with rfl | hu
        · exact Or.inr ht
        · exact Or.inl hu
      · exact Or.inr hu

/-! ## Linking -/

/-- What a compiled document is made of. -/
structure Linked (dialect : Dialect) (formats : Bool) (root : Json) (c : Compiled) : Prop where
  spoken : c.dialect = dialect
  schema : c.schema = (read dialect formats root).result
  faultless : Faultless dialect formats root
  entered : ∀ t, .reference t ∈ (read dialect formats root).events → c.definitions.contains t = true
  settled : ∀ t s, c.definitions.get? t = some s →
    Settled dialect formats root c.definitions t s

theorem linked_of_link {c : Compiled} (h : link dialect formats root = .ok c) :
    Linked dialect formats root c := by
  unfold link at h
  cases hd : (read dialect formats root).events.foldlM
      (define dialect formats root (countReferences root + 1)) [] with
  | error f => simp [hd, bind, Except.bind] at h
  | ok defined =>
    simp only [hd, bind, Except.bind, pure, Except.pure, Except.ok.injEq] at h
    subst h
    have hunseen : unseen root [] < countReferences root + 1 :=
      Nat.lt_succ_of_le (Nat.le_trans List.countP_le_length (length_refs_le root))
    obtain ⟨hgrows, hfault, hcontains⟩ := foldlM_define_sound (define_sound _) _ _ _ hd hunseen
      fun t ht => mem_refs_of_reference ht
    exact ⟨rfl, rfl, hfault, hcontains, fun t s hs => (hgrows.fresh t s hs).resolve_left (by simp)⟩

theorem exists_link {scope : String → Prop} (hfaultless : Faultless dialect formats root)
    (hover : ∀ t, .reference t ∈ (read dialect formats root).events → scope t)
    (h : ClosedUnder dialect formats root scope) :
    ∃ c, link dialect formats root = .ok c ∧ ∀ t, c.definitions.contains t = true → scope t := by
  obtain ⟨defined, hd, hentered⟩ := foldlM_define_complete
    (define_complete h (countReferences root + 1))
    (read dialect formats root).events [] hfaultless hover
  refine ⟨⟨dialect, (read dialect formats root).result, defined⟩, ?_, fun t ht => ?_⟩
  · simp only [link, hd, bind, Except.bind, pure, Except.pure]
  · exact (hentered t ht).resolve_left (by simp [Assoc.contains_eq])

/-- Documents whose references lead to the same parts define them alike. -/
theorem Linked.share {root' : Json} {c c' : Compiled} (hl : Linked dialect formats root c)
    (hl' : Linked dialect formats root' c')
    (h : ∀ t, c'.definitions.contains t = true → c.definitions.contains t = true ∧
      ∀ v, resolveReference root t = .ok v → resolveReference root' t = .ok v) :
    c.Share c' c'.definitions.keys := by
  refine ⟨hl.spoken.trans hl'.spoken.symm, fun t ht => ?_⟩
  have ht' := Assoc.contains_iff_mem_keys.mpr ht
  obtain ⟨htc, hsame⟩ := h t ht'
  obtain ⟨s, hs⟩ := Option.isSome_iff_exists.mp htc
  obtain ⟨s', hs'⟩ := Option.isSome_iff_exists.mp ht'
  obtain ⟨v, hv, -, hread, -⟩ := hl.settled t s hs
  obtain ⟨v', hv', -, hread', hrefs'⟩ := hl'.settled t s' hs'
  -- both definitions are read from one part
  obtain rfl : v' = v := Except.ok.inj (hv'.symm.trans (hsame v hv))
  obtain rfl : s' = s := hread'.trans hread.symm
  refine ⟨s', hs, hs', fun u hu => Assoc.contains_iff_mem_keys.mp (hrefs' u ?_)⟩
  rw [hread] at hu
  exact reference_mem_events hu

/-- Only such references are defined as the document refers to, directly or by way of others. -/
theorem scope_of_link {c : Compiled} (scope : String → Prop)
    (h : link dialect formats root = .ok c)
    (hover : ∀ t, .reference t ∈ (read dialect formats root).events → scope t)
    (hclosed : ∀ t v, scope t → resolveReference root t = .ok v → ∀ u ∈ refs v, scope u)
    {t : String} (ht : c.definitions.contains t = true) : scope t := by
  have hl := linked_of_link h
  -- linking is completed inside of what was defined, and it has one result
  have hdefined : ClosedUnder dialect formats root
      fun u => scope u ∧ c.definitions.contains u = true := by
    rintro u ⟨hscope, hu⟩
    obtain ⟨s, hs⟩ := Option.isSome_iff_exists.mp hu
    obtain ⟨v, hv, hfaultless, -, hinner⟩ := hl.settled u s hs
    exact ⟨v, hv, hfaultless, fun w hw =>
      ⟨hclosed u v hscope hv w (mem_refs_of_reference hw), hinner w hw⟩⟩
  obtain ⟨c', hc', hentered⟩ := exists_link hl.faultless
    (fun u hu => ⟨hover u hu, hl.entered u hu⟩) hdefined
  obtain rfl := Except.ok.inj (h.symm.trans hc')
  exact (hentered t ht).1

/-- Only references of the document are defined. -/
theorem mem_refs_of_link {c : Compiled} (h : link dialect formats root = .ok c) {t : String}
    (ht : c.definitions.contains t = true) : t ∈ refs root :=
  scope_of_link (· ∈ refs root) h (fun _ hu => mem_refs_of_reference hu)
    (fun _ _ _ hv => refs_subset_of_resolveReference hv) ht

end

end Schema

end ApiContract
