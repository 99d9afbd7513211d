import ApiContract.Assoc
import Mathlib.Data.List.Forall2
/-!
# Computations that may fail

A computation in steps succeeds when every step does and fails with the first step that fails, so it
fails only with what its steps fail with; changing every value of a map succeeds when every value can
be changed.
-/

namespace ApiContract

theorem Except.bind_eq_ok_iff {ε α β : Type} {x : Except ε α} {f : α → Except ε β} {b : β} :
    x >>= f = .ok b ↔ ∃ a, x = .ok a ∧ f a = .ok b := by
  cases x with
  | error e =>
    constructor
    · intro h
      cases h
    · rintro ⟨a, ha, -⟩
      cases ha
  | ok a => exact ⟨fun h => ⟨a, rfl, h⟩, fun ⟨_, ha, h⟩ => Except.ok.inj ha ▸ h⟩

theorem Except.bind_eq_error_iff {ε α β : Type} {x : Except ε α} {f : α → Except ε β} {e : ε} :
    x >>= f = .error e ↔ x = .error e ∨ ∃ a, x = .ok a ∧ f a = .error e := by
  cases x with
  | error e' =>
    constructor
    · intro h
      exact Or.inl (congrArg _ (Except.error.inj h))
    · rintro (h | ⟨a, ha, -⟩)
      · exact congrArg _ (Except.error.inj h)
      · cases ha
  | ok a =>
    constructor
    · intro h
      exact Or.inr ⟨a, rfl, h⟩
    · rintro (h | ⟨_, ha, h⟩)
      · cases h
      · exact Except.ok.inj ha ▸ h

theorem Except.toOption_eq_some_iff {ε α : Type} {x : Except ε α} {a : α} :
    x.toOption = some a ↔ x = .ok a := by
  cases x <;> simp [Except.toOption]

theorem Except.eq_ok_of_mapError {ε δ α : Type} {x : Except ε α} {f : ε → δ} {a : α}
    (h : x.mapError f = .ok a) : x = .ok a := by
  cases x with
  | error e => cases h
  | ok b => exact congrArg Except.ok (Except.ok.inj h)

/-- What every step keeps, a run of steps keeps. -/
theorem Except.foldlM_invariant {ε α σ : Type} {step : σ → α → Except ε σ} {P : σ → Prop}
    (hstep : ∀ s a t, step s a = .ok t → P s → P t) {xs : List α} {s t : σ}
    (h : xs.foldlM step s = .ok t) (hs : P s) : P t := by
  induction xs generalizing s with
  | nil =>
    obtain rfl := Except.ok.inj h
    exact hs
  | cons x xs ih =>
    rw [List.foldlM_cons] at h
    obtain ⟨u, hu, h⟩ := Except.bind_eq_ok_iff.mp h
    exact ih h (hstep s x u hu hs)

/-- Whether a computation fails with failures of a kind only. -/
def Except.FailsOnly {ε α : Type} (P : ε → Prop) (x : Except ε α) : Prop := ∀ e, x = .error e → P e

section FailsOnly

variable {ε α β : Type} {P : ε → Prop}

theorem Except.FailsOnly.ok (a : α) : Except.FailsOnly P (.ok a) := nofun

theorem Except.FailsOnly.error {e : ε} (h : P e) : Except.FailsOnly P (.error e : Except ε α) :=
  fun _ he => Except.error.inj he ▸ h

theorem Except.FailsOnly.bind {x : Except ε α} {f : α → Except ε β} (hx : Except.FailsOnly P x)
    (hf : ∀ a, Except.FailsOnly P (f a)) : Except.FailsOnly P (x >>= f) := by
  intro e he
  rcases Except.bind_eq_error_iff.mp he with he | ⟨a, -, he⟩
  · exact hx e he
  · exact hf a e he

/-- A run of steps fails with what a step fails with. -/
theorem Except.FailsOnly.foldlM {step : β → α → Except ε β}
    (h : ∀ b a, Except.FailsOnly P (step b a)) (xs : List α) (b : β) :
    Except.FailsOnly P (xs.foldlM step b) := by
  induction xs generalizing b with
  | nil => exact .ok b
  | cons x xs ih =>
    rw [List.foldlM_cons]
    exact .bind (h b x) ih

end FailsOnly

/-- Two computations that fail alike, or give related results. -/
inductive Except.Rel {ε α β : Type} (R : α → β → Prop) : Except ε α → Except ε β → Prop
  | error (e : ε) : Rel R (.error e) (.error e)
  | ok {a : α} {b : β} (h : R a b) : Rel R (.ok a) (.ok b)

theorem Except.Rel.eq_or {ε α β : Type} {R : α → β → Prop} {x : Except ε α} {y : Except ε β}
    (h : Except.Rel R x y) :
    (∃ e, x = .error e ∧ y = .error e) ∨ ∃ a b, x = .ok a ∧ y = .ok b ∧ R a b := by
  cases h with
  | error e => exact Or.inl ⟨e, rfl, rfl⟩
  | ok h => exact Or.inr ⟨_, _, rfl, rfl, h⟩

theorem Except.Rel.bind {ε α β γ δ : Type} {R : α → β → Prop} {S : γ → δ → Prop} {x : Except ε α}
    {y : Except ε β} {f : α → Except ε γ} {g : β → Except ε δ} (h : Except.Rel R x y)
    (hf : ∀ a b, R a b → Except.Rel S (f a) (g b)) : Except.Rel S (x >>= f) (y >>= g) := by
  cases h with
  | error e => exact .error e
  | ok h => exact hf _ _ h

/-- What related steps keep, runs of such steps keep. -/
theorem Except.Rel.foldlM {ε α β σ τ : Type} {R : σ → τ → Prop} {Q : α → β → Prop}
    {step : σ → α → Except ε σ} {step' : τ → β → Except ε τ}
    (hstep : ∀ s t a b, R s t → Q a b → Except.Rel R (step s a) (step' t b)) {as : List α}
    {bs : List β} (h : List.Forall₂ Q as bs) {s : σ} {t : τ} (hs : R s t) :
    Except.Rel R (as.foldlM step s) (bs.foldlM step' t) := by
  induction h generalizing s t with
  | nil => exact .ok hs
  | cons h _ ih =>
    rw [List.foldlM_cons, List.foldlM_cons]
    exact (hstep s t _ _ hs h).bind fun _ _ => ih

/-- What stands under a key is what its value was changed into. -/
theorem Assoc.mapM_get? {ε β γ : Type} {m : Assoc β} {f : β → Except ε γ} {m' : Assoc γ}
    (h : m.mapM (fun e => return (e.1, ← f e.2)) = .ok m') (key : String) :
    (m.get? key).mapM f = .ok (m'.get? key) := by
  induction m generalizing m' with
  | nil =>
    obtain rfl := Except.ok.inj h
    rfl
  | cons e m ih =>
    obtain ⟨k, v⟩ := e
    rw [List.mapM_cons, Except.bind_eq_ok_iff] at h
    obtain ⟨e', he', h⟩ := h
    obtain ⟨w, hw, he'⟩ := Except.bind_eq_ok_iff.mp he'
    obtain ⟨rest, hrest, h⟩ := Except.bind_eq_ok_iff.mp h
    obtain rfl := Except.ok.inj he'
    obtain rfl := Except.ok.inj h
    rw [get?_cons, get?_cons]
    split
    · simp only [Option.mapM_some, hw]
      rfl
    · exact ih hrest

/-- It fails with the first value that cannot be changed. -/
theorem Assoc.mapM_eq_error_iff {ε β γ : Type} {m : Assoc β} {f : β → Except ε γ} {x : ε} :
    m.mapM (fun e => return (e.1, ← f e.2)) = .error x ↔
      ∃ e, m.find? (fun e => (f e.2).toOption.isNone) = some e ∧ f e.2 = .error x := by
  induction m with
  | nil => exact ⟨nofun, fun ⟨_, h, _⟩ => by simp at h⟩
  | cons e m ih =>
    rw [List.mapM_cons, List.find?_cons, Except.bind_eq_error_iff]
    cases hf : f e.2 with
    | error y =>
      simp only [Except.toOption, Option.isNone_none, Option.some.injEq, exists_eq_left', hf]
      constructor
      · rintro (h | ⟨_, h, -⟩)
        · exact congrArg _ (Except.error.inj h)
        · cases h
      · intro h
        exact Or.inl (congrArg _ (Except.error.inj h))
    | ok w =>
      have hpure : (Except.ok w >>= fun w => return (e.1, w) : Except ε (String × γ)) =
        .ok (e.1, w) := rfl
      simp only [hpure, Option.isNone_some, Except.toOption] at ih ⊢
      constructor
      · rintro (h | ⟨_, -, h⟩)
        · cases h
        · rcases Except.bind_eq_error_iff.mp h with h | ⟨_, _, h⟩
          · exact ih.mp h
          · cases h
      · intro h
        exact Or.inr ⟨_, rfl, Except.bind_eq_error_iff.mpr (Or.inl (ih.mpr h))⟩

end ApiContract
