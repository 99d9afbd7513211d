import ApiContract.Store
/-!
# What a store holds after a history

A store sees calls only as demands: a key, and what a build would give. After any history it holds
under a key what the first successful build for that key in text gave. Later builds for the text
leave no trace, whatever they are for.
-/

namespace ApiContract

/-- What a call asks of a store. -/
structure Demand (ε β : Type) where
  key : StoreKey
  /-- What a build gives. -/
  built : Except ε β

namespace Demand

variable {ε β : Type}

/-- What a demand leaves under a key that holds nothing. -/
def offer? (key : StoreKey) : Option (Demand ε β) → Option β
  | some d => if d.key.render = key.render then d.built.toOption else none
  | none => none

/-- The first successful build for a key in text. -/
def firstBuilt? (ds : List (Option (Demand ε β))) (key : StoreKey) : Option β :=
  ds.findSome? (offer? key)

/-- The first successful build is one of the builds. -/
theorem exists_of_firstBuilt? {ds : List (Option (Demand ε β))} {key : StoreKey} {x : β}
    (h : firstBuilt? ds key = some x) :
    ∃ d, some d ∈ ds ∧ d.key.render = key.render ∧ d.built = .ok x := by
  obtain ⟨d?, hmem, hoffer⟩ := List.exists_of_findSome?_eq_some h
  cases d? with
  | none => simp [offer?] at hoffer
  | some d =>
    simp only [offer?] at hoffer
    split at hoffer
    · next hkey =>
      refine ⟨d, hmem, hkey, ?_⟩
      cases hb : d.built with
      | error e => simp [hb, Except.toOption] at hoffer
      | ok y => simpa [hb, Except.toOption] using hoffer
    · simp at hoffer

end Demand

namespace Store

variable {ε β : Type}

/-- What a store hands out it held, or it was built. -/
theorem get?_or_built {s : Store β} {key : StoreKey} {build : Unit → Except ε β} {x : β}
    (h : (s.getOrBuild key build).1 = .ok x) : s.get? key = some x ∨ build () = .ok x := by
  unfold getOrBuild at h
  split at h
  · split at h
    · next stored hstored => exact Or.inl (hstored.trans (congrArg _ (Except.ok.inj h)))
    · split at h
      · next built hbuilt => exact Or.inr (hbuilt.trans h)
      · cases h
  · exact Or.inr h

/-- A store after a demand, if the call makes one. -/
def meet (s : Store β) : Option (Demand ε β) → Store β
  | some d => (s.getOrBuild d.key fun _ => d.built).2
  | none => s

@[simp] theorem enabled_meet (s : Store β) (d : Option (Demand ε β)) :
    (s.meet d).enabled = s.enabled := by
  cases d with
  | none => rfl
  | some d => exact enabled_getOrBuild s d.key _

theorem meet_of_disabled {s : Store β} (h : s.enabled = false) (d : Option (Demand ε β)) :
    s.meet d = s := by
  cases d with
  | none => rfl
  | some d => simp [meet, getOrBuild_of_disabled d.key _ h]

/-- One demand adds what it offers, unless the key holds something. -/
theorem get?_meet {s : Store β} (h : s.enabled = true) (d : Option (Demand ε β)) (key : StoreKey) :
    (s.meet d).get? key = (s.get? key).or (Demand.offer? key d) := by
  cases d with
  | none => simp [meet, Demand.offer?]
  | some d =>
    simp only [meet, getOrBuild, h, if_true, Demand.offer?]
    cases hs : s.get? d.key with
    | some x =>
      by_cases hk : d.key.render = key.render
      · have hkey : s.get? key = some x := by rw [← hs, get?, get?, hk]
        simp [hkey]
      · simp [hk]
    | none =>
      cases d.built with
      | error e => simp [Except.toOption]
      | ok x =>
        simp only [get?, Except.toOption, Assoc.get?_insert]
        by_cases hk : d.key.render = key.render
        · rw [get?, hk] at hs
          simp [hk, hs]
        · simp [hk]

@[simp] theorem enabled_foldl_meet (s : Store β) (ds : List (Option (Demand ε β))) :
    (ds.foldl meet s).enabled = s.enabled := by
  induction ds generalizing s with
  | nil => rfl
  | cons d ds ih => simp [ih]

/-- **What a store holds after a history.** -/
theorem get?_foldl_meet {s : Store β} (h : s.enabled = true) (ds : List (Option (Demand ε β)))
    (key : StoreKey) :
    (ds.foldl meet s).get? key = (s.get? key).or (Demand.firstBuilt? ds key) := by
  induction ds generalizing s with
  | nil => simp [Demand.firstBuilt?]
  | cons d ds ih =>
    rw [List.foldl_cons, ih (by simpa using h), get?_meet h, Option.or_assoc]
    refine congrArg _ ?_
    simp only [Demand.firstBuilt?, List.findSome?_cons]
    cases Demand.offer? key d <;> simp

theorem foldl_meet_of_disabled {s : Store β} (h : s.enabled = false)
    (ds : List (Option (Demand ε β))) : ds.foldl meet s = s := by
  induction ds with
  | nil => rfl
  | cons d ds ih => rw [List.foldl_cons, meet_of_disabled h, ih]

/-- What a store that was empty holds, was built for one of the demands. -/
theorem exists_of_get?_foldl_meet {enabled : Bool} {ds : List (Option (Demand ε β))}
    {key : StoreKey} {x : β} (h : (ds.foldl meet (empty enabled)).get? key = some x) :
    ∃ d, some d ∈ ds ∧ d.key.render = key.render ∧ d.built = .ok x := by
  cases enabled with
  | false =>
    rw [foldl_meet_of_disabled rfl] at h
    cases h
  | true =>
    rw [get?_foldl_meet rfl] at h
    exact Demand.exists_of_firstBuilt? h

end Store

end ApiContract
