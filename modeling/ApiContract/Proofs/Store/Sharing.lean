import ApiContract.Proofs.Assoc.Ascending
import ApiContract.Proofs.Store.History
import Mathlib.Data.List.Dedup
import Mathlib.Data.List.Induction
/-!
# A store that is shared

Clones of a store share what it holds, and each has its own copy of the switch. Whatever the clones
are asked for, in whatever order, the first call that succeeds for a key in text decides what every
later one gets, and only until then is anything built for it. What was built may be anything, an
object with an identity of its own as well, so the later calls get that very object.
-/

namespace ApiContract

variable {ε β : Type}

/-! ## Builds with effects -/

namespace Store

/-- What is stored under a key, or else what a build with effects gives. -/
def getOrBuildM {m : Type → Type} [Monad m] (s : Store β) (k : StoreKey) (build : m (Except ε β)) :
    m (Except ε β × Store β) :=
  if s.enabled then
    match s.get? k with
    | some x => pure (.ok x, s)
    | none => do
      match ← build with
      | .ok x => pure (.ok x, { s with entries := s.entries.insert k.render x })
      | .error e => pure (.error e, s)
  else do
    pure (← build, s)

/-- A build that counts how often it is run. -/
def counted (built : Except ε β) : StateM Nat (Except ε β) := do
  modify (· + 1)
  return built

/-- How often a call runs its build: once, unless the store is on and holds something. -/
def runs (s : Store β) (k : StoreKey) : Nat := if s.enabled && (s.get? k).isSome then 0 else 1

theorem getOrBuildM_counted (s : Store β) (k : StoreKey) (built : Except ε β) (n : Nat) :
    (s.getOrBuildM k (counted built)).run n = (s.getOrBuild k (fun _ => built), n + s.runs k) := by
  unfold getOrBuildM getOrBuild runs
  cases s.enabled with
  | false => rfl
  | true =>
    cases s.get? k with
    | some x => rfl
    | none => cases built <;> rfl

/-- A call that fails leaves the store. -/
theorem snd_getOrBuild_of_error {s : Store β} {k : StoreKey} {build : Unit → Except ε β} {e : ε}
    (h : (s.getOrBuild k build).1 = .error e) : (s.getOrBuild k build).2 = s := by
  unfold getOrBuild at h ⊢
  split
  · next henabled =>
    rw [if_pos henabled] at h
    cases hget : s.get? k with
    | some x => rfl
    | none =>
      rw [hget] at h
      cases hbuilt : build () with
      | ok x => simp [hbuilt] at h
      | error e' => rfl
  · rfl

/-- What a call gives. -/
theorem fst_getOrBuild (s : Store β) (k : StoreKey) (build : Unit → Except ε β) :
    (s.getOrBuild k build).1 =
      if s.enabled then ((s.get? k).map .ok).getD (build ()) else build () := by
  unfold getOrBuild
  split
  · cases s.get? k with
    | some x => rfl
    | none => cases build () <;> rfl
  · rfl

end Store

/-! ## Handles -/

/-- What a store holds, and the switch of each handle to it. -/
structure Shared (β : Type) where
  entries : Assoc β
  switches : List Bool

namespace Shared

/-- What is done with a shared store. -/
inductive Act (ε β : Type) where
  /-- Clone a handle. -/
  | clone (handle : Nat)
  /-- Ask a handle. -/
  | ask (handle : Nat) (demand : Demand ε β)

/-- The handle of an act. -/
def Act.handle : Act ε β → Nat
  | clone handle => handle
  | ask handle _ => handle

/-- What a call told: its key, its result, and how often it ran its build. -/
structure Told (ε β : Type) where
  key : StoreKey
  result : Except ε β
  runs : Nat

/-- A new store, with one handle. -/
def new (enabled : Bool) : Shared β := ⟨[], [enabled]⟩

/-- How many things are stored. -/
def size (x : Shared β) : Nat := x.entries.length

/-- One act, and what it told if it was a call. Without the handle nothing happens. -/
def step (x : Shared β) : Act ε β → Option (Told ε β) × Shared β
  | .clone handle =>
    match x.switches[handle]? with
    | some enabled => (none, { x with switches := x.switches ++ [enabled] })
    | none => (none, x)
  | .ask handle d =>
    match x.switches[handle]? with
    | some enabled =>
      let ((result, s), runs) :=
        (Store.getOrBuildM ⟨enabled, x.entries⟩ d.key (Store.counted d.built)).run 0
      (some ⟨d.key, result, runs⟩, { x with entries := s.entries })
    | none => (none, x)

/-- The store after acts. -/
def after (x : Shared β) (acts : List (Act ε β)) : Shared β :=
  acts.foldl (fun x act => (x.step act).2) x

/-- What the calls among acts told, in order. -/
def trace (x : Shared β) : List (Act ε β) → List (Told ε β)
  | [] => []
  | act :: acts => (x.step act).1.toList ++ (x.step act).2.trace acts

theorem trace_append (x : Shared β) (acts more : List (Act ε β)) :
    x.trace (acts ++ more) = x.trace acts ++ (x.after acts).trace more := by
  induction acts generalizing x with
  | nil => rfl
  | cons act acts ih =>
    rw [List.cons_append, trace, ih, trace, List.append_assoc]
    rfl

theorem after_append (x : Shared β) (acts more : List (Act ε β)) :
    x.after (acts ++ more) = (x.after acts).after more := List.foldl_append

theorem step_of_dead {x : Shared β} {act : Act ε β} (h : x.switches[act.handle]? = none) :
    x.step act = (none, x) := by
  cases act <;> simp only [Act.handle] at h <;> simp only [step, h]

theorem step_clone {x : Shared β} {handle : Nat} {enabled : Bool}
    (h : x.switches[handle]? = some enabled) :
    x.step (.clone handle : Act ε β) = (none, { x with switches := x.switches ++ [enabled] }) := by
  simp only [step, h]

/-! ## Successes -/

/-- What a call succeeded with, if it was for a key in text. -/
def Told.success? (text : String) (t : Told ε β) : Option β :=
  if t.key.render = text then t.result.toOption else none

/-- The key in text that a call succeeded for. -/
def Told.succeeded? (t : Told ε β) : Option String := t.result.toOption.map fun _ => t.key.render

/-- The first success for a key in text. -/
def firstSuccess? (told : List (Told ε β)) (text : String) : Option β :=
  told.findSome? (Told.success? text)

theorem firstSuccess?_append (told told' : List (Told ε β)) (text : String) :
    firstSuccess? (told ++ told') text =
      (firstSuccess? told text).or (firstSuccess? told' text) := List.findSome?_append

theorem isSome_firstSuccess?_iff {told : List (Told ε β)} {text : String} :
    (firstSuccess? told text).isSome = true ↔ text ∈ told.filterMap Told.succeeded? := by
  unfold firstSuccess?
  rw [List.findSome?_isSome_iff, List.mem_filterMap]
  refine exists_congr fun t => and_congr_right fun _ => ?_
  unfold Told.success? Told.succeeded?
  cases t.result.toOption <;> by_cases h : t.key.render = text <;> simp [h]

/-! ## What every history keeps -/

/-- How a shared store stands to what its calls have told. -/
structure Follows (enabled : Bool) (told : List (Told ε β)) (x : Shared β) : Prop where
  /-- Every handle has the switch of the first. -/
  switches : ∀ b ∈ x.switches, b = enabled
  ascending : x.entries.Ascending
  entries : ∀ text, x.entries.get? text = if enabled then firstSuccess? told text else none

theorem follows_new (enabled : Bool) : Follows enabled ([] : List (Told ε β)) (new enabled) where
  switches b hb := List.mem_singleton.mp hb
  ascending := List.Pairwise.nil
  entries text := by cases enabled <;> rfl

variable {enabled : Bool} {told : List (Told ε β)} {x : Shared β}

/-- A call through any handle is one to the store with the common switch. -/
theorem Follows.step_ask (h : Follows enabled told x) {handle : Nat}
    (hlive : handle < x.switches.length) (d : Demand ε β) :
    x.step (.ask handle d) =
      (some ⟨d.key, (Store.getOrBuild ⟨enabled, x.entries⟩ d.key fun _ => d.built).1,
          Store.runs ⟨enabled, x.entries⟩ d.key⟩,
        { x with entries :=
            (Store.getOrBuild ⟨enabled, x.entries⟩ d.key fun _ => d.built).2.entries }) := by
  have hswitch : x.switches[handle]? = some enabled := by
    rw [List.getElem?_eq_getElem hlive, h.switches _ (List.getElem_mem hlive)]
  unfold step
  simp only [hswitch, Store.getOrBuildM_counted, Nat.zero_add]

/-- A call keeps it. -/
theorem Follows.ask (h : Follows enabled told x) {handle : Nat}
    (hlive : handle < x.switches.length) (d : Demand ε β) :
    Follows enabled (told ++ (x.step (.ask handle d)).1.toList) (x.step (.ask handle d)).2 := by
  rw [h.step_ask hlive d]
  cases enabled with
  | false =>
    rw [Store.getOrBuild_of_disabled d.key _ rfl]
    exact ⟨h.switches, h.ascending, h.entries⟩
  | true =>
    have hentries : ∀ text, x.entries.get? text = firstSuccess? told text := h.entries
    have hkey : Store.get? ⟨true, x.entries⟩ d.key = firstSuccess? told d.key.render :=
      hentries d.key.render
    unfold Store.getOrBuild
    simp only [if_true, hkey]
    cases hfirst : firstSuccess? told d.key.render with
    | some y =>
      refine ⟨h.switches, h.ascending, fun text => ?_⟩
      -- the new success is not the first
      rw [if_pos rfl, firstSuccess?_append, hentries]
      by_cases htext : d.key.render = text
      · rw [← htext, hfirst, Option.some_or]
      · simp [firstSuccess?, Told.success?, htext]
    | none =>
      cases hbuilt : d.built with
      | error e =>
        refine ⟨h.switches, h.ascending, fun text => ?_⟩
        rw [if_pos rfl, firstSuccess?_append, hentries]
        simp [firstSuccess?, Told.success?, Except.toOption]
      | ok y =>
        refine ⟨h.switches, h.ascending.insert _ _, fun text => ?_⟩
        rw [if_pos rfl, firstSuccess?_append, Assoc.get?_insert, hentries]
        by_cases htext : d.key.render = text
        · rw [if_pos htext, ← htext, hfirst]
          simp [firstSuccess?, Told.success?, Except.toOption]
        · rw [if_neg htext]
          simp [firstSuccess?, Told.success?, htext]

/-- Every act keeps it. -/
theorem Follows.step (h : Follows enabled told x) (act : Act ε β) :
    Follows enabled (told ++ (x.step act).1.toList) (x.step act).2 := by
  cases hswitch : x.switches[act.handle]? with
  | none =>
    rw [step_of_dead hswitch]
    exact (List.append_nil told).symm ▸ h
  | some b =>
    cases act with
    | clone handle =>
      have hclone : x.switches[handle]? = some b := hswitch
      rw [step_clone hclone]
      refine ⟨fun b' hb' => ?_, h.ascending, (List.append_nil told).symm ▸ h.entries⟩
      rcases List.mem_append.mp hb' with hb' | hb'
      · exact h.switches b' hb'
      · obtain rfl := List.mem_singleton.mp hb'
        exact h.switches b' (List.mem_of_getElem? hswitch)
    | ask handle d =>
      obtain ⟨hlive, -⟩ := List.getElem?_eq_some_iff.mp hswitch
      exact h.ask hlive d

/-- **Every history keeps it.** -/
theorem follows_after (enabled : Bool) (acts : List (Act ε β)) :
    Follows enabled ((new enabled).trace acts) ((new enabled).after acts) := by
  induction acts using List.reverseRecOn with
  | nil => exact follows_new enabled
  | append_singleton acts act ih =>
    rw [trace_append, after_append]
    simpa [trace, after] using ih.step act

/-- As many things are stored as there are keys in text with a success. -/
theorem Follows.size_eq (h : Follows true told x) :
    x.size = (told.filterMap Told.succeeded?).dedup.length := by
  have hnodup : x.entries.keys.Nodup := h.ascending.nodup
  have hmem : ∀ text, text ∈ x.entries.keys ↔ text ∈ (told.filterMap Told.succeeded?).dedup := by
    intro text
    rw [← Assoc.contains_iff_mem_keys, Assoc.contains_eq, h.entries, if_pos rfl,
      isSome_firstSuccess?_iff, List.mem_dedup]
  have hperm := (List.perm_ext_iff_of_nodup hnodup (List.nodup_dedup _)).mpr hmem
  rw [← hperm.length_eq, size, Assoc.keys, List.length_map]

theorem Follows.size_eq_zero (h : Follows false told x) : x.size = 0 := by
  cases hentries : x.entries with
  | nil => rw [size, hentries]; rfl
  | cons e entries =>
    have hnone := h.entries e.1
    rw [hentries, Assoc.get?_cons, if_pos rfl] at hnone
    cases hnone

/-- What is stored stays, whatever is done next. -/
theorem get?_after_append {enabled : Bool} {acts more : List (Act ε β)} {text : String} {y : β}
    (h : ((new enabled).after acts : Shared β).entries.get? text = some y) :
    ((new enabled).after (acts ++ more) : Shared β).entries.get? text = some y := by
  rw [(follows_after enabled (acts ++ more)).entries, trace_append, firstSuccess?_append]
  rw [(follows_after enabled acts).entries] at h
  cases enabled with
  | false => cases h
  | true =>
    rw [if_pos rfl] at h ⊢
    rw [h, Option.some_or]

/-! ## Calls after a history -/

/-- A call runs its build exactly if none has succeeded for its key in text. -/
theorem Follows.runs_eq_one_iff (h : Follows true told x) (k : StoreKey) :
    Store.runs ⟨true, x.entries⟩ k = 1 ↔
      ∀ t ∈ told, t.key.render = k.render → ∀ y, t.result ≠ .ok y := by
  have hkey : Store.get? ⟨true, x.entries⟩ k = firstSuccess? told k.render := h.entries k.render
  have hnone : Store.runs ⟨true, x.entries⟩ k = 1 ↔ firstSuccess? told k.render = none := by
    unfold Store.runs
    rw [hkey]
    cases firstSuccess? told k.render <;> simp
  rw [hnone, firstSuccess?, List.findSome?_eq_none_iff]
  refine forall_congr' fun t => forall_congr' fun _ => ?_
  unfold Told.success?
  by_cases htext : t.key.render = k.render
  · cases t.result <;> simp [htext, Except.toOption]
  · simp [htext]

/--
**What a call gets after a history of a shared store**, through any handle. With the switch on, the
build is run exactly if no call for the key in text has succeeded yet. A call that succeeds gets
what the first success for that text gave, which is its own if it is the first; one that runs its
build gets what that gives, and a failure leaves the store as it is. What is stored stays, whatever
is done next, and there are as many things as keys in text with a success. With the switch off every
call runs its build and nothing is stored.
-/
theorem ask_after (enabled : Bool) (acts : List (Act ε β)) (handle : Nat)
    (hlive : handle < ((new enabled).after acts : Shared β).switches.length) (d : Demand ε β) :
    let x : Shared β := (new enabled).after acts
    let told := (new enabled).trace acts
    ∃ result runs x', x.step (.ask handle d) = (some ⟨d.key, result, runs⟩, x') ∧
      (runs = 0 ∨ runs = 1) ∧ (runs = 1 → result = d.built) ∧
      (enabled = true →
        (runs = 1 ↔ ∀ t ∈ told, t.key.render = d.key.render → ∀ y, t.result ≠ .ok y) ∧
        (∀ y, result = .ok y ↔
          firstSuccess? (told ++ [⟨d.key, result, runs⟩]) d.key.render = some y) ∧
        (∀ e, result = .error e → x' = x) ∧
        (∀ (more : List (Act ε β)) text y, x.entries.get? text = some y →
          (x.after more).entries.get? text = some y) ∧
        x.size = (told.filterMap Told.succeeded?).dedup.length) ∧
      (enabled = false → runs = 1 ∧ x.size = 0) := by
  intro x told
  have hfollows : Follows enabled told x := follows_after enabled acts
  have hstep := hfollows.step_ask hlive d
  have hnext := hfollows.ask hlive d
  rw [hstep] at hnext
  refine ⟨_, _, _, hstep, ?_, ?_, ?_, ?_⟩
  · unfold Store.runs
    split <;> simp
  · intro hruns
    rw [Store.fst_getOrBuild]
    unfold Store.runs at hruns
    cases enabled with
    | false => rfl
    | true => cases hget : Store.get? ⟨true, x.entries⟩ d.key <;> simp [hget] at hruns ⊢
  · rintro rfl
    refine ⟨hfollows.runs_eq_one_iff d.key, fun y => ?_, fun e he => ?_, fun more text y hy => ?_,
      hfollows.size_eq⟩
    · have hkey : Store.get? ⟨true, x.entries⟩ d.key = firstSuccess? told d.key.render :=
        hfollows.entries d.key.render
      rw [firstSuccess?_append]
      simp only [Store.fst_getOrBuild, if_true, hkey]
      cases firstSuccess? told d.key.render with
      | some z => simp
      | none =>
        -- the call is the first that succeeds, if it does
        cases d.built <;> simp [firstSuccess?, Told.success?, Except.toOption]
    · rw [Store.snd_getOrBuild_of_error he]
    · rw [← after_append]
      exact get?_after_append hy
  · rintro rfl
    exact ⟨rfl, hfollows.size_eq_zero⟩

/-- A store is cloned and asked for a key twice: the first build fails, that of the clone does not.
-/
def retried : List (Act String Nat) := [
  .clone 0,
  .ask 0 ⟨⟨Method.get, "/a", "b-c"⟩, .error "no"⟩,
  .ask 1 ⟨⟨Method.get, "/a", "b-c"⟩, .ok 1⟩]

/-- The first handle then gets what the clone built, for another key with that text as well. -/
theorem ask_after_retried :
    ∃ (t : Told String Nat) (x' : Shared Nat),
      ((new true).after retried).step (.ask 0 ⟨⟨Method.get, "/a-b", "c"⟩, .ok 2⟩) = (some t, x') ∧
        t.result = .ok 1 ∧ t.runs ≠ 1 := by
  obtain ⟨result, runs, x', hstep, -, -, hon, -⟩ := ask_after true retried 0
    (by decide +kernel) ⟨⟨Method.get, "/a-b", "c"⟩, .ok 2⟩
  obtain ⟨hruns, hresult, -⟩ := hon rfl
  refine ⟨_, x', hstep, (hresult 1).mpr rfl, fun hone => ?_⟩
  exact hruns.mp hone ⟨⟨Method.get, "/a", "b-c"⟩, .ok 1, 1⟩
    (List.mem_cons_of_mem _ List.mem_cons_self) (by decide) 1 rfl

end Shared

end ApiContract
