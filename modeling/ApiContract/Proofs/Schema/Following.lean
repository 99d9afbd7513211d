import ApiContract.Proofs.Schema.Congruence
/-!
# Following references

How far references may be followed in a row is bounded by fuel. On the way through one value each
reference is followed once, and every step into a part of the value starts anew with a value that is
less deep. So a fuel of so many steps for each level is ample, and more of it changes nothing: two
compiled schemas that share the definitions of some references follow them alike.
-/

namespace ApiContract

namespace Schema

/-- A stronger condition that fails for a member which meets the weaker one is met by fewer. -/
theorem countP_lt_countP {p q : String → Bool} {ks : List String} {t : String} (ht : t ∈ ks)
    (hp : p t = true) (hq : q t = false) (h : ∀ k, q k = true → p k = true) :
    ks.countP q < ks.countP p := by
  induction ks with
  | nil => simp at ht
  | cons k ks ih =>
    have hle : ks.countP q ≤ ks.countP p := List.countP_mono_left fun k _ => h k
    rw [List.countP_cons, List.countP_cons]
    rcases List.mem_cons.mp ht with rfl | ht
    · rw [hp, hq]
      simp only [if_true, Bool.false_eq_true, if_false]
      omega
    · have hlt := ih ht
      have hstep : (if q k = true then 1 else 0) ≤ if p k = true then 1 else 0 := by
        split
        · next hk => exact Nat.le_of_eq (if_pos (h k hk)).symm
        · exact Nat.zero_le _
      omega

namespace Compiled

/-- Whether two compiled schemas define some references alike, and with them all that the
definitions refer to. -/
structure Share (c c' : Compiled) (scope : List String) : Prop where
  dialect : c.dialect = c'.dialect
  defined : ∀ t ∈ scope, ∃ s, c.definitions.get? t = some s ∧ c'.definitions.get? t = some s ∧
    ∀ u ∈ targets s, u ∈ scope

/-- How many references are still to be followed. -/
def pending (c : Compiled) (followed : List String) : Nat :=
  c.definitions.keys.countP fun k => !followed.contains k

theorem pending_le (c : Compiled) (followed : List String) :
    c.pending followed ≤ c.definitions.length :=
  Nat.le_trans List.countP_le_length (by simp [Assoc.keys])

/-- Following a reference leaves fewer to be followed. -/
theorem pending_cons_lt {c : Compiled} {followed : List String} {t : String} {s : Schema}
    (hs : c.definitions.get? t = some s) (ht : followed.contains t = false) :
    c.pending (t :: followed) < c.pending followed := by
  have hmem : t ∈ c.definitions.keys :=
    Assoc.contains_iff_mem_keys.mp (by simp [Assoc.contains_eq, hs])
  refine countP_lt_countP hmem (by simpa using ht) (by simp) fun k hk => ?_
  simp only [List.contains_cons, Bool.not_or, Bool.and_eq_true] at hk
  exact hk.2

/-- Fuel that lasts for a value, given what was followed at it. -/
def Ample (c : Compiled) (followed : List String) (v : Json) (fuel : Nat) : Prop :=
  c.pending followed + (c.definitions.length + 1) * depth v < fuel

theorem ample_followBound (c : Compiled) {v w : Json} (h : depth w ≤ depth v) :
    c.Ample [] w (c.followBound v) := by
  have hp := c.pending_le []
  have hw := Nat.mul_le_mul_left (c.definitions.length + 1) h
  unfold Ample followBound
  rw [Nat.mul_add]
  omega

theorem Ample.mono {c : Compiled} {followed : List String} {v w : Json} {fuel : Nat}
    (h : c.Ample followed v fuel) (hw : depth w ≤ depth v) : c.Ample followed w fuel := by
  have hlevel := Nat.mul_le_mul_left (c.definitions.length + 1) hw
  unfold Ample at h ⊢
  omega

theorem Ample.here {c : Compiled} {followed : List String} {v : Json} {fuel : Nat} {t : String}
    {s : Schema} (h : c.Ample followed v (fuel + 1)) (hs : c.definitions.get? t = some s)
    (ht : followed.contains t = false) : c.Ample (t :: followed) v fuel := by
  have hp := pending_cons_lt hs ht
  unfold Ample at h ⊢
  omega

theorem Ample.below {c : Compiled} {followed : List String} {v w : Json} {fuel : Nat}
    (h : c.Ample followed v (fuel + 1)) (hw : depth w < depth v) : c.Ample [] w fuel := by
  have hp := c.pending_le []
  have hlevel := Nat.mul_le_mul_left (c.definitions.length + 1) (Nat.succ_le_of_lt hw)
  unfold Ample at h ⊢
  rw [Nat.succ_eq_add_one, Nat.mul_add] at hlevel
  omega

/-- Whether a set of references is closed under what is followed at the value itself. -/
def ClosedNear (c : Compiled) (nearby : String → Prop) : Prop :=
  ∀ t s, nearby t → c.definitions.get? t = some s → ∀ u ∈ near s, nearby u

/-- **Shared references are followed alike**, also if what was followed before differs in
references that are not met again at the value. -/
theorem alike_follow {c c' : Compiled} {scope : List String} (h : c.Share c' scope) (fuel : Nat) :
    ∀ (fuel' : Nat) (nearby : String → Prop) (followed followed' : List String) (t : String)
      (p p' : Place) (v : Json), t ∈ scope → nearby t → c.ClosedNear nearby →
      (∀ u, nearby u → followed.contains u = followed'.contains u) →
      c.Ample followed v fuel → c'.Ample followed' v fuel' →
        (c.follow fuel followed t p v).Alike p p' (c'.follow fuel' followed' t p' v) := by
  induction fuel with
  | zero => intro _ _ _ _ _ _ _ _ _ _ _ _ hfuel; exact absurd hfuel (Nat.not_lt_zero _)
  | succ fuel ih =>
    intro fuel' nearby followed followed' t p p' v ht hnear hclosed hfollowed hfuel hfuel'
    cases fuel' with
    | zero => exact absurd hfuel' (Nat.not_lt_zero _)
    | succ fuel' =>
      obtain ⟨s, hs, hs', htargets⟩ := h.defined t ht
      simp only [follow, hs, hs', ← hfollowed t hnear]
      by_cases hf : followed.contains t = true
      · rw [if_pos hf, if_pos hf]
        exact .of_violations rfl
      · rw [if_neg hf, if_neg hf]
        rw [Bool.not_eq_true] at hf
        have hf' := (hfollowed t hnear).symm.trans hf
        -- at the value one reference fewer is pending, and deeper inside all are pending anew
        refine alike_judge s p p' ⟨h.dialect, fun u hu q q' => ?_, fun u hu w hw q q' => ?_⟩
        · have hmore : ∀ k, nearby k → (t :: followed).contains k = (t :: followed').contains k :=
            fun k hk => by rw [List.contains_cons, List.contains_cons, hfollowed k hk]
          exact ih fuel' nearby _ _ u q q' v (htargets u (near_subset_targets s hu))
            (hclosed t s hnear hs u hu) hclosed hmore (hfuel.here hs hf) (hfuel'.here hs' hf')
        · exact ih fuel' (fun _ => True) [] [] u q q' w (htargets u hu) trivial
            (fun _ _ _ _ _ _ => trivial) (fun _ _ => rfl) (hfuel.below hw) (hfuel'.below hw)

/-- Where the same was followed before, they are followed alike. -/
theorem alike_follow_same {c c' : Compiled} {scope : List String} (h : c.Share c' scope)
    {fuel fuel' : Nat} {followed : List String} {t : String} {v : Json} (ht : t ∈ scope)
    (hfuel : c.Ample followed v fuel) (hfuel' : c'.Ample followed v fuel') (p p' : Place) :
    (c.follow fuel followed t p v).Alike p p' (c'.follow fuel' followed t p' v) :=
  alike_follow h fuel fuel' (fun _ => True) followed followed t p p' v ht trivial
    (fun _ _ _ _ _ _ => trivial) (fun _ _ => rfl) hfuel hfuel'

/-- What references mean at the start of judging. -/
def meaning (c : Compiled) (fuel : Nat) : Meaning :=
  ⟨c.dialect, c.follow fuel [], c.follow fuel []⟩

/-- **A schema judges alike** wherever its references and theirs are shared and there is fuel. -/
theorem alike_judge_meaning {c c' : Compiled} {scope : List String} (h : c.Share c' scope)
    {s : Schema} (hs : ∀ t ∈ targets s, t ∈ scope) {v : Json} {fuel fuel' : Nat}
    (hfuel : c.Ample [] v fuel) (hfuel' : c'.Ample [] v fuel') (p p' : Place) :
    (judge (c.meaning fuel) p v s).Alike p p' (judge (c'.meaning fuel') p' v s) := by
  refine alike_judge s p p' ⟨h.dialect, fun u hu q q' => ?_, fun u hu w hw q q' => ?_⟩
  · exact alike_follow_same h (hs u (near_subset_targets s hu)) hfuel hfuel' q q'
  · exact alike_follow_same h (hs u hu) (hfuel.mono (Nat.le_of_lt hw))
      (hfuel'.mono (Nat.le_of_lt hw)) q q'

/-- **A definition judges on its own as it does by reference**, where judging by it does not come to
the reference at the value itself. -/
theorem alike_follow_definition {c c' : Compiled} {scope : List String} (h : c.Share c' scope)
    {s : Schema} (hs : ∀ t ∈ targets s, t ∈ scope) {target : String}
    (htarget : c'.definitions.get? target = some s) {nearby : String → Prop}
    (hclosed : c.ClosedNear nearby) (hnear : ∀ t ∈ near s, nearby t) (hnot : ¬nearby target)
    {v : Json} {fuel fuel' : Nat} (hfuel : c.Ample [] v fuel) (hfuel' : c'.Ample [] v fuel')
    (p p' : Place) :
    (judge (c.meaning fuel) p v s).Alike p p' (c'.follow fuel' [] target p' v) := by
  cases fuel' with
  | zero => exact absurd hfuel' (Nat.not_lt_zero _)
  | succ fuel' =>
    simp only [follow, htarget, List.contains_nil, Bool.false_eq_true, if_false]
    refine alike_judge s p p' ⟨h.dialect, fun t ht q q' => ?_, fun t ht w hw q q' => ?_⟩
    · -- what was followed differs in the reference alone, which is not met again at the value
      refine alike_follow h fuel fuel' nearby [] [target] t q q' v (hs t (near_subset_targets s ht))
        (hnear t ht) hclosed (fun u hu => ?_) hfuel (hfuel'.here htarget rfl)
      have hne : u ≠ target := fun heq => hnot (heq ▸ hu)
      simp [hne]
    · exact alike_follow_same h (hs t ht) (hfuel.mono (Nat.le_of_lt hw)) (hfuel'.below hw) q q'

end Compiled

end Schema

end ApiContract
