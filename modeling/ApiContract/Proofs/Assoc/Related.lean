import ApiContract.Assoc
import Mathlib.Data.List.Forall2
/-!
# Related maps

Maps with the same keys, in the same order, whose values are related one by one. They answer alike,
and putting in related values keeps them related.
-/

namespace ApiContract

namespace Assoc

variable {β γ : Type} {R : β → γ → Prop} {m : Assoc β} {m' : Assoc γ}

/-- Whether two maps have the same keys in one order, and related values under them. -/
def Rel (R : β → γ → Prop) (m : Assoc β) (m' : Assoc γ) : Prop :=
  List.Forall₂ (fun e e' => e'.1 = e.1 ∧ R e.2 e'.2) m m'

namespace Rel

theorem refl {R : β → β → Prop} (h : ∀ v, R v v) (m : Assoc β) : Rel R m m :=
  List.forall₂_same.mpr fun _ _ => ⟨rfl, h _⟩

theorem imp {S : β → γ → Prop} (h : ∀ v w, R v w → S v w) (hm : Rel R m m') : Rel S m m' :=
  List.Forall₂.imp (fun _ _ he => ⟨he.1, h _ _ he.2⟩) hm

/-- They hold related values under a key, or none. -/
theorem get? (hm : Rel R m m') (key : String) : Option.Rel R (m.get? key) (m'.get? key) := by
  induction hm with
  | nil => exact .none
  | @cons e e' rest rest' he _ ih =>
    obtain ⟨k, v⟩ := e
    obtain ⟨k', v'⟩ := e'
    obtain ⟨rfl, hv⟩ := he
    rw [get?_cons, get?_cons]
    split
    · exact .some hv
    · exact ih

theorem contains_eq (hm : Rel R m m') (key : String) : m'.contains key = m.contains key := by
  have h := hm.get? key
  rw [Assoc.contains_eq, Assoc.contains_eq]
  generalize m.get? key = v, m'.get? key = w at h
  cases h <;> rfl

theorem keys_eq (hm : Rel R m m') : m'.keys = m.keys := by
  induction hm with
  | nil => rfl
  | cons he _ ih => exact congrArg₂ List.cons he.1 ih

theorem insert (hm : Rel R m m') (key : String) {v : β} {v' : γ} (hv : R v v') :
    Rel R (m.insert key v) (m'.insert key v') := by
  induction hm with
  | nil => exact .cons ⟨rfl, hv⟩ .nil
  | @cons e e' rest rest' he hrest ih =>
    obtain ⟨k, w⟩ := e
    obtain ⟨k', w'⟩ := e'
    obtain ⟨rfl, hw⟩ := he
    unfold Assoc.insert
    split
    · exact .cons ⟨rfl, hv⟩ (.cons ⟨rfl, hw⟩ hrest)
    · split
      · exact .cons ⟨rfl, hv⟩ hrest
      · exact .cons ⟨rfl, hw⟩ ih

/-- Changing values alike. -/
theorem modify {f : β → β} {g : γ → γ} (h : ∀ v w, R v w → R (f v) (g w)) (hm : Rel R m m')
    (key : String) : Rel R (m.modify key f) (m'.modify key g) := by
  unfold Rel Assoc.modify
  rw [List.forall₂_map_left_iff, List.forall₂_map_right_iff]
  refine List.Forall₂.imp (fun e e' he => ?_) hm
  rw [he.1]
  split
  · exact ⟨rfl, h _ _ he.2⟩
  · exact he

end Rel

end Assoc

end ApiContract
