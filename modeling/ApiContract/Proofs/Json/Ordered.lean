import ApiContract.Contract.Basic
import ApiContract.Proofs.Assoc.Ascending
/-!
# Values in ascending order

A value is ordered when every object in it has ascending keys. Then so is every part of it that a
pointer or a reference leads to.
-/

namespace ApiContract

namespace Json

mutual

/-- Whether every object in a value has ascending keys. -/
def isOrdered : Json → Bool
  | .array items => areOrdered items
  | .object members => decide (Assoc.Ascending members) && haveOrdered members
  | _ => true

def areOrdered : List Json → Bool
  | [] => true
  | v :: vs => isOrdered v && areOrdered vs

def haveOrdered : List (String × Json) → Bool
  | [] => true
  | (_, v) :: rest => isOrdered v && haveOrdered rest

end

theorem isOrdered_array_iff {items : List Json} :
    (Json.array items).isOrdered = true ↔ ∀ v ∈ items, v.isOrdered = true := by
  rw [isOrdered]
  induction items with
  | nil => simp [areOrdered]
  | cons v vs ih => rw [areOrdered, Bool.and_eq_true, ih, List.forall_mem_cons]

/-- The values of a map. -/
theorem haveOrdered_iff {members : List (String × Json)} :
    haveOrdered members = true ↔ ∀ e ∈ members, e.2.isOrdered = true := by
  induction members with
  | nil => simp [haveOrdered]
  | cons e rest ih => rw [haveOrdered, Bool.and_eq_true, ih, List.forall_mem_cons]

theorem isOrdered_object_iff {members : Assoc Json} :
    (Json.object members).isOrdered = true ↔
      members.Ascending ∧ ∀ e ∈ members, e.2.isOrdered = true := by
  rw [isOrdered, Bool.and_eq_true, decide_eq_true_eq, haveOrdered_iff]

/-! ## Parts -/

theorem isOrdered_of_get? {members : Assoc Json} {key : String} {v : Json}
    (h : (Json.object members).isOrdered = true) (hv : members.get? key = some v) :
    v.isOrdered = true :=
  (isOrdered_object_iff.mp h).2 _ (Assoc.mem_of_get? hv)

theorem isOrdered_of_member? {v w : Json} {key : String} (h : v.isOrdered = true)
    (hw : v.member? key = some w) : w.isOrdered = true := by
  cases v with
  | object members => exact isOrdered_of_get? h hw
  | _ => simp [member?, asObject?] at hw

theorem isOrdered_insert {members : Assoc Json} {key : String} {v : Json}
    (h : (Json.object members).isOrdered = true) (hv : v.isOrdered = true) :
    (Json.object (members.insert key v)).isOrdered = true := by
  obtain ⟨hascending, hmembers⟩ := isOrdered_object_iff.mp h
  refine isOrdered_object_iff.mpr ⟨hascending.insert key v, fun e he => ?_⟩
  rcases Assoc.mem_insert he with rfl | he
  · exact hv
  · exact hmembers e he

theorem isOrdered_of_child? {v w : Json} {segment : List Char} (h : v.isOrdered = true)
    (hw : Pointer.child? v segment = some w) : w.isOrdered = true := by
  unfold Pointer.child? at hw
  split at hw
  · exact isOrdered_of_get? h hw
  · obtain ⟨n, -, hn⟩ := Option.bind_eq_some_iff.mp hw
    exact isOrdered_array_iff.mp h w (List.mem_of_getElem? hn)
  · cases hw

theorem isOrdered_of_find? {v w : Json} {pointer : List Char} (h : v.isOrdered = true)
    (hw : Pointer.find? v pointer = some w) : w.isOrdered = true := by
  unfold Pointer.find? at hw
  split at hw
  · exact Option.some.inj hw ▸ h
  · next cs =>
    generalize Text.splitOn '/' cs = segments at hw
    induction segments generalizing v with
    | nil => exact Option.some.inj hw ▸ h
    | cons segment segments ih =>
      rw [List.foldlM_cons] at hw
      obtain ⟨u, hu, hw⟩ := Option.bind_eq_some_iff.mp hw
      exact ih (isOrdered_of_child? h hu) hw
  · cases hw

end Json

/-- **What a reference leads to is ordered as the contract is.** -/
theorem Contract.isOrdered_of_resolve {c : Contract} (hc : c.document.isOrdered = true) {v w : Json}
    (hv : v.isOrdered = true) (h : c.resolve v = .ok w) : w.isOrdered = true := by
  unfold resolve at h
  split at h
  · unfold resolveReference at h
    split at h
    · split at h
      · next u hu => exact Except.ok.inj h ▸ Json.isOrdered_of_find? hc hu
      · cases h
    · cases h
  · exact Except.ok.inj h ▸ hv

end ApiContract
