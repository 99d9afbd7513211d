/-!
# Finite maps with text keys

A map is the list of its entries in ascending order of their keys, each key once. Keys are ordered
by code point, which is also the order of their bytes in UTF-8. Every operation here keeps the
order, so a map has one representation and walking it needs no sorting.
-/

namespace ApiContract

/-- The entries of a map, ascending by key. -/
abbrev Assoc (β : Type) := List (String × β)

namespace Assoc

variable {β γ : Type}

/-- The value under a key. -/
def get? : Assoc β → String → Option β
  | [], _ => none
  | (k, v) :: m, key => if k = key then some v else get? m key

/-- Whether a key has an entry. -/
def contains (m : Assoc β) (key : String) : Bool := (get? m key).isSome

/-- Put a value under a key, in its place in the order; an entry under that key is replaced. -/
def insert : Assoc β → String → β → Assoc β
  | [], key, value => [(key, value)]
  | (k, v) :: m, key, value =>
    if key < k then (key, value) :: (k, v) :: m
    else if key = k then (key, value) :: m
    else (k, v) :: insert m key value

/-- Drop the entry under a key. -/
def erase (m : Assoc β) (key : String) : Assoc β := m.filter fun e => e.1 ≠ key

/-- The keys, ascending. -/
def keys (m : Assoc β) : List String := m.map (·.1)

/-- Put entries in one after the other, so that of two with one key the later stays. -/
def insertAll (m : Assoc β) (entries : List (String × β)) : Assoc β :=
  entries.foldl (fun m e => insert m e.1 e.2) m

/-- The map of a list of entries; of two with one key the later stays. -/
def ofList (entries : List (String × β)) : Assoc β := insertAll [] entries

/-- Change the value under a key, if there is one. -/
def modify (m : Assoc β) (key : String) (f : β → β) : Assoc β :=
  m.map fun e => if e.1 = key then (e.1, f e.2) else e

/-! ## What the operations do to a lookup -/

@[simp] theorem get?_nil (key : String) : get? ([] : Assoc β) key = none := rfl

theorem get?_cons (k : String) (v : β) (m : Assoc β) (key : String) :
    get? ((k, v) :: m) key = if k = key then some v else get? m key := rfl

theorem get?_insert (m : Assoc β) (key : String) (value : β) (other : String) :
    get? (insert m key value) other = if key = other then some value else get? m other := by
  induction m with
  | nil => simp [insert, get?_cons]
  | cons e m ih =>
    obtain ⟨k, v⟩ := e
    unfold insert
    split
    · simp [get?_cons]
    · split
      · next h => subst h; simp only [get?_cons]; split <;> simp_all
      · next h =>
        simp only [get?_cons, ih]
        split
        · next hk => subst hk; simp [h]
        · rfl

@[simp] theorem get?_insert_self (m : Assoc β) (key : String) (value : β) :
    get? (insert m key value) key = some value := by simp [get?_insert]

theorem get?_insert_of_ne (m : Assoc β) {key other : String} (value : β) (h : key ≠ other) :
    get? (insert m key value) other = get? m other := by simp [get?_insert, h]

theorem get?_modify (m : Assoc β) (key : String) (f : β → β) (other : String) :
    get? (modify m key f) other = if key = other then (get? m other).map f else get? m other := by
  induction m with
  | nil => simp [modify]
  | cons e m ih =>
    obtain ⟨k, v⟩ := e
    simp only [modify, List.map_cons] at ih ⊢
    by_cases hk : k = key
    · subst hk
      simp only [if_true, get?_cons, ih]
      split <;> simp_all
    · simp only [hk, if_false, get?_cons, ih]
      split
      · next h => subst h; simp [Ne.symm hk]
      · rfl

/-- A changed map has the same keys. -/
@[simp] theorem keys_modify (m : Assoc β) (key : String) (f : β → β) :
    keys (modify m key f) = keys m := by
  simp only [keys, modify, List.map_map]
  refine List.map_congr_left fun e _ => ?_
  simp only [Function.comp]
  split <;> rfl

theorem get?_erase (m : Assoc β) (key other : String) :
    get? (erase m key) other = if key = other then none else get? m other := by
  induction m with
  | nil => simp [erase]
  | cons e m ih =>
    obtain ⟨k, v⟩ := e
    simp only [erase, List.filter_cons, ne_eq, decide_not, Bool.not_eq_true',
      decide_eq_false_iff_not] at ih ⊢
    by_cases hk : k = key
    · subst hk
      simp only [not_true_eq_false, if_false, ih, get?_cons]
      split <;> simp_all
    · simp only [hk, not_false_eq_true, if_true, get?_cons, ih]
      split
      · next h => subst h; simp [Ne.symm hk]
      · rfl

/-- Keeping the entries whose keys have a property. -/
theorem get?_filter_key (m : Assoc β) (keep : String → Bool) (key : String) :
    get? (m.filter fun e => keep e.1) key = if keep key then get? m key else none := by
  induction m with
  | nil => simp
  | cons e m ih =>
    obtain ⟨k, v⟩ := e
    rw [List.filter_cons]
    by_cases hk : k = key
    · subst hk
      split <;> simp_all [get?_cons]
    · split <;> simp [get?_cons, hk, ih]

/-- Changing every value, each in view of its key. -/
theorem get?_mapValues (m : Assoc β) (f : String → β → γ) (key : String) :
    get? (m.map fun e => (e.1, f e.1 e.2)) key = (get? m key).map (f key) := by
  induction m with
  | nil => rfl
  | cons e m ih =>
    obtain ⟨k, v⟩ := e
    simp only [List.map_cons, get?_cons, ih]
    split
    · next h => subst h; rfl
    · rfl

/-! ## Keys -/

theorem contains_eq (m : Assoc β) (key : String) : contains m key = (get? m key).isSome := rfl

theorem contains_insert (m : Assoc β) (key : String) (value : β) (other : String) :
    contains (insert m key value) other = (decide (key = other) || contains m other) := by
  by_cases h : key = other <;> simp [contains, get?_insert, h]

theorem contains_insertAll (m : Assoc β) (entries : List (String × β)) (key : String) :
    contains (insertAll m entries) key = (contains m key || contains entries key) := by
  induction entries generalizing m with
  | nil => simp [insertAll, contains]
  | cons e es ih =>
    obtain ⟨k, v⟩ := e
    rw [show insertAll m ((k, v) :: es) = insertAll (insert m k v) es from rfl, ih,
      contains_insert]
    by_cases h : k = key <;> simp [contains, get?_cons, h]

theorem contains_iff_mem_keys {m : Assoc β} {key : String} :
    contains m key = true ↔ key ∈ keys m := by
  induction m with
  | nil => simp [contains, keys]
  | cons e m ih =>
    obtain ⟨k, v⟩ := e
    simp only [contains, keys, get?_cons, List.map_cons, List.mem_cons] at ih ⊢
    by_cases h : k = key
    · simp [h]
    · simp [h, Ne.symm h, ih]

theorem mem_of_get? {m : Assoc β} {key : String} {value : β} (h : get? m key = some value) :
    (key, value) ∈ m := by
  induction m with
  | nil => simp at h
  | cons e m ih =>
    obtain ⟨k, v⟩ := e
    rw [get?_cons] at h
    split at h
    · next hk => simp only [Option.some.injEq] at h; subst hk h; exact List.mem_cons_self
    · exact List.mem_cons_of_mem _ (ih h)

end Assoc

end ApiContract
