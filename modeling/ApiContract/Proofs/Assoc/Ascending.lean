import ApiContract.Assoc
import ApiContract.Proofs.Text.ByteOrder
/-!
# Maps in ascending order

A map keeps its keys in ascending order, each once. Then walking it meets the least key of a kind
first.
-/

namespace ApiContract

namespace Assoc

variable {β : Type}

/-- Whether the keys of a map ascend. -/
def Ascending (m : Assoc β) : Prop := m.keys.Pairwise (· < ·)

instance (m : Assoc β) : Decidable (Ascending m) := inferInstanceAs (Decidable (List.Pairwise _ _))

theorem ascending_cons {e : String × β} {m : Assoc β} :
    Ascending (e :: m) ↔ (∀ key ∈ m.keys, e.1 < key) ∧ Ascending m := List.pairwise_cons

theorem Ascending.nodup {m : Assoc β} (h : m.Ascending) : m.keys.Nodup := by
  refine List.Pairwise.imp (fun hlt heq => ?_) h
  subst heq
  exact String.lt_irrefl _ hlt

theorem get?_eq_none_iff {m : Assoc β} {key : String} : m.get? key = none ↔ key ∉ m.keys := by
  rw [← contains_iff_mem_keys, contains_eq, Bool.not_eq_true, Option.isSome_eq_false_iff,
    Option.isNone_iff_eq_none]

/-- Where no two entries have one key, an entry is what its key finds. -/
theorem get?_eq_some_iff {m : Assoc β} (h : m.keys.Nodup) {key : String} {value : β} :
    m.get? key = some value ↔ (key, value) ∈ m := by
  refine ⟨mem_of_get?, fun hmem => ?_⟩
  induction m with
  | nil => exact absurd hmem List.not_mem_nil
  | cons e m ih =>
    obtain ⟨k, v⟩ := e
    obtain ⟨hk, hm⟩ := List.nodup_cons.mp h
    rw [get?_cons]
    rcases List.mem_cons.mp hmem with heq | hmem
    · obtain ⟨rfl, rfl⟩ := Prod.mk.inj heq
      rw [if_pos rfl]
    · have hne : k ≠ key := by
        rintro rfl
        exact hk (List.mem_map.mpr ⟨_, hmem, rfl⟩)
      rw [if_neg hne, ih hm hmem]

/-- Every entry is the one that its key finds. -/
theorem Ascending.get?_of_mem {m : Assoc β} (h : m.Ascending) {e : String × β} (he : e ∈ m) :
    m.get? e.1 = some e.2 := (get?_eq_some_iff h.nodup).mpr he

theorem mem_keys_insert {m : Assoc β} {key : String} {value : β} {other : String} :
    other ∈ (insert m key value).keys ↔ other = key ∨ other ∈ m.keys := by
  rw [← contains_iff_mem_keys, contains_insert, ← contains_iff_mem_keys, Bool.or_eq_true,
    decide_eq_true_eq, eq_comm]

/-- What is put in is there, and nothing that was not. -/
theorem mem_insert {m : Assoc β} {key : String} {value : β} {e : String × β}
    (h : e ∈ insert m key value) : e = (key, value) ∨ e ∈ m := by
  induction m with
  | nil => exact Or.inl (List.mem_singleton.mp h)
  | cons e' m ih =>
    unfold Assoc.insert at h
    split at h
    · exact List.mem_cons.mp h
    · split at h
      · exact (List.mem_cons.mp h).imp_right (List.mem_cons_of_mem _)
      · rcases List.mem_cons.mp h with rfl | h
        · exact Or.inr List.mem_cons_self
        · exact (ih h).imp_right (List.mem_cons_of_mem _)

theorem Ascending.insert {m : Assoc β} (h : m.Ascending) (key : String) (value : β) :
    (m.insert key value).Ascending := by
  induction m with
  | nil => exact List.pairwise_singleton _ _
  | cons e m ih =>
    obtain ⟨k, v⟩ := e
    obtain ⟨hk, hm⟩ := ascending_cons.mp h
    unfold Assoc.insert
    by_cases hlt : key < k
    · rw [if_pos hlt]
      refine ascending_cons.mpr ⟨fun other hother => ?_, h⟩
      rcases List.mem_cons.mp hother with rfl | hother
      · exact hlt
      · exact String.lt_trans hlt (hk other hother)
    · rw [if_neg hlt]
      by_cases heq : key = k
      · subst heq
        rw [if_pos rfl]
        exact ascending_cons.mpr ⟨hk, hm⟩
      · rw [if_neg heq]
        refine ascending_cons.mpr ⟨fun other hother => ?_, ih hm⟩
        rcases mem_keys_insert.mp hother with rfl | hother
        · exact (Text.lt_or_gt_of_ne heq).resolve_left hlt
        · exact hk other hother

/-- The first key of a kind is the least. -/
theorem Ascending.isLeast_of_find?_keys {m : Assoc β} (h : m.Ascending) {p : String → Bool}
    {key : String} (hfind : m.keys.find? p = some key) :
    Text.IsLeast (fun other => m.contains other = true ∧ p other = true) key := by
  obtain ⟨hp, before, after, hkeys, hbefore⟩ := List.find?_eq_some_iff_append.mp hfind
  refine Text.isLeast_iff.mpr ⟨⟨contains_iff_mem_keys.mpr (by simp [hkeys]), hp⟩, ?_⟩
  rintro other ⟨hother, hpo⟩ hlt
  rw [contains_iff_mem_keys, hkeys, List.mem_append, List.mem_cons] at hother
  unfold Ascending at h
  rw [hkeys] at h
  rcases hother with hother | rfl | hother
  · have hno := hbefore other hother
    simp [hpo] at hno
  · exact String.lt_irrefl _ hlt
  · obtain ⟨-, hcons, -⟩ := List.pairwise_append.mp h
    exact String.lt_asymm hlt ((List.pairwise_cons.mp hcons).1 other hother)

/-- So walking the keys of a map finds the least of a kind, and nothing if there is none. -/
theorem Ascending.find?_keys_eq_some_iff {m : Assoc β} (h : m.Ascending) {p : String → Bool}
    {key : String} :
    m.keys.find? p = some key ↔
      Text.IsLeast (fun other => m.contains other = true ∧ p other = true) key := by
  refine ⟨h.isLeast_of_find?_keys, fun hleast => ?_⟩
  cases hfind : m.keys.find? p with
  | none =>
    have hno := List.find?_eq_none.mp hfind key (contains_iff_mem_keys.mp hleast.1.1)
    exact absurd hleast.1.2 hno
  | some found => rw [(h.isLeast_of_find?_keys hfind).unique hleast]

/-- Of the entries with a key, walking a map meets the one that is looked up. -/
theorem get?_of_find? {m : Assoc β} {p : String → Bool} {e : String × β}
    (h : m.find? (fun e => p e.1) = some e) : m.get? e.1 = some e.2 := by
  induction m with
  | nil => simp at h
  | cons e' m ih =>
    obtain ⟨k, v⟩ := e'
    rw [List.find?_cons] at h
    split at h
    · obtain rfl := Option.some.inj h
      simp [get?_cons]
    · next hk =>
      have hp := List.find?_some h
      rw [get?_cons, if_neg (by rintro rfl; simp [hp] at hk)]
      exact ih h

theorem Ascending.find?_eq_some_iff {m : Assoc β} (h : m.Ascending) {p : String → Bool}
    {key : String} {value : β} :
    m.find? (fun e => p e.1) = some (key, value) ↔
      Text.IsLeast (fun other => m.contains other = true ∧ p other = true) key ∧
        m.get? key = some value := by
  have hkeys : m.keys.find? p = (m.find? fun e => p e.1).map (·.1) := List.find?_map
  rw [← h.find?_keys_eq_some_iff, hkeys]
  constructor
  · intro hfind
    exact ⟨by rw [hfind]; rfl, get?_of_find? hfind⟩
  · rintro ⟨hkey, hvalue⟩
    obtain ⟨⟨key', value'⟩, hfind, rfl⟩ := Option.map_eq_some_iff.mp hkey
    obtain rfl := Option.some.inj ((get?_of_find? hfind).symm.trans hvalue)
    exact hfind

/-! ## One map for each lookup -/

theorem get?_eq_none_of_lt {m : Assoc β} {key : String} (h : ∀ other ∈ m.keys, key < other) :
    m.get? key = none :=
  get?_eq_none_iff.mpr fun hmem => String.lt_irrefl _ (h key hmem)

/-- Two maps are one if they give the same under every key. -/
theorem Ascending.ext {m m' : Assoc β} (h : m.Ascending) (h' : m'.Ascending)
    (hget : ∀ key, m.get? key = m'.get? key) : m = m' := by
  induction m generalizing m' with
  | nil =>
    cases m' with
    | nil => rfl
    | cons e' m' =>
      obtain ⟨k', v'⟩ := e'
      simpa [get?_cons] using hget k'
  | cons e m ih =>
    obtain ⟨k, v⟩ := e
    obtain ⟨hk, hm⟩ := ascending_cons.mp h
    cases m' with
    | nil => simpa [get?_cons] using hget k
    | cons e' m' =>
      obtain ⟨k', v'⟩ := e'
      obtain ⟨hk', hm'⟩ := ascending_cons.mp h'
      have hkey : k = k' := by
        -- else the lesser of the two is in one map alone
        refine Decidable.byContradiction fun hne => ?_
        rcases Text.lt_or_gt_of_ne hne with hlt | hlt
        · have hnone : get? ((k', v') :: m') k = none := by
            refine get?_eq_none_of_lt (List.forall_mem_cons.mpr ⟨hlt, fun other hother => ?_⟩)
            exact String.lt_trans hlt (hk' other hother)
          simpa [get?_cons, hnone] using hget k
        · have hnone : get? ((k, v) :: m) k' = none := by
            refine get?_eq_none_of_lt (List.forall_mem_cons.mpr ⟨hlt, fun other hother => ?_⟩)
            exact String.lt_trans hlt (hk other hother)
          simpa [get?_cons, hnone] using (hget k').symm
      subst hkey
      have hv : v = v' := by simpa [get?_cons] using hget k
      subst hv
      refine congrArg _ (ih hm hm' fun key => ?_)
      by_cases heq : k = key
      · subst heq
        rw [get?_eq_none_of_lt hk, get?_eq_none_of_lt hk']
      · simpa [get?_cons, heq] using hget key

/-- Two maps are one if they have the same entries. -/
theorem Ascending.eq_of_perm {m m' : Assoc β} (h : m.Ascending) (h' : m'.Ascending)
    (hperm : m.Perm m') : m = m' := by
  refine h.ext h' fun key => Option.ext fun value => ?_
  rw [get?_eq_some_iff h.nodup, get?_eq_some_iff h'.nodup]
  exact hperm.mem_iff

theorem Ascending.filter {m : Assoc β} (h : m.Ascending) (p : String × β → Bool) :
    Ascending (m.filter p) :=
  List.Pairwise.sublist (List.filter_sublist.map _) h

theorem Ascending.insertAll {m : Assoc β} (h : m.Ascending) (entries : List (String × β)) :
    (m.insertAll entries).Ascending := by
  induction entries generalizing m with
  | nil => exact h
  | cons e entries ih => exact ih (h.insert e.1 e.2)

/-- What was put in last stays. -/
theorem get?_insertAll (m : Assoc β) {entries : Assoc β} (h : entries.keys.Nodup) (key : String) :
    (m.insertAll entries).get? key = (entries.get? key).or (m.get? key) := by
  induction entries generalizing m with
  | nil => rfl
  | cons e entries ih =>
    obtain ⟨k, v⟩ := e
    obtain ⟨hk, hentries⟩ := List.nodup_cons.mp h
    rw [show m.insertAll ((k, v) :: entries) = (m.insert k v).insertAll entries from rfl,
      ih _ hentries, get?_insert, get?_cons]
    by_cases heq : k = key
    · subst heq
      rw [get?_eq_none_iff.mpr hk]
      simp
    · simp [heq]

/-- The map of a list in which no two entries have one key. -/
theorem get?_ofList_eq_some_iff {entries : Assoc β} (h : entries.keys.Nodup) {key : String}
    {value : β} : (ofList entries).get? key = some value ↔ (key, value) ∈ entries := by
  rw [ofList, get?_insertAll _ h, get?_nil, Option.or_none, get?_eq_some_iff h]

theorem ascending_ofList (entries : List (String × β)) : (ofList entries).Ascending :=
  Ascending.insertAll (m := []) List.Pairwise.nil entries

/-- That map has every entry of the list and no other. -/
theorem perm_ofList {entries : Assoc β} (h : entries.keys.Nodup) : (ofList entries).Perm entries := by
  have hnodup : (ofList entries).keys.Nodup := (ascending_ofList entries).nodup
  have hentries : ∀ {m : Assoc β}, m.keys.Nodup → m.Nodup := fun hm =>
    List.Pairwise.of_map _ (fun _ _ hne heq => hne (congrArg _ heq)) hm
  refine (List.perm_ext_iff_of_nodup (hentries hnodup) (hentries h)).mpr fun e => ?_
  obtain ⟨key, value⟩ := e
  rw [← get?_eq_some_iff hnodup, get?_ofList_eq_some_iff h]

end Assoc

end ApiContract
