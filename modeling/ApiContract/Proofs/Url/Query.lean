import ApiContract.Proofs.Assoc.Ascending
import ApiContract.Proofs.Url.Form
import Mathlib.Data.List.Induction
import Mathlib.Data.List.TakeWhile
/-!
# Reading the query of a target

A target that carries a form is read as the pairs of the form. Under a name stands what its values
are gathered to, in their order and whatever the other pairs are: one value as a text, several as an
array.
-/

namespace ApiContract

namespace Query

/-! ## Gathering -/

/-- The values under a name, in order. -/
def valuesUnder (name : String) (pairs : List (String × String)) : List String :=
  (pairs.filter (·.1 = name)).map (·.2)

/-- What values are gathered to. -/
def gathered : List String → Option Json
  | [] => none
  | [s] => some (.string s)
  | ss => some (.array (ss.map .string))

theorem valuesUnder_concat (name : String) (pairs : List (String × String))
    (pair : String × String) : valuesUnder name (pairs ++ [pair]) =
      if pair.1 = name then valuesUnder name pairs ++ [pair.2] else valuesUnder name pairs := by
  unfold valuesUnder
  rw [List.filter_append, List.map_append]
  split
  · next h => rw [List.filter_cons_of_pos (by simpa using h)]; rfl
  · next h => rw [List.filter_cons_of_neg (by simpa using h)]; exact List.append_nil _

/-- One more value. -/
theorem get?_collect {m : Assoc Json} {pair : String × String} {ss : List String}
    (h : m.get? pair.1 = gathered ss) :
    (collect m pair).get? pair.1 = gathered (ss ++ [pair.2]) := by
  unfold collect
  match ss with
  | [] => rw [h]; exact Assoc.get?_insert_self _ _ _
  | [s] => rw [h]; exact Assoc.get?_insert_self _ _ _
  | s :: t :: ss =>
    rw [h]
    refine (Assoc.get?_insert_self _ _ _).trans ?_
    simp [gathered]

theorem get?_collect_of_ne {m : Assoc Json} {pair : String × String} {name : String}
    (h : pair.1 ≠ name) : (collect m pair).get? name = m.get? name := by
  unfold collect
  split <;> exact Assoc.get?_insert_of_ne _ _ h

/-- **Under a name stands what its values are gathered to.** -/
theorem get?_foldl_collect (pairs : List (String × String)) (name : String) :
    Assoc.get? (pairs.foldl collect []) name = gathered (valuesUnder name pairs) := by
  induction pairs using List.reverseRecOn with
  | nil => rfl
  | append_singleton pairs pair ih =>
    rw [List.foldl_append, valuesUnder_concat, List.foldl_cons, List.foldl_nil]
    split
    · next h =>
      subst h
      exact get?_collect ih
    · next h => rw [get?_collect_of_ne h, ih]

theorem ascending_collect {m : Assoc Json} (h : m.Ascending) (pair : String × String) :
    (collect m pair).Ascending := by
  unfold collect
  split <;> exact h.insert _ _

/-- A query is read into ascending keys. -/
theorem ascending_parse (target : String) : (parse target).Ascending := by
  unfold parse
  generalize decodeForm (queryOf target.toList) = pairs
  have hrun : ∀ m : Assoc Json, m.Ascending → (pairs.foldl collect m).Ascending := by
    induction pairs with
    | nil => exact fun _ h => h
    | cons pair pairs ih => exact fun _ h => ih _ (ascending_collect h pair)
  exact hrun [] List.Pairwise.nil

/-! ## Targets -/

/-- Whether a text is the query of a target: it stands between the first question mark and the next
number sign, and it is empty where there is no question mark. -/
def IsQueryOf (target query : List Char) : Prop :=
  ('?' ∉ target ∧ query = []) ∨
    ∃ path fragment : List Char, '?' ∉ path ∧ '#' ∉ query ∧ (∀ c ∈ fragment.head?, c = '#') ∧
      target = path ++ '?' :: (query ++ fragment)

/-- **The query of a target is what is read of it.** -/
theorem isQueryOf_iff {target query : List Char} :
    IsQueryOf target query ↔ queryOf target = query := by
  constructor
  · rintro (⟨hnone, rfl⟩ | ⟨path, fragment, hpath, hquery, hfragment, rfl⟩)
    · rcases Text.splitOnce?_cases '?' target with ⟨-, hcut⟩ | ⟨front, rest, rfl, -, -⟩
      · rw [queryOf, hcut]
      · exact absurd (by simp) hnone
    · rw [queryOf, Text.splitOnce?_append hpath]
      exact (Text.before_append_of_head query hfragment).trans (Text.before_of_not_mem hquery)
  · rintro rfl
    rcases Text.splitOnce?_cases '?' target with ⟨hnone, hcut⟩ | ⟨path, rest, htarget, hpath, hcut⟩
    · exact Or.inl ⟨hnone, by rw [queryOf, hcut]⟩
    · have hquery : queryOf target = Text.before (· = '#') rest := by rw [queryOf, hcut]
      obtain ⟨fragment, hfragment, hrest⟩ := Text.exists_before_append '#' rest
      rw [hquery]
      refine Or.inr ⟨path, fragment, hpath, Text.not_mem_before '#' rest, hfragment, ?_⟩
      rw [← hrest, htarget]

/-- Whether a target has values under a name, in this order and however they are written. -/
def HasValues (target name : String) (values : List String) : Prop :=
  ∃ query, IsQueryOf target.toList query ∧ valuesUnder name (decodeForm query) = values

theorem get?_parse_of_hasValues {target name : String} {values : List String}
    (h : HasValues target name values) : (parse target).get? name = gathered values := by
  obtain ⟨query, hquery, rfl⟩ := h
  obtain rfl := isQueryOf_iff.mp hquery
  exact get?_foldl_collect _ name

/-- Whether a target carries pairs: its query is their form, as it is written, with a fragment
behind it or none. -/
def Carries (target : String) (pairs : List (String × String)) : Prop :=
  ∃ path fragment : List Char, '?' ∉ path ∧ (∀ c ∈ fragment.head?, c = '#') ∧
    target.toList = path ++ '?' :: (encodeForm pairs ++ fragment)

theorem queryOf_of_carries {target : String} {pairs : List (String × String)}
    (h : Carries target pairs) : queryOf target.toList = encodeForm pairs := by
  obtain ⟨path, fragment, hpath, hfragment, htarget⟩ := h
  exact isQueryOf_iff.mp
    (Or.inr ⟨path, fragment, hpath, not_mem_encodeForm pairs, hfragment, htarget⟩)

/-- A target that carries pairs has their values under each name. -/
theorem hasValues_of_carries {target : String} {pairs : List (String × String)}
    (h : Carries target pairs) (name : String) : HasValues target name (valuesUnder name pairs) :=
  ⟨encodeForm pairs, isQueryOf_iff.mpr (queryOf_of_carries h), by rw [decodeForm_encodeForm]⟩

/-- **The pairs that a target carries are read.** -/
theorem get?_parse_of_carries {target : String} {pairs : List (String × String)}
    (h : Carries target pairs) (name : String) :
    (parse target).get? name = gathered (valuesUnder name pairs) :=
  get?_parse_of_hasValues (hasValues_of_carries h name)

end Query

end ApiContract
