import ApiContract.Proofs.Schema.Congruence
/-!
# The references that reading tells

Reading a schema tells every reference that stands in what it reads, and no others than those the
text holds under `$ref`. What a reference leads to is a part of the document, so the references of a
document bound all that can be met on the way.
-/

namespace ApiContract

namespace Schema

/-! ## The references of a text -/

mutual

/-- The texts under `$ref` anywhere in a value. -/
def refs : Json → List String
  | .array items => refsOfItems items
  | .object members => refsOfMembers members
  | _ => []

def refsOfItems : List Json → List String
  | [] => []
  | v :: vs => refs v ++ refsOfItems vs

def refsOfMembers : List (String × Json) → List String
  | [] => []
  | (k, v) :: rest =>
    (if k = "$ref" then v.asString?.toList else []) ++ refs v ++ refsOfMembers rest

end

mutual

/-- Counting references counts the texts, and more. -/
theorem length_refs_le : (v : Json) → (refs v).length ≤ countReferences v
  | .array items => length_refsOfItems_le items
  | .object members => length_refsOfMembers_le members
  | .null => Nat.le_refl _
  | .bool _ => Nat.le_refl _
  | .number _ => Nat.le_refl _
  | .string _ => Nat.le_refl _

theorem length_refsOfItems_le : (items : List Json) →
    (refsOfItems items).length ≤ countReferencesOfItems items
  | [] => Nat.le_refl _
  | v :: vs => by
    have hv := length_refs_le v
    have hvs := length_refsOfItems_le vs
    simp only [refsOfItems, countReferencesOfItems, List.length_append]
    omega

theorem length_refsOfMembers_le : (members : List (String × Json)) →
    (refsOfMembers members).length ≤ countReferencesOfMembers members
  | [] => Nat.le_refl _
  | (k, v) :: rest => by
    have hv := length_refs_le v
    have hrest := length_refsOfMembers_le rest
    have hown : (if k = "$ref" then v.asString?.toList else []).length ≤
        if k = "$ref" then 1 else 0 := by
      split
      · cases v.asString? <;> simp
      · exact Nat.le_refl _
    simp only [refsOfMembers, countReferencesOfMembers, List.length_append]
    omega

end

theorem refs_subset_of_mem_items {items : List Json} {v : Json} (h : v ∈ items) :
    ∀ t ∈ refs v, t ∈ refsOfItems items := by
  induction items with
  | nil => simp at h
  | cons w ws ih =>
    intro t ht
    rw [refsOfItems, List.mem_append]
    rcases List.mem_cons.mp h with rfl | h
    · exact Or.inl ht
    · exact Or.inr (ih h t ht)

theorem refs_subset_of_mem_members {members : List (String × Json)} {k : String} {v : Json}
    (h : (k, v) ∈ members) : ∀ t ∈ refs v, t ∈ refsOfMembers members := by
  induction members with
  | nil => simp at h
  | cons e es ih =>
    obtain ⟨l, w⟩ := e
    intro t ht
    simp only [refsOfMembers, List.mem_append]
    rcases List.mem_cons.mp h with h | h
    · obtain ⟨rfl, rfl⟩ := Prod.mk.inj h
      exact Or.inl (Or.inr ht)
    · exact Or.inr (ih h t ht)

theorem mem_refs_of_ref {members : List (String × Json)} {t : String}
    (h : ("$ref", .string t) ∈ members) : t ∈ refsOfMembers members := by
  induction members with
  | nil => simp at h
  | cons e es ih =>
    obtain ⟨l, w⟩ := e
    simp only [refsOfMembers, List.mem_append]
    rcases List.mem_cons.mp h with h | h
    · obtain ⟨rfl, rfl⟩ := Prod.mk.inj h
      exact Or.inl (Or.inl (by simp [Json.asString?]))
    · exact Or.inr (ih h)

/-! ## Targets are parts of the document -/

theorem refs_subset_of_referenceStep {pointer : String} {v w : Json} {segment : List Char}
    (h : referenceStep pointer v segment = .ok w) : ∀ t ∈ refs w, t ∈ refs v := by
  cases v with
  | array items =>
    simp only [referenceStep] at h
    split at h
    · simp at h
    · split at h
      · next u hu =>
        simp only [Except.ok.injEq] at h
        subst h
        exact refs_subset_of_mem_items (List.mem_of_getElem? hu)
      · simp at h
  | object members =>
    simp only [referenceStep] at h
    split at h
    · next u hu =>
      simp only [Except.ok.injEq] at h
      subst h
      exact refs_subset_of_mem_members (Assoc.mem_of_get? hu)
    · simp at h
  | _ => simp [referenceStep, Json.member?, Json.asObject?] at h

theorem refs_subset_of_foldlM {pointer : String} {segments : List (List Char)} {v w : Json}
    (h : segments.foldlM (referenceStep pointer) v = .ok w) : ∀ t ∈ refs w, t ∈ refs v := by
  induction segments generalizing v with
  | nil =>
    simp only [List.foldlM_nil, pure, Except.pure, Except.ok.injEq] at h
    subst h
    exact fun _ ht => ht
  | cons segment segments ih =>
    rw [List.foldlM_cons] at h
    cases hu : referenceStep pointer v segment with
    | error f => rw [hu] at h; simp [bind, Except.bind] at h
    | ok u =>
      rw [hu] at h
      exact fun t ht => refs_subset_of_referenceStep hu t (ih h t ht)

/-- **A target holds no references but those of its document.** -/
theorem refs_subset_of_resolveReference {root v : Json} {target : String}
    (h : resolveReference root target = .ok v) : ∀ t ∈ refs v, t ∈ refs root := by
  unfold resolveReference at h
  split at h
  · simp only [Except.ok.injEq] at h
    subst h
    exact fun _ ht => ht
  · unfold resolveFragment at h
    split at h
    · simp only [Except.ok.injEq] at h
      subst h
      exact fun _ ht => ht
    · split at h
      · simp at h
      · exact refs_subset_of_foldlM h
    · simp at h
  · simp at h

end Schema

end ApiContract
