import ApiContract.Proofs.Numeral.Rounding
import ApiContract.Yaml.Reader
/-!
# Well-formed trees

A tree is well formed when no key occurs twice in a mapping and its doubles are in normal form. Every
tree that is read from a text is.
-/

namespace ApiContract

namespace Yaml

namespace Tree

/-- Whether no key of a mapping comes again behind it. -/
def KeysDiffer (entries : List (Tree × Tree)) : Prop :=
  entries.Pairwise fun e e' => e.1.same e'.1 = false

instance (entries : List (Tree × Tree)) : Decidable (KeysDiffer entries) :=
  inferInstanceAs (Decidable (List.Pairwise _ _))

mutual

/-- Whether the mappings in a tree, also those in keys, have each key once, and its doubles are in normal
form. -/
def isWellFormed : Tree → Bool
  | .real x => decide x.IsCanonical
  | .sequence items => areWellFormed items
  | .mapping entries => decide (KeysDiffer entries) && haveWellFormed entries
  | .tagged _ content => isWellFormed content
  | _ => true

def areWellFormed : List Tree → Bool
  | [] => true
  | t :: ts => isWellFormed t && areWellFormed ts

def haveWellFormed : List (Tree × Tree) → Bool
  | [] => true
  | (k, t) :: rest => isWellFormed k && isWellFormed t && haveWellFormed rest

end

theorem isWellFormed_sequence_iff {items : List Tree} :
    (Tree.sequence items).isWellFormed = true ↔ ∀ t ∈ items, t.isWellFormed = true := by
  rw [isWellFormed]
  induction items with
  | nil => simp [areWellFormed]
  | cons t ts ih => rw [areWellFormed, Bool.and_eq_true, ih, List.forall_mem_cons]

theorem isWellFormed_mapping_iff {entries : List (Tree × Tree)} :
    (Tree.mapping entries).isWellFormed = true ↔
      KeysDiffer entries ∧
        ∀ e ∈ entries, e.1.isWellFormed = true ∧ e.2.isWellFormed = true := by
  have hhave : haveWellFormed entries = true ↔
      ∀ e ∈ entries, e.1.isWellFormed = true ∧ e.2.isWellFormed = true := by
    induction entries with
    | nil => simp [haveWellFormed]
    | cons e rest ih =>
      rw [haveWellFormed, Bool.and_eq_true, Bool.and_eq_true, ih, List.forall_mem_cons]
  rw [isWellFormed, Bool.and_eq_true, decide_eq_true_eq, hhave]

end Tree

/-! ## Scalars -/

namespace Scalar

theorem isWellFormed_of_int? {cs : List Char} {t : Tree} (h : int? cs = .tree t) :
    t.isWellFormed = true := by
  unfold int? at h
  split at h
  · repeat' split at h
    all_goals cases h
    rfl
  · extract_lets ds at h
    repeat' split at h
    all_goals cases h
    rfl

theorem isWellFormed_of_real? {s : String} {t : Tree} (h : real? s = some t) :
    t.isWellFormed = true := by
  unfold real? at h
  extract_lets cs signed at h
  split at h
  · cases h; rfl
  split at h
  · cases h; rfl
  split at h
  · cases h; rfl
  split at h
  · cases h
  · obtain ⟨x, hx, rfl⟩ := Option.map_eq_some_iff.mp h
    obtain ⟨d, -, hd⟩ := Option.bind_eq_some_iff.mp hx
    exact decide_eq_true (Decimal.isCanonical_of_toBinary64 hd)

theorem isWellFormed_of_plain {s : String} {t : Tree} (h : plain s = .tree t) :
    t.isWellFormed = true := by
  unfold plain at h
  split at h
  · cases h; rfl
  split at h
  · cases h; rfl
  split at h
  · split at h
    · cases h
    split at h
    · next hreal =>
      cases h
      exact isWellFormed_of_real? hreal
    · cases h
  · exact isWellFormed_of_int? h

theorem isWellFormed_of_untagged? {isPlain : Bool} {s : String} {t : Tree}
    (h : untagged? isPlain s = some t) : t.isWellFormed = true := by
  unfold untagged? Meaning.toTree? at h
  split at h
  · split at h
    · next hplain => cases h; exact isWellFormed_of_plain hplain
    · cases h
    · cases h; rfl
  · cases h; rfl

theorem isWellFormed_of_core? {tag s : String} {t : Tree} (h : core? tag s = some t) :
    t.isWellFormed = true := by
  unfold core? at h
  split at h
  · obtain ⟨b, -, rfl⟩ := Option.map_eq_some_iff.mp h
    rfl
  split at h
  · split at h
    · next hint => cases h; exact isWellFormed_of_int? hint
    · cases h
  split at h
  · exact isWellFormed_of_real? h
  split at h
  · split at h <;> cases h
    rfl
  · cases h; rfl

end Scalar

/-! ## Trees of nodes -/

namespace Node

/-- Whether a computation gives only what has a property. -/
def Bounded.Gives {α : Type} (P : α → Prop) (m : Bounded α) : Prop :=
  ∀ n a n', m n = some (a, n') → P a

section Gives

variable {α β : Type} {P : α → Prop} {Q : β → Prop}

theorem Bounded.Gives.pure {a : α} (h : P a) : Bounded.Gives P (pure a) := by
  intro n a' n' h'
  cases h'
  exact h

theorem Bounded.Gives.failure : Bounded.Gives P failure := nofun

theorem Bounded.Gives.lift {o : Option α} (h : ∀ a, o = some a → P a) :
    Bounded.Gives P (monadLift o) := by
  intro n a n' ha
  obtain ⟨b, hb, ha⟩ := Option.bind_eq_some_iff.mp ha
  cases ha
  exact h _ hb

theorem Bounded.Gives.bind {m : Bounded α} {f : α → Bounded β} (hm : m.Gives P)
    (hf : ∀ a, P a → (f a).Gives Q) : Bounded.Gives Q (m >>= f) := by
  intro n b n' hb
  obtain ⟨⟨a, n₁⟩, ha, hb⟩ := Option.bind_eq_some_iff.mp hb
  exact hf a (hm n a n₁ ha) n₁ b n' hb

theorem Bounded.Gives.any (m : Bounded α) : m.Gives fun _ => True := fun _ _ _ _ => trivial

theorem Bounded.Gives.mapM {f : β → Bounded α} (hf : ∀ b, (f b).Gives P) (xs : List β) :
    Bounded.Gives (fun as => ∀ a ∈ as, P a) (xs.mapM f) := by
  induction xs with
  | nil => exact .pure fun _ ha => absurd ha List.not_mem_nil
  | cons x xs ih =>
    rw [List.mapM_cons]
    exact .bind (hf x) fun a ha => .bind ih fun as has => .pure (List.forall_mem_cons.mpr ⟨ha, has⟩)

/-- What a step keeps, a run of steps keeps. -/
theorem Bounded.Gives.foldlM {f : α → β → Bounded α} (hf : ∀ a b, P a → (f a b).Gives P)
    (xs : List β) {a : α} (ha : P a) : Bounded.Gives P (xs.foldlM f a) := by
  induction xs generalizing a with
  | nil => exact .pure ha
  | cons x xs ih =>
    rw [List.foldlM_cons]
    exact .bind (hf a x ha) fun a' ha' => ih ha'

end Gives

theorem isWellFormed_of_scalarTree? {p : Properties} {isPlain : Bool} {s : String} {t : Tree}
    (h : scalarTree? p isPlain s = some t) : t.isWellFormed = true := by
  unfold scalarTree? at h
  split at h
  · exact Scalar.isWellFormed_of_untagged? h
  split at h
  · obtain ⟨t', ht', rfl⟩ := Option.map_eq_some_iff.mp h
    show t'.isWellFormed = true
    exact Scalar.isWellFormed_of_untagged? ht'
  · exact Scalar.isWellFormed_of_core? h

theorem isWellFormed_withTag {p : Properties} {t : Tree} (h : t.isWellFormed = true) :
    (withTag p t).isWellFormed = true := by
  unfold withTag
  split <;> exact h

/-- An entry is added only with a key that is new. -/
theorem isWellFormed_of_addEntry? {entries after : List (Tree × Tree)} {k v : Tree}
    (h : addEntry? entries k v = some after) (hentries : (Tree.mapping entries).isWellFormed = true)
    (hk : k.isWellFormed = true) (hv : v.isWellFormed = true) :
    (Tree.mapping after).isWellFormed = true := by
  unfold addEntry? at h
  split at h
  · cases h
  · next hnew =>
    cases h
    obtain ⟨hdiffer, hparts⟩ := Tree.isWellFormed_mapping_iff.mp hentries
    refine Tree.isWellFormed_mapping_iff.mpr ⟨?_, ?_⟩
    · refine List.pairwise_append.mpr ⟨hdiffer, List.pairwise_singleton _ _, fun e he e' he' => ?_⟩
      rw [List.mem_singleton.mp he']
      have hsame := mt (fun h => List.any_eq_true.mpr ⟨e, he, h⟩) hnew
      exact Bool.eq_false_iff.mpr hsame
    · intro e he
      rcases List.mem_append.mp he with he | he
      · exact hparts e he
      · rw [List.mem_singleton.mp he]
        exact ⟨hk, hv⟩

/-- **What is built of a node is well formed, whatever its aliases lead to.** -/
theorem isWellFormed_build (anchors : List (Nat × Node)) (fuel depth : Nat) (v : Node) :
    Bounded.Gives (fun t => t.isWellFormed = true) (build anchors fuel depth v) := by
  induction fuel generalizing depth v with
  | zero => exact .failure
  | succ fuel ih =>
    match v with
    | .alias anchor =>
      refine .bind (.any _) fun _ _ => ?_
      split
      · exact ih _ _
      · exact .failure
    | .scalar p isPlain s => exact .lift fun t => isWellFormed_of_scalarTree?
    | .sequence p items =>
      cases depth with
      | zero => exact .failure
      | succ depth =>
        refine .bind (.mapM (fun item => ih depth item) items) fun ts hts => .pure ?_
        exact isWellFormed_withTag (Tree.isWellFormed_sequence_iff.mpr hts)
    | .mapping p entries =>
      cases depth with
      | zero => exact .failure
      | succ depth =>
        have hentries : Bounded.Gives (fun done => (Tree.mapping done).isWellFormed = true)
            (entries.foldlM (fun done e => do
              let key ← build anchors fuel depth e.1
              let value ← build anchors fuel depth e.2
              addEntry? done key value) []) := by
          refine .foldlM (fun done e hdone => ?_) entries rfl
          refine .bind (ih depth e.1) fun k hk => .bind (ih depth e.2) fun t ht => ?_
          exact .lift fun after hafter => isWellFormed_of_addEntry? hafter hdone hk ht
        exact .bind hentries fun done hdone => .pure (isWellFormed_withTag hdone)

end Node

/-- **Every tree that is read from a text is well formed.** -/
theorem isWellFormed_of_read? {text : String} {t : Tree} (h : read? text = some t) :
    t.isWellFormed = true := by
  obtain ⟨ts, -, h⟩ := Option.bind_eq_some_iff.mp h
  obtain ⟨v, -, h⟩ := Option.bind_eq_some_iff.mp h
  obtain ⟨⟨t', n⟩, hbuild, rfl⟩ := Option.map_eq_some_iff.mp h
  exact Node.isWellFormed_build _ _ _ v _ _ _ hbuild

end Yaml

end ApiContract
