import ApiContract.Proofs.Schema.Below
/-!
# Judging under two meanings

A schema asks a meaning for the references that stand in it: at the value that is judged for some
of them, and at what is deeper inside it. Where two meanings give these alike verdicts, the schema
has alike verdicts under both, whatever the places.
-/

namespace ApiContract

namespace Schema

/-! ## The references of a schema -/

mutual

/-- The references that stand in a schema. -/
def targets : Schema → List String
  | .always => []
  | .never => []
  | .node keywords => targetsOfAll keywords

def targetsOfAll : List Keyword → List String
  | [] => []
  | k :: ks => targetsOfKeyword k ++ targetsOfAll ks

def targetsOfKeyword : Keyword → List String
  | .reference target => [target]
  | .properties declared => targetsOfFields declared
  | .patternProperties matching => targetsOfPatterns matching
  | .partition declared matching others =>
    targetsOfFields declared ++ targetsOfPatterns matching ++ targets others
  | .closed declared matching => targetsOfFields declared ++ targetsOfPatterns matching
  | .propertyNames names => targets names
  | .items _ each => targets each
  | .tuple _ schemas => targetsOfBranches schemas
  | .additionalItems _ each => targets each
  | .contains each _ _ => targets each
  | .allOf branches => targetsOfBranches branches
  | .anyOf branches => targetsOfBranches branches
  | .oneOf branches => targetsOfBranches branches
  | .not _ schema => targets schema
  | .conditional condition consequence alternative =>
    targets condition ++ targets consequence ++ targets alternative
  | .dependentSchema _ _ schema => targets schema
  | .unevaluatedItems each => targets each
  | .unevaluatedProperties each => targets each
  | _ => []

def targetsOfBranches : List Schema → List String
  | [] => []
  | s :: ss => targets s ++ targetsOfBranches ss

def targetsOfFields : List (String × Schema) → List String
  | [] => []
  | (_, s) :: rest => targets s ++ targetsOfFields rest

def targetsOfPatterns : List (NamedPattern × Schema) → List String
  | [] => []
  | (_, s) :: rest => targets s ++ targetsOfPatterns rest

end

theorem targetsOfAll_eq (ks : List Keyword) : targetsOfAll ks = ks.flatMap targetsOfKeyword := by
  induction ks with
  | nil => rfl
  | cons k ks ih => rw [targetsOfAll, ih, List.flatMap_cons]

theorem targetsOfBranches_eq (ss : List Schema) : targetsOfBranches ss = ss.flatMap targets := by
  induction ss with
  | nil => rfl
  | cons s ss ih => rw [targetsOfBranches, ih, List.flatMap_cons]

theorem targetsOfFields_eq (fields : List (String × Schema)) :
    targetsOfFields fields = fields.flatMap (targets ·.2) := by
  induction fields with
  | nil => rfl
  | cons f fs ih => rw [targetsOfFields, ih, List.flatMap_cons]

theorem targetsOfPatterns_eq (matching : List (NamedPattern × Schema)) :
    targetsOfPatterns matching = matching.flatMap (targets ·.2) := by
  induction matching with
  | nil => rfl
  | cons f fs ih => rw [targetsOfPatterns, ih, List.flatMap_cons]

theorem mem_targets_of_node {ks : List Keyword} {k : Keyword} (hk : k ∈ ks) {t : String}
    (ht : t ∈ targetsOfKeyword k) : t ∈ targets (.node ks) := by
  rw [targets, targetsOfAll_eq]
  exact List.mem_flatMap.mpr ⟨k, hk, ht⟩

theorem mem_targets_of_properties {declared : List (String × Schema)} {f : String × Schema}
    (hf : f ∈ declared) {t : String} (ht : t ∈ targets f.2) :
    t ∈ targetsOfKeyword (.properties declared) := by
  rw [targetsOfKeyword, targetsOfFields_eq]
  exact List.mem_flatMap.mpr ⟨f, hf, ht⟩

theorem mem_targets_of_allOf {branches : List Schema} {s : Schema} (hs : s ∈ branches) {t : String}
    (ht : t ∈ targets s) : t ∈ targetsOfKeyword (.allOf branches) := by
  rw [targetsOfKeyword, targetsOfBranches_eq]
  exact List.mem_flatMap.mpr ⟨s, hs, ht⟩

/-! ## The references that are followed at the value itself -/

mutual

/-- The references of a schema that are followed at the value that it judges. -/
def near : Schema → List String
  | .always => []
  | .never => []
  | .node keywords => nearOfAll keywords

def nearOfAll : List Keyword → List String
  | [] => []
  | k :: ks => nearOfKeyword k ++ nearOfAll ks

def nearOfKeyword : Keyword → List String
  | .reference target => [target]
  | .allOf branches => nearOfBranches branches
  | .anyOf branches => nearOfBranches branches
  | .oneOf branches => nearOfBranches branches
  | .not _ schema => near schema
  | .conditional condition consequence alternative =>
    near condition ++ near consequence ++ near alternative
  | .dependentSchema _ _ schema => near schema
  | _ => []

def nearOfBranches : List Schema → List String
  | [] => []
  | s :: ss => near s ++ nearOfBranches ss

end

theorem append_subset_append {as bs as' bs' : List String} (h : as ⊆ bs) (h' : as' ⊆ bs') :
    as ++ as' ⊆ bs ++ bs' :=
  List.append_subset_of_subset_of_subset (List.Subset.trans h (List.subset_append_left _ _))
    (List.Subset.trans h' (List.subset_append_right _ _))

mutual

theorem near_subset_targets : (s : Schema) → near s ⊆ targets s
  | .always => List.Subset.refl _
  | .never => List.Subset.refl _
  | .node ks => nearOfAll_subset_targets ks

theorem nearOfAll_subset_targets : (ks : List Keyword) → nearOfAll ks ⊆ targetsOfAll ks
  | [] => List.Subset.refl _
  | k :: ks =>
    append_subset_append (nearOfKeyword_subset_targets k) (nearOfAll_subset_targets ks)

theorem nearOfKeyword_subset_targets : (k : Keyword) → nearOfKeyword k ⊆ targetsOfKeyword k
  | .reference _ => List.Subset.refl _
  | .allOf branches => nearOfBranches_subset_targets branches
  | .anyOf branches => nearOfBranches_subset_targets branches
  | .oneOf branches => nearOfBranches_subset_targets branches
  | .not _ schema => near_subset_targets schema
  | .conditional condition consequence alternative =>
    append_subset_append
      (append_subset_append (near_subset_targets condition) (near_subset_targets consequence))
      (near_subset_targets alternative)
  | .dependentSchema _ _ schema => near_subset_targets schema
  | .kind _ | .oneOfValues _ | .constant _ | .bound _ _ | .size _ _ _ | .multipleOf _
  | .pattern _ | .format _ | .required _ | .uniqueItems | .properties _ | .patternProperties _
  | .partition _ _ _ | .closed _ _ | .noProperties | .propertyNames _ | .noPropertyNames
  | .items _ _ | .tuple _ _ | .additionalItems _ _ | .noAdditionalItems _ | .contains _ _ _
  | .dependentNames _ _ _ | .unevaluatedItems _ | .unevaluatedProperties _ =>
    List.nil_subset _

theorem nearOfBranches_subset_targets : (ss : List Schema) →
    nearOfBranches ss ⊆ targetsOfBranches ss
  | [] => List.Subset.refl _
  | s :: ss => append_subset_append (near_subset_targets s) (nearOfBranches_subset_targets ss)

end

/-! ## Depth -/

theorem depth_lt_of_mem_items {v w : Json} {i : Nat} (h : (w, i) ∈ itemsOf v) :
    depth w < depth v := by
  have hle : ∀ items : List Json, w ∈ items → depth w ≤ depthOfItems items := by
    intro items
    induction items with
    | nil => intro h; simp at h
    | cons u us ih =>
      intro h
      rw [depthOfItems]
      rcases List.mem_cons.mp h with rfl | h
      · exact Nat.le_max_left _ _
      · exact Nat.le_trans (ih h) (Nat.le_max_right _ _)
  cases v with
  | array items => exact Nat.lt_succ_of_le (hle items (List.fst_mem_of_mem_zipIdx h))
  | _ => simp [itemsOf, Json.asArray?] at h

theorem depth_lt_of_mem_members {v w : Json} {k : String} (h : (k, w) ∈ membersOf v) :
    depth w < depth v := by
  have hle : ∀ members : List (String × Json), (k, w) ∈ members →
      depth w ≤ depthOfMembers members := by
    intro members
    induction members with
    | nil => intro h; simp at h
    | cons e es ih =>
      obtain ⟨l, u⟩ := e
      intro h
      rw [depthOfMembers]
      rcases List.mem_cons.mp h with h | h
      · obtain ⟨rfl, rfl⟩ := Prod.mk.inj h
        exact Nat.le_max_left _ _
      · exact Nat.le_trans (ih h) (Nat.le_max_right _ _)
  cases v with
  | object members => exact Nat.lt_succ_of_le (hle members h)
  | _ => simp [membersOf, Json.asObject?] at h

/-! ## Meanings that agree -/

/-- Whether two meanings agree: about some references at a value, and about some at what is deeper
inside it. -/
structure Meaning.Agree (m m' : Meaning) (near far : List String) (v : Json) : Prop where
  dialect : m.dialect = m'.dialect
  here : ∀ t ∈ near, ∀ p p', (m.here t p v).Alike p p' (m'.here t p' v)
  below : ∀ t ∈ far, ∀ w, depth w < depth v → ∀ p p', (m.below t p w).Alike p p' (m'.below t p' w)

/-- Whether two meanings agree about the references of a schema. -/
def Meaning.AgreeOn (m m' : Meaning) (s : Schema) (v : Json) : Prop :=
  m.Agree m' (Schema.near s) (targets s) v

namespace Meaning.Agree

variable {m m' : Meaning} {near far near' far' : List String} {v w : Json}

theorem mono (h : m.Agree m' near far v) (hnear : near' ⊆ near) (hfar : far' ⊆ far) :
    m.Agree m' near' far' v :=
  ⟨h.dialect, fun t ht => h.here t (hnear ht), fun t ht => h.below t (hfar ht)⟩

theorem left (h : m.Agree m' (near ++ near') (far ++ far') v) : m.Agree m' near far v :=
  h.mono (List.subset_append_left _ _) (List.subset_append_left _ _)

theorem right (h : m.Agree m' (near ++ near') (far ++ far') v) : m.Agree m' near' far' v :=
  h.mono (List.subset_append_right _ _) (List.subset_append_right _ _)

/-- Agreement goes over to what is inside. -/
theorem inside (h : m.Agree m' near far v) (hw : depth w < depth v) :
    m.inside.Agree m'.inside far far w :=
  ⟨h.dialect, fun t ht => h.below t ht w hw,
    fun t ht u hu => h.below t ht u (Nat.lt_trans hu hw)⟩

/-- Agreement about all references of a schema is more than enough for it. -/
theorem on {s : Schema} (h : m.Agree m' far far v) (hs : targets s ⊆ far) : m.AgreeOn m' s v :=
  h.mono (List.Subset.trans (near_subset_targets s) hs) hs

end Meaning.Agree

/-! ## Judging -/

open Verdict

mutual

-- The recursion is that of the schema. The meanings are asked by references alone; everything else
-- hands the agreement down, to the same value or to a part of it.

/-- **Where meanings agree about the references of a schema, it has alike verdicts.** -/
theorem alike_judge : (s : Schema) → {m m' : Meaning} → {v : Json} → (p p' : Place) →
    m.AgreeOn m' s v → (judge m p v s).Alike p p' (judge m' p' v s)
  | .always, _, _, _, _, _, _ => .of_violations rfl
  | .never, _, _, _, _, _, _ => alike_check ..
  | .node ks, _, _, _, p, p', h => alike_judgeAll ks p p' {} h

theorem alike_judgeAll : (ks : List Keyword) → {m m' : Meaning} → {v : Json} → (p p' : Place) →
    (covered : Coverage) → m.Agree m' (nearOfAll ks) (targetsOfAll ks) v →
      (judgeAll m p v covered ks).Alike p p' (judgeAll m' p' v covered ks)
  | [], _, _, _, _, _, _, _ => .of_violations rfl
  | k :: ks, m, m', v, p, p', covered, h => by
    have hk := alike_judgeKeyword k p p' covered h.left
    simp only [judgeAll]
    -- what is covered so far is the same, so it is the same for the rest
    rw [hk.coverage_eq]
    exact hk.append (alike_judgeAll ks p p' _ h.right)

theorem alike_judgeKeyword : (k : Keyword) → {m m' : Meaning} → {v : Json} → (p p' : Place) →
    (covered : Coverage) → m.Agree m' (nearOfKeyword k) (targetsOfKeyword k) v →
      (judgeKeyword m p v covered k).Alike p p' (judgeKeyword m' p' v covered k)
  | .reference t, _, _, _, _, _, _, h => (h.here t List.mem_cons_self _ _).inPlace.of_under
  | .kind _, _, _, _, _, _, _, h => by
    simp only [judgeKeyword]
    rw [h.dialect]
    exact alike_check_under ..
  | .oneOfValues _, _, _, _, _, _, _, _ => alike_check_under ..
  | .constant _, _, _, _, _, _, _, _ => alike_check_under ..
  | .bound _ _, _, _, v, _, _, _, _ => by
    simp only [judgeKeyword]
    split
    · exact alike_check_under ..
    · exact .of_violations rfl
  | .size _ _ _, _, _, v, _, _, _, _ => by
    simp only [judgeKeyword]
    split
    · exact alike_check_under ..
    · exact .of_violations rfl
  | .multipleOf _, _, _, v, _, _, _, _ => by
    simp only [judgeKeyword]
    split
    · exact alike_check_under ..
    · exact .of_violations rfl
  | .pattern _, _, _, v, _, _, _, _ => by
    simp only [judgeKeyword]
    split
    · exact alike_check_under ..
    · exact .of_violations rfl
  | .format _, _, _, v, _, _, _, h => by
    simp only [judgeKeyword]
    rw [h.dialect]
    split
    · exact alike_check_under ..
    · exact .of_violations rfl
  | .required _, _, _, v, _, _, _, _ => by
    simp only [judgeKeyword]
    split
    · exact alike_join_map fun _ _ => alike_check_under ..
    · exact .of_violations rfl
  | .uniqueItems, _, _, v, _, _, _, _ => by
    simp only [judgeKeyword]
    split
    · exact alike_check_under ..
    · exact .of_violations rfl
  | .properties declared, _, _, _, p, p', _, h =>
    alike_judgeProperties declared p p' fun _ hw => h.inside hw
  | .patternProperties matching, _, _, _, p, p', _, h =>
    alike_judgePatterns matching p p' fun _ hw => h.inside hw
  | .partition declared matching others, m, m', v, p, p', _, h => by
    simp only [judgeKeyword]
    refine alike_join_map fun e he => Alike.append (Alike.ofPart ?_) (.of_violations rfl)
    have hin := h.inside (depth_lt_of_mem_members he)
    have hnamed := alike_judgeNamed declared e.1 p p' hin.left.left
    have hmatched := alike_judgeMatches matching e.1 p p' hin.left.right
    have hothers := alike_judge others ((p.into e.1).under "additionalProperties")
      ((p'.into e.1).under "additionalProperties") (hin.right.on (List.Subset.refl _))
    rw [isEmpty_eq_of_forall₂ hmatched]
    -- the others are judged only where neither a name nor a pattern is found
    rcases alike_option_cases hnamed with ⟨hx, hy⟩ | ⟨x, y, hx, hy, hxy⟩
    · rw [hx, hy]
      simp only
      split
      · exact hothers.of_under.of_into
      · exact alike_join hmatched
    · rw [hx, hy]
      exact hxy.append (alike_join hmatched)
  | .closed declared matching, _, _, _, p, p', _, h => by
    simp only [judgeKeyword]
    refine alike_told fun e he => ?_
    have hin := h.inside (depth_lt_of_mem_members he)
    have hnamed := alike_judgeNamed declared e.1 p p' hin.left
    have hmatched := alike_judgeMatches matching e.1 p p' hin.right
    rw [isEmpty_eq_of_forall₂ hmatched]
    rcases alike_option_cases hnamed with ⟨hx, hy⟩ | ⟨x, y, hx, hy, hxy⟩
    · rw [hx, hy]
      refine ⟨rfl, ?_⟩
      simp only
      split
      · exact .none
      · exact .some (alike_join hmatched)
    · rw [hx, hy]
      exact ⟨rfl, .some (hxy.append (alike_join hmatched))⟩
  | .noProperties, _, _, _, _, _, _, _ => by
    simp only [judgeKeyword]
    split
    · exact .of_violations rfl
    · exact alike_check_under ..
  | .propertyNames names, _, _, v, p, p', _, h => by
    simp only [judgeKeyword]
    refine alike_join_map fun e he => ?_
    have hdepth : depth (.string e.1) < depth v :=
      Nat.lt_of_le_of_lt (Nat.zero_le _) (depth_lt_of_mem_members he)
    have hnames := alike_judge names (p.under "propertyNames") (p'.under "propertyNames")
      ((h.inside hdepth).on (List.Subset.refl _))
    -- the name is told at the object, below the place of the schema
    exact alike_renamed (k := Violation.ofName .root v e.1)
      (fun a => by simp [Violation.ofName, Violation.below, Place.append, Place.root])
      (fun a => by simp [Violation.ofName, Violation.below, Place.append, Place.root])
      hnames.of_under
  | .noPropertyNames, _, _, _, _, _, _, _ => alike_check_under ..
  | .items start each, _, _, _, p, p', _, h => by
    simp only [judgeKeyword]
    refine alike_join_map fun e he => Alike.append (Alike.ofPart ?_) (.of_violations rfl)
    exact (alike_judge each _ _
      ((h.inside (depth_lt_of_mem_items (List.mem_of_mem_drop he))).on
        (List.Subset.refl _))).of_under.of_into
  | .tuple word schemas, _, _, _, p, p', _, h =>
    (alike_judgeTuple schemas _ _ _ (fun _ hw => h.inside hw)
      fun _ he => depth_lt_of_mem_items he).of_under
  | .additionalItems start each, _, _, _, p, p', _, h => by
    simp only [judgeKeyword]
    refine alike_join_map fun e he => Alike.append (Alike.ofPart ?_) (.of_violations rfl)
    exact (alike_judge each _ _
      ((h.inside (depth_lt_of_mem_items (List.mem_of_mem_drop he))).on
        (List.Subset.refl _))).of_under.of_into
  | .noAdditionalItems _, _, _, _, _, _, _, _ => alike_check_under ..
  | .contains each least most, _, _, v, p, p', _, h => by
    simp only [judgeKeyword]
    split
    · next items =>
      have hfound : ∀ e ∈ itemsOf (.array items), _ = _ := fun e he =>
        (alike_judge each ((p.into (toString e.2)).under "contains")
          ((p'.into (toString e.2)).under "contains")
          ((h.inside (depth_lt_of_mem_items he)).on (List.Subset.refl _))).accepted_eq
      rw [List.filter_congr hfound]
      exact (alike_judgeCount ..).append (.of_violations rfl)
    · exact .of_violations rfl
  | .allOf branches, _, _, _, p, p', _, h =>
    (alike_join (forall₂_map_inPlace (alike_judgeBranches branches _ _ 0 h))).of_under
  | .anyOf branches, _, _, _, p, p', _, h => by
    have hxs := forall₂_filter_accepted
      (alike_judgeBranches branches (p.under "anyOf") (p'.under "anyOf") 0 h)
    simp only [judgeKeyword]
    rw [isEmpty_eq_of_forall₂ hxs]
    exact (alike_check_under ..).append (alike_join hxs).of_under
  | .oneOf branches, _, _, _, p, p', _, h => by
    have hxs := forall₂_filter_accepted
      (alike_judgeBranches branches (p.under "oneOf") (p'.under "oneOf") 0 h)
    simp only [judgeKeyword]
    exact (alike_only hxs).of_under
  | .not text schema, _, _, _, p, p', _, h => by
    simp only [judgeKeyword]
    rw [(alike_judge schema _ (p'.under "not") h).accepted_eq]
    exact alike_check_under ..
  | .conditional condition consequence alternative, _, _, _, p, p', _, h => by
    simp only [judgeKeyword]
    have hif := alike_judge condition (p.under "if") (p'.under "if") h.left.left
    have hthen := alike_judge consequence (p.under "then") (p'.under "then") h.left.right
    have helse := alike_judge alternative (p.under "else") (p'.under "else") h.right
    rw [hif.accepted_eq]
    split
    · exact hif.of_under.append hthen.inPlace.of_under
    · exact helse.inPlace.of_under
  | .dependentNames _ _ _, _, _, v, _, _, _, _ => by
    simp only [judgeKeyword]
    split
    · split
      · exact alike_join_map fun _ _ => alike_check_under ..
      · exact .of_violations rfl
    · exact .of_violations rfl
  | .dependentSchema _ _ schema, _, _, _, p, p', _, h => by
    simp only [judgeKeyword]
    split
    · exact (alike_judge schema _ _ h).inPlace.of_under.of_under
    · exact .of_violations rfl
  | .unevaluatedItems each, m, m', v, p, p', covered, h => by
    have hrest : ∀ e ∈ itemsOf v,
        (!covered.items.contains e.2 && !(judge m.inside
          ((p.into (toString e.2)).under "unevaluatedItems") e.1 each).accepted) =
        (!covered.items.contains e.2 && !(judge m'.inside
          ((p'.into (toString e.2)).under "unevaluatedItems") e.1 each).accepted) := by
      intro e he
      rw [(alike_judge each _ ((p'.into (toString e.2)).under "unevaluatedItems")
        ((h.inside (depth_lt_of_mem_items he)).on (List.Subset.refl _))).accepted_eq]
    simp only [judgeKeyword]
    rw [List.filter_congr hrest]
    exact (alike_check_under ..).append (.of_violations rfl)
  | .unevaluatedProperties each, m, m', v, p, p', covered, h => by
    have hrest : ∀ e ∈ membersOf v,
        (!covered.properties.contains e.1 && !(judge m.inside
          ((p.into e.1).under "unevaluatedProperties") e.2 each).accepted) =
        (!covered.properties.contains e.1 && !(judge m'.inside
          ((p'.into e.1).under "unevaluatedProperties") e.2 each).accepted) := by
      intro e he
      rw [(alike_judge each _ ((p'.into e.1).under "unevaluatedProperties")
        ((h.inside (depth_lt_of_mem_members he)).on (List.Subset.refl _))).accepted_eq]
    simp only [judgeKeyword]
    rw [List.filter_congr hrest]
    exact (alike_check_under ..).append (.of_violations rfl)

theorem alike_judgeBranches : (ss : List Schema) → {m m' : Meaning} → {v : Json} →
    (p p' : Place) → (n : Nat) → m.Agree m' (nearOfBranches ss) (targetsOfBranches ss) v →
      List.Forall₂ (Alike p p') (judgeBranches m p v n ss) (judgeBranches m' p' v n ss)
  | [], _, _, _, _, _, _, _ => .nil
  | s :: ss, _, _, _, p, p', n, h =>
    .cons (alike_judge s (p.under (toString n)) (p'.under (toString n)) h.left).of_under
      (alike_judgeBranches ss p p' (n + 1) h.right)

theorem alike_judgeTuple : (ss : List Schema) → {m m' : Meaning} → {v : Json} →
    (p p' : Place) → (es : List (Json × Nat)) →
      (∀ w, depth w < depth v →
        m.inside.Agree m'.inside (targetsOfBranches ss) (targetsOfBranches ss) w) →
      (∀ e ∈ es, depth e.1 < depth v) →
        (judgeTuple m p es ss).Alike p p' (judgeTuple m' p' es ss)
  | [], _, _, _, _, _, es, _, _ => by cases es <;> exact .of_violations rfl
  | s :: ss, _, _, _, _, _, [], _, _ => .of_violations rfl
  | s :: ss, _, _, _, p, p', e :: es, h, hes => by
    simp only [judgeTuple]
    refine Alike.append (Alike.append (Alike.ofPart ?_) (.of_violations rfl)) ?_
    · exact (alike_judge s _ _
        ((h e.1 (hes e List.mem_cons_self)).left.on (List.Subset.refl _))).of_under.of_into
    · exact alike_judgeTuple ss p p' es (fun w hw => (h w hw).right)
        fun e he => hes e (List.mem_cons_of_mem _ he)

theorem alike_judgeProperties : (declared : List (String × Schema)) → {m m' : Meaning} →
    {v : Json} → (p p' : Place) →
      (∀ w, depth w < depth v →
        m.inside.Agree m'.inside (targetsOfFields declared) (targetsOfFields declared) w) →
      (judgeProperties m p (membersOf v) declared).Alike p p'
        (judgeProperties m' p' (membersOf v) declared)
  | [], _, _, _, _, _, _ => .of_violations rfl
  | (k, s) :: rest, _, _, v, p, p', h => by
    simp only [judgeProperties]
    refine Alike.append ?_ (alike_judgeProperties rest p p' fun w hw => (h w hw).right)
    cases hw : (membersOf v).get? k with
    | none => exact .of_violations rfl
    | some w =>
      refine Alike.append (Alike.ofPart ?_) (.of_violations rfl)
      exact (alike_judge s _ _ ((h w (depth_lt_of_mem_members (Assoc.mem_of_get? hw))).left.on
        (List.Subset.refl _))).of_under.of_under.of_into

theorem alike_judgePatterns : (matching : List (NamedPattern × Schema)) → {m m' : Meaning} →
    {v : Json} → (p p' : Place) →
      (∀ w, depth w < depth v →
        m.inside.Agree m'.inside (targetsOfPatterns matching) (targetsOfPatterns matching) w) →
      (judgePatterns m p (membersOf v) matching).Alike p p'
        (judgePatterns m' p' (membersOf v) matching)
  | [], _, _, _, _, _, _ => .of_violations rfl
  | (r, s) :: rest, _, _, v, p, p', h => by
    simp only [judgePatterns]
    refine Alike.append ?_ (alike_judgePatterns rest p p' fun w hw => (h w hw).right)
    refine alike_join_map fun e he => Alike.append (Alike.ofPart ?_) (.of_violations rfl)
    exact (alike_judge s _ _ ((h e.2 (depth_lt_of_mem_members (List.mem_filter.mp he).1)).left.on
      (List.Subset.refl _))).of_under.of_under.of_into

theorem alike_judgeNamed : (declared : List (String × Schema)) → {m m' : Meaning} →
    {w : Json} → (name : String) → (p p' : Place) →
      m.inside.Agree m'.inside (targetsOfFields declared) (targetsOfFields declared) w →
      Option.Rel (Alike p p') (judgeNamed m p name w declared) (judgeNamed m' p' name w declared)
  | [], _, _, _, _, _, _, _ => .none
  | (k, s) :: rest, _, _, w, name, p, p', h => by
    simp only [judgeNamed]
    split
    · exact .some (alike_judge s _ _ (h.left.on (List.Subset.refl _))).of_under.of_under.of_into
    · exact alike_judgeNamed rest name p p' h.right

theorem alike_judgeMatches : (matching : List (NamedPattern × Schema)) → {m m' : Meaning} →
    {w : Json} → (name : String) → (p p' : Place) →
      m.inside.Agree m'.inside (targetsOfPatterns matching) (targetsOfPatterns matching) w →
      List.Forall₂ (Alike p p') (judgeMatches m p name w matching)
        (judgeMatches m' p' name w matching)
  | [], _, _, _, _, _, _, _ => .nil
  | (r, s) :: rest, _, _, w, name, p, p', h => by
    have hrest := alike_judgeMatches rest name p p' h.right
    simp only [judgeMatches]
    split
    · exact .cons (alike_judge s _ _ (h.left.on (List.Subset.refl _))).of_under.of_under.of_into
        hrest
    · exact hrest

end

end Schema

end ApiContract
