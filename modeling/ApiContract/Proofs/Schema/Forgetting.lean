import ApiContract.Proofs.Schema.Counterparts
/-!
# Schemas that forget null

A schema that forgets null has it neither among its kinds nor among its listed values. No value
without nulls tells it from the schema it was: the same is accepted, and the same is covered.
-/

namespace ApiContract

/-! ## Values without nulls -/

namespace Json

mutual

/-- Whether a value holds no null, at any depth. -/
def isNullFree : Json → Bool
  | .null => false
  | .array items => areNullFree items
  | .object members => haveNullFree members
  | _ => true

def areNullFree : List Json → Bool
  | [] => true
  | v :: vs => isNullFree v && areNullFree vs

def haveNullFree : List (String × Json) → Bool
  | [] => true
  | (_, v) :: rest => isNullFree v && haveNullFree rest

end

theorem areNullFree_iff {items : List Json} :
    areNullFree items = true ↔ ∀ v ∈ items, v.isNullFree = true := by
  induction items with
  | nil => simp [areNullFree]
  | cons v vs ih => rw [areNullFree, Bool.and_eq_true, ih, List.forall_mem_cons]

theorem haveNullFree_iff {members : List (String × Json)} :
    haveNullFree members = true ↔ ∀ e ∈ members, e.2.isNullFree = true := by
  induction members with
  | nil => simp [haveNullFree]
  | cons e rest ih => rw [haveNullFree, Bool.and_eq_true, ih, List.forall_mem_cons]

end Json

namespace Schema

theorem isNullFree_of_mem_items {v w : Json} {i : Nat} (hv : v.isNullFree = true)
    (h : (w, i) ∈ itemsOf v) : w.isNullFree = true := by
  cases v with
  | array items => exact Json.areNullFree_iff.mp hv w (List.fst_mem_of_mem_zipIdx h)
  | _ => simp [itemsOf, Json.asArray?] at h

theorem isNullFree_of_mem_members {v : Json} {e : String × Json} (hv : v.isNullFree = true)
    (h : e ∈ membersOf v) : e.2.isNullFree = true := by
  cases v with
  | object members => exact Json.haveNullFree_iff.mp hv e h
  | _ => simp [membersOf, Json.asObject?] at h

/-! ## Forgetting null -/

mutual

/-- A schema without null among its kinds and listed values. The texts that its messages tell are
forgotten as well. -/
def forget : Schema → Schema
  | .always => .always
  | .never => .never
  | .node keywords => .node (forgetAll keywords)

def forgetAll : List Keyword → List Keyword
  | [] => []
  | k :: ks => forgetKeyword k :: forgetAll ks

def forgetKeyword : Keyword → Keyword
  | .kind kinds => .kind (kinds.filter (· ≠ .null))
  | .oneOfValues values => .oneOfValues (values.filter (· ≠ .null))
  | .properties declared => .properties (forgetFields declared)
  | .patternProperties matching => .patternProperties (forgetPatterns matching)
  | .partition declared matching others =>
    .partition (forgetFields declared) (forgetPatterns matching) (forget others)
  | .closed declared matching => .closed (forgetFields declared) (forgetPatterns matching)
  | .propertyNames names => .propertyNames (forget names)
  | .items start each => .items start (forget each)
  | .tuple word schemas => .tuple word (forgetBranches schemas)
  | .additionalItems start each => .additionalItems start (forget each)
  | .contains each least most => .contains (forget each) least most
  | .allOf branches => .allOf (forgetBranches branches)
  | .anyOf branches => .anyOf (forgetBranches branches)
  | .oneOf branches => .oneOf (forgetBranches branches)
  | .not _ schema => .not .null (forget schema)
  | .conditional condition consequence alternative =>
    .conditional (forget condition) (forget consequence) (forget alternative)
  | .dependentSchema word property schema => .dependentSchema word property (forget schema)
  | .unevaluatedItems each => .unevaluatedItems (forget each)
  | .unevaluatedProperties each => .unevaluatedProperties (forget each)
  | k => k

def forgetBranches : List Schema → List Schema
  | [] => []
  | s :: ss => forget s :: forgetBranches ss

def forgetFields : List (String × Schema) → List (String × Schema)
  | [] => []
  | (k, s) :: rest => (k, forget s) :: forgetFields rest

def forgetPatterns : List (NamedPattern × Schema) → List (NamedPattern × Schema)
  | [] => []
  | (r, s) :: rest => (r, forget s) :: forgetPatterns rest

end

theorem forgetAll_eq_map (ks : List Keyword) : forgetAll ks = ks.map forgetKeyword := by
  induction ks with
  | nil => rfl
  | cons k ks ih => rw [forgetAll, ih, List.map_cons]

theorem forgetBranches_eq_map (ss : List Schema) : forgetBranches ss = ss.map forget := by
  induction ss with
  | nil => rfl
  | cons s ss ih => rw [forgetBranches, ih, List.map_cons]

theorem forgetFields_eq_map (fields : List (String × Schema)) :
    forgetFields fields = fields.map fun f => (f.1, forget f.2) := by
  induction fields with
  | nil => rfl
  | cons f fs ih =>
    obtain ⟨k, s⟩ := f
    rw [forgetFields, ih, List.map_cons]

theorem forgetPatterns_eq_map (matching : List (NamedPattern × Schema)) :
    forgetPatterns matching = matching.map fun f => (f.1, forget f.2) := by
  induction matching with
  | nil => rfl
  | cons f fs ih =>
    obtain ⟨r, s⟩ := f
    rw [forgetPatterns, ih, List.map_cons]

/-! ## Verdicts that agree -/

namespace Verdict

/-- Whether two verdicts both accept or both refuse, and cover the same. -/
structure Agrees (x y : Verdict) : Prop where
  accepted : x.accepted = y.accepted
  coverage : x.coverage = y.coverage

variable {x y x' y' : Verdict} {xs ys : List Verdict}

namespace Agrees

theorem refl (x : Verdict) : x.Agrees x := ⟨rfl, rfl⟩

theorem append (h : x.Agrees y) (h' : x'.Agrees y') : (x ++ x').Agrees (y ++ y') where
  accepted := by rw [accepted_append, accepted_append, h.accepted, h'.accepted]
  coverage := congrArg₂ Coverage.append h.coverage h'.coverage

theorem inPlace (h : x.Agrees y) : x.inPlace.Agrees y.inPlace where
  accepted := by rw [accepted_inPlace, accepted_inPlace, h.accepted]
  coverage := by
    unfold Verdict.inPlace
    rw [h.accepted]
    split
    · exact h.coverage
    · rfl

theorem ofPart (h : x.Agrees y) : x.ofPart.Agrees y.ofPart := ⟨h.accepted, rfl⟩

end Agrees

theorem agrees_check (ok : Bool) (p p' : Place) (v v' : Json) (cause cause' : Cause) :
    (check ok p v cause).Agrees (check ok p' v' cause') := by
  cases ok <;> exact ⟨rfl, rfl⟩

theorem agrees_join (h : List.Forall₂ Agrees xs ys) : (join xs).Agrees (join ys) := by
  induction h with
  | nil => exact .refl _
  | cons h _ ih => exact h.append ih

theorem agrees_join_map {α : Type} {l : List α} {f g : α → Verdict}
    (h : ∀ e ∈ l, (f e).Agrees (g e)) : (join (l.map f)).Agrees (join (l.map g)) := by
  refine agrees_join ?_
  rw [List.forall₂_map_left_iff, List.forall₂_map_right_iff, List.forall₂_same]
  exact h

theorem agrees_filter_accepted (h : List.Forall₂ Agrees xs ys) :
    List.Forall₂ Agrees (xs.filter accepted) (ys.filter accepted) := by
  induction h with
  | nil => exact .nil
  | @cons x y _ _ h _ ih =>
    cases ha : x.accepted with
    | true =>
      rw [List.filter_cons_of_pos ha, List.filter_cons_of_pos (h.accepted ▸ ha)]
      exact .cons h ih
    | false =>
      have hy : ¬y.accepted = true := by simp [← h.accepted, ha]
      rw [List.filter_cons_of_neg (by simp [ha]), List.filter_cons_of_neg hy]
      exact ih

theorem agrees_map_inPlace (h : List.Forall₂ Agrees xs ys) :
    List.Forall₂ Agrees (xs.map Verdict.inPlace) (ys.map Verdict.inPlace) := by
  rw [List.forall₂_map_left_iff, List.forall₂_map_right_iff]
  exact h.imp fun _ _ hx => hx.inPlace

theorem isEmpty_eq_of_agrees (h : List.Forall₂ Agrees xs ys) : xs.isEmpty = ys.isEmpty := by
  cases h <;> rfl

/-- The only verdict of a list, or a violation. -/
theorem agrees_only {p : Place} {v : Json} {none several : Cause} : List.Forall₂ Agrees xs ys →
    Agrees
      (match xs with
        | [] => check false p v none
        | [x] => x
        | _ => check false p v several : Verdict)
      (match ys with
        | [] => check false p v none
        | [y] => y
        | _ => check false p v several : Verdict) := by
  intro h
  match xs, ys, h with
  | _, _, .nil => exact .refl _
  | _, _, .cons h .nil => exact h
  | _, _, .cons _ (.cons _ _) => exact .refl _

/-- Members that are told as covered, and those that nothing covers. -/
theorem agrees_told {members : Assoc Json} {f g : String × Json → String × Option Verdict}
    (h : ∀ e ∈ members, (f e).1 = (g e).1 ∧ Option.Rel Agrees (f e).2 (g e).2)
    {p : Place} {v : Json} {cause : List String → Cause} :
    let uncovered (t : String × Option Verdict) := if t.2.isNone then some t.1 else none
    Agrees
      (join ((members.map f).map fun t => (t.2.getD {}).ofPart ++ coverNames [t.1]) ++
        check ((members.map f).filterMap uncovered).isEmpty p v
          (cause ((members.map f).filterMap uncovered)))
      (join ((members.map g).map fun t => (t.2.getD {}).ofPart ++ coverNames [t.1]) ++
        check ((members.map g).filterMap uncovered).isEmpty p v
          (cause ((members.map g).filterMap uncovered))) := by
  intro uncovered
  have huncovered : (members.map f).filterMap uncovered = (members.map g).filterMap uncovered := by
    rw [List.filterMap_map, List.filterMap_map]
    refine List.filterMap_congr fun e he => ?_
    obtain ⟨hname, hv⟩ := h e he
    simp only [uncovered, Function.comp, hname]
    generalize (f e).2 = x at hv
    generalize (g e).2 = y at hv
    cases hv <;> rfl
  rw [huncovered, List.map_map, List.map_map]
  refine (agrees_join_map fun e he => ?_).append (.refl _)
  obtain ⟨hname, hv⟩ := h e he
  simp only [Function.comp, hname]
  refine Agrees.append (Agrees.ofPart ?_) (.refl _)
  generalize (f e).2 = x at hv
  generalize (g e).2 = y at hv
  cases hv with
  | none => exact .refl _
  | some h => exact h

end Verdict

/-! ## Judging -/

/-- Whether two meanings agree about values without nulls. -/
structure Meaning.Agrees (m m' : Meaning) : Prop where
  dialect : m.dialect = m'.dialect
  here : ∀ t p v, v.isNullFree = true → (m.here t p v).Agrees (m'.here t p v)
  below : ∀ t p v, v.isNullFree = true → (m.below t p v).Agrees (m'.below t p v)

theorem Meaning.Agrees.inside {m m' : Meaning} (h : m.Agrees m') : m.inside.Agrees m'.inside :=
  ⟨h.dialect, h.below, h.below⟩

/-- No value without nulls is of the null kind. -/
theorem any_has_forget {dialect : Dialect} {v : Json} (hv : v.isNullFree = true)
    (kinds : List Kind) :
    (kinds.filter (· ≠ .null)).any (·.has dialect v) = kinds.any (·.has dialect v) := by
  rw [List.any_filter]
  refine List.any_congr rfl fun kind => ?_
  cases kind with
  | null => cases v <;> first | rfl | cases hv
  | _ => rfl

/-- No value without nulls equals null. -/
theorem any_equal_forget {v : Json} (hv : v.isNullFree = true) (values : List Json) :
    (values.filter (· ≠ .null)).any (Json.equal v) = values.any (Json.equal v) := by
  rw [List.any_filter]
  refine List.any_congr rfl fun w => ?_
  cases w with
  | null => cases v <;> first | rfl | cases hv
  | _ => rfl

open Verdict

variable {m m' : Meaning} {v w : Json}

mutual

-- The recursion is that of the schema. Only kinds and listed values are changed; all else hands the
-- agreement down.

/-- **A schema that forgets null agrees with it** about all values without nulls. -/
theorem agrees_judge : (s : Schema) → {m m' : Meaning} → {v : Json} → (p : Place) →
    m.Agrees m' → v.isNullFree = true → (judge m p v s).Agrees (judge m' p v (forget s))
  | .always, _, _, _, _, _, _ => .refl _
  | .never, _, _, _, _, _, _ => .refl _
  | .node ks, _, _, _, p, h, hv => agrees_judgeAll ks p {} h hv

theorem agrees_judgeAll : (ks : List Keyword) → {m m' : Meaning} → {v : Json} → (p : Place) →
    (covered : Coverage) → m.Agrees m' → v.isNullFree = true →
      (judgeAll m p v covered ks).Agrees (judgeAll m' p v covered (forgetAll ks))
  | [], _, _, _, _, _, _, _ => .refl _
  | k :: ks, _, _, _, p, covered, h, hv => by
    have hk := agrees_judgeKeyword k p covered h hv
    simp only [forgetAll, judgeAll]
    -- what is covered so far is the same, so it is the same for the rest
    rw [hk.coverage]
    exact hk.append (agrees_judgeAll ks p _ h hv)

theorem agrees_judgeKeyword : (k : Keyword) → {m m' : Meaning} → {v : Json} → (p : Place) →
    (covered : Coverage) → m.Agrees m' → v.isNullFree = true →
      (judgeKeyword m p v covered k).Agrees (judgeKeyword m' p v covered (forgetKeyword k))
  | .reference t, _, _, _, p, _, h, hv => (h.here t _ _ hv).inPlace
  | .kind kinds, _, _, _, p, _, h, hv => by
    simp only [forgetKeyword, judgeKeyword, any_has_forget hv, h.dialect]
    exact agrees_check ..
  | .oneOfValues values, _, _, _, p, _, _, hv => by
    simp only [forgetKeyword, judgeKeyword, any_equal_forget hv]
    exact agrees_check ..
  | .format _, _, _, v, _, _, h, _ => by
    simp only [forgetKeyword, judgeKeyword, h.dialect]
    exact .refl _
  | .properties declared, _, _, _, p, _, h, hv => agrees_judgeProperties declared p h hv
  | .patternProperties matching, _, _, _, p, _, h, hv => agrees_judgePatterns matching p h hv
  | .partition declared matching others, m, m', v, p, _, h, hv => by
    simp only [forgetKeyword, judgeKeyword]
    refine agrees_join_map fun e he => Agrees.append (Agrees.ofPart ?_) (.refl _)
    have hw := isNullFree_of_mem_members hv he
    have hmatched := agrees_judgeMatches matching e.1 p h.inside hw
    have hnamed := agrees_judgeNamed declared e.1 p h.inside hw
    generalize judgeMatches m p e.1 e.2 matching = xs at hmatched
    generalize judgeMatches m' p e.1 e.2 (forgetPatterns matching) = ys at hmatched
    generalize judgeNamed m p e.1 e.2 declared = x at hnamed
    generalize judgeNamed m' p e.1 e.2 (forgetFields declared) = y at hnamed
    cases hnamed with
    | some hxy => exact hxy.append (agrees_join hmatched)
    | none =>
      cases hmatched with
      | nil => exact agrees_judge others _ h.inside hw
      | cons h hs => exact agrees_join (.cons h hs)
  | .closed declared matching, m, m', v, p, _, h, hv => by
    simp only [forgetKeyword, judgeKeyword]
    refine agrees_told fun e he => ?_
    have hw := isNullFree_of_mem_members hv he
    have hmatched := agrees_judgeMatches matching e.1 p h.inside hw
    have hnamed := agrees_judgeNamed declared e.1 p h.inside hw
    generalize judgeMatches m p e.1 e.2 matching = xs at hmatched
    generalize judgeMatches m' p e.1 e.2 (forgetPatterns matching) = ys at hmatched
    generalize judgeNamed m p e.1 e.2 declared = x at hnamed
    generalize judgeNamed m' p e.1 e.2 (forgetFields declared) = y at hnamed
    cases hnamed with
    | some hxy => exact ⟨rfl, .some (hxy.append (agrees_join hmatched))⟩
    | none =>
      cases hmatched with
      | nil => exact ⟨rfl, .none⟩
      | cons h hs => exact ⟨rfl, .some (agrees_join (.cons h hs))⟩
  | .propertyNames names, _, _, v, p, _, h, _ => by
    simp only [forgetKeyword, judgeKeyword]
    refine agrees_join_map fun e _ => ⟨?_, rfl⟩
    have hname := agrees_judge names (v := .string e.1) (p.under "propertyNames") h.inside rfl
    simpa [Verdict.accepted] using hname.accepted
  | .items start each, _, _, _, p, _, h, hv => by
    simp only [forgetKeyword, judgeKeyword]
    refine agrees_join_map fun e he => Agrees.append (Agrees.ofPart ?_) (.refl _)
    exact agrees_judge each _ h.inside (isNullFree_of_mem_items hv (List.mem_of_mem_drop he))
  | .tuple word schemas, _, _, _, p, _, h, hv =>
    agrees_judgeTuple schemas _ _ h fun _ he => isNullFree_of_mem_items hv he
  | .additionalItems start each, _, _, _, p, _, h, hv => by
    simp only [forgetKeyword, judgeKeyword]
    refine agrees_join_map fun e he => Agrees.append (Agrees.ofPart ?_) (.refl _)
    exact agrees_judge each _ h.inside (isNullFree_of_mem_items hv (List.mem_of_mem_drop he))
  | .contains each least most, _, _, v, p, _, h, hv => by
    simp only [forgetKeyword, judgeKeyword]
    split
    · next items =>
      have hfound : ∀ e ∈ itemsOf (.array items), _ = _ := fun e he =>
        (agrees_judge each ((p.into (toString e.2)).under "contains") h.inside
          (isNullFree_of_mem_items hv he)).accepted
      rw [List.filter_congr hfound]
      exact .refl _
    · exact .refl _
  | .allOf branches, _, _, _, p, _, h, hv =>
    agrees_join (agrees_map_inPlace (agrees_judgeBranches branches _ 0 h hv))
  | .anyOf branches, _, _, _, p, _, h, hv => by
    have hxs := agrees_filter_accepted (agrees_judgeBranches branches (p.under "anyOf") 0 h hv)
    simp only [forgetKeyword, judgeKeyword]
    rw [isEmpty_eq_of_agrees hxs]
    exact (agrees_check ..).append (agrees_join hxs)
  | .oneOf branches, _, _, _, p, _, h, hv => by
    have hxs := agrees_filter_accepted (agrees_judgeBranches branches (p.under "oneOf") 0 h hv)
    simp only [forgetKeyword, judgeKeyword]
    exact agrees_only hxs
  | .not text schema, _, _, _, p, _, h, hv => by
    simp only [forgetKeyword, judgeKeyword]
    rw [(agrees_judge schema _ h hv).accepted]
    exact agrees_check ..
  | .conditional condition consequence alternative, _, _, _, p, _, h, hv => by
    simp only [forgetKeyword, judgeKeyword]
    have hif := agrees_judge condition (p.under "if") h hv
    have hthen := agrees_judge consequence (p.under "then") h hv
    have helse := agrees_judge alternative (p.under "else") h hv
    rw [hif.accepted]
    split
    · exact hif.append hthen.inPlace
    · exact helse.inPlace
  | .dependentSchema _ _ schema, _, _, _, p, _, h, hv => by
    simp only [forgetKeyword, judgeKeyword]
    split
    · exact (agrees_judge schema _ h hv).inPlace
    · exact .refl _
  | .unevaluatedItems each, m, m', v, p, covered, h, hv => by
    have hrest : ∀ e ∈ itemsOf v,
        (!covered.items.contains e.2 && !(judge m.inside
          ((p.into (toString e.2)).under "unevaluatedItems") e.1 each).accepted) =
        (!covered.items.contains e.2 && !(judge m'.inside
          ((p.into (toString e.2)).under "unevaluatedItems") e.1 (forget each)).accepted) := by
      intro e he
      rw [(agrees_judge each _ h.inside (isNullFree_of_mem_items hv he)).accepted]
    simp only [forgetKeyword, judgeKeyword]
    rw [List.filter_congr hrest]
    exact .refl _
  | .unevaluatedProperties each, m, m', v, p, covered, h, hv => by
    have hrest : ∀ e ∈ membersOf v,
        (!covered.properties.contains e.1 && !(judge m.inside
          ((p.into e.1).under "unevaluatedProperties") e.2 each).accepted) =
        (!covered.properties.contains e.1 && !(judge m'.inside
          ((p.into e.1).under "unevaluatedProperties") e.2 (forget each)).accepted) := by
      intro e he
      rw [(agrees_judge each _ h.inside (isNullFree_of_mem_members hv he)).accepted]
    simp only [forgetKeyword, judgeKeyword]
    rw [List.filter_congr hrest]
    exact .refl _
  | .constant _, _, _, _, _, _, _, _ | .bound _ _, _, _, _, _, _, _, _
  | .size _ _ _, _, _, _, _, _, _, _ | .multipleOf _, _, _, _, _, _, _, _
  | .pattern _, _, _, _, _, _, _, _ | .required _, _, _, _, _, _, _, _
  | .uniqueItems, _, _, _, _, _, _, _ | .noProperties, _, _, _, _, _, _, _
  | .noPropertyNames, _, _, _, _, _, _, _ | .noAdditionalItems _, _, _, _, _, _, _, _
  | .dependentNames _ _ _, _, _, _, _, _, _, _ => by
    simp only [forgetKeyword, judgeKeyword]
    exact .refl _

theorem agrees_judgeBranches : (ss : List Schema) → {m m' : Meaning} → {v : Json} → (p : Place) →
    (n : Nat) → m.Agrees m' → v.isNullFree = true →
      List.Forall₂ Agrees (judgeBranches m p v n ss) (judgeBranches m' p v n (forgetBranches ss))
  | [], _, _, _, _, _, _, _ => .nil
  | s :: ss, _, _, _, p, n, h, hv =>
    .cons (agrees_judge s (p.under (toString n)) h hv) (agrees_judgeBranches ss p (n + 1) h hv)

theorem agrees_judgeTuple : (ss : List Schema) → {m m' : Meaning} → (p : Place) →
    (es : List (Json × Nat)) → m.Agrees m' → (∀ e ∈ es, e.1.isNullFree = true) →
      (judgeTuple m p es ss).Agrees (judgeTuple m' p es (forgetBranches ss))
  | [], _, _, _, es, _, _ => by cases es <;> exact .refl _
  | s :: ss, _, _, _, [], _, _ => .refl _
  | s :: ss, _, _, p, e :: es, h, hes => by
    simp only [forgetBranches, judgeTuple]
    refine Agrees.append (Agrees.append (Agrees.ofPart ?_) (.refl _)) ?_
    · exact agrees_judge s _ h.inside (hes e List.mem_cons_self)
    · exact agrees_judgeTuple ss p es h fun e he => hes e (List.mem_cons_of_mem _ he)

theorem agrees_judgeProperties : (declared : List (String × Schema)) → {m m' : Meaning} →
    {v : Json} → (p : Place) → m.Agrees m' → v.isNullFree = true →
      (judgeProperties m p (membersOf v) declared).Agrees
        (judgeProperties m' p (membersOf v) (forgetFields declared))
  | [], _, _, _, _, _, _ => .refl _
  | (k, s) :: rest, _, _, v, p, h, hv => by
    simp only [forgetFields, judgeProperties]
    refine Agrees.append ?_ (agrees_judgeProperties rest p h hv)
    cases hw : (membersOf v).get? k with
    | none => exact .refl _
    | some w =>
      refine Agrees.append (Agrees.ofPart ?_) (.refl _)
      exact agrees_judge s _ h.inside (isNullFree_of_mem_members hv (Assoc.mem_of_get? hw))

theorem agrees_judgePatterns : (matching : List (NamedPattern × Schema)) → {m m' : Meaning} →
    {v : Json} → (p : Place) → m.Agrees m' → v.isNullFree = true →
      (judgePatterns m p (membersOf v) matching).Agrees
        (judgePatterns m' p (membersOf v) (forgetPatterns matching))
  | [], _, _, _, _, _, _ => .refl _
  | (r, s) :: rest, _, _, v, p, h, hv => by
    simp only [forgetPatterns, judgePatterns]
    refine Agrees.append ?_ (agrees_judgePatterns rest p h hv)
    refine agrees_join_map fun e he => Agrees.append (Agrees.ofPart ?_) (.refl _)
    exact agrees_judge s _ h.inside (isNullFree_of_mem_members hv (List.mem_filter.mp he).1)

theorem agrees_judgeNamed : (declared : List (String × Schema)) → {m m' : Meaning} → {w : Json} →
    (name : String) → (p : Place) → m.inside.Agrees m'.inside → w.isNullFree = true →
      Option.Rel Agrees (judgeNamed m p name w declared)
        (judgeNamed m' p name w (forgetFields declared))
  | [], _, _, _, _, _, _, _ => .none
  | (k, s) :: rest, _, _, w, name, p, h, hw => by
    simp only [forgetFields, judgeNamed]
    split
    · exact .some (agrees_judge s _ h hw)
    · exact agrees_judgeNamed rest name p h hw

theorem agrees_judgeMatches : (matching : List (NamedPattern × Schema)) → {m m' : Meaning} →
    {w : Json} → (name : String) → (p : Place) → m.inside.Agrees m'.inside →
      w.isNullFree = true →
        List.Forall₂ Agrees (judgeMatches m p name w matching)
          (judgeMatches m' p name w (forgetPatterns matching))
  | [], _, _, _, _, _, _, _ => .nil
  | (r, s) :: rest, _, _, w, name, p, h, hw => by
    have hrest := agrees_judgeMatches rest name p h hw
    simp only [forgetPatterns, judgeMatches]
    split
    · exact .cons (agrees_judge s _ h hw) hrest
    · exact hrest

end

/-! ## Compiled schemas -/

namespace Compiled

/-- A compiled schema that forgets null. -/
def forgetNull (c : Compiled) : Compiled where
  dialect := c.dialect
  schema := forget c.schema
  definitions := c.definitions.map fun e => (e.1, forget e.2)

/-- Its references agree, with the same fuel. -/
theorem agrees_follow (c : Compiled) (fuel : Nat) : ∀ followed t p v, v.isNullFree = true →
    (c.follow fuel followed t p v).Agrees (c.forgetNull.follow fuel followed t p v) := by
  induction fuel with
  | zero => intro _ _ _ _ _; exact .refl _
  | succ fuel ih =>
    intro followed t p v hv
    rw [follow, follow]
    split
    · exact .refl _
    · rw [forgetNull, Assoc.get?_mapValues c.definitions (fun _ => forget)]
      cases c.definitions.get? t with
      | none => exact .refl _
      | some s => exact agrees_judge s p ⟨rfl, ih _, ih _⟩ hv

/-- **Documents that differ in null alone accept the same values without nulls.** -/
theorem accepts_eq_of_forget {dialect : Dialect} {formats : Bool} {root root' : Json}
    {c c' : Compiled} (hl : Linked dialect formats root c) (hl' : Linked dialect formats root' c')
    (hschema : forget c.schema = forget c'.schema)
    (h : ∀ t, Option.Rel (fun s s' => forget s = forget s') (c.definitions.get? t)
      (c'.definitions.get? t)) {v : Json} (hv : v.isNullFree = true) :
    c.accepts v = c'.accepts v := by
  have hdialect : c.dialect = c'.dialect := hl.spoken.trans hl'.spoken.symm
  have hforgotten : ∀ (c : Compiled) fuel, (judge (c.meaning fuel) .root v c.schema).accepted =
      (judge (c.forgetNull.meaning fuel) .root v (forget c.schema)).accepted := by
    intro c fuel
    have hmeaning : (c.meaning fuel).Agrees (c.forgetNull.meaning fuel) :=
      ⟨rfl, agrees_follow c fuel [], agrees_follow c fuel []⟩
    exact (agrees_judge c.schema .root hmeaning hv).accepted
  have hsame : ∀ t, Option.Rel JudgedSame (c.forgetNull.definitions.get? t)
      (c'.forgetNull.definitions.get? t) := by
    intro t
    have ht := h t
    rw [forgetNull, forgetNull, Assoc.get?_mapValues c.definitions (fun _ => forget),
      Assoc.get?_mapValues c'.definitions (fun _ => forget)]
    generalize c.definitions.get? t = s at ht
    generalize c'.definitions.get? t = s' at ht
    cases ht with
    | none => exact .none
    | some hs => exact .some fun _ _ _ => by rw [hs]
  have hfollow : c.forgetNull.follow = c'.forgetNull.follow :=
    funext (follow_eq_of_judgedSame hdialect hsame)
  rw [accepts_eq_judge hl (Nat.le_add_right _ (c'.followBound v)),
    accepts_eq_judge hl' (Nat.le_add_left _ (c.followBound v)), hforgotten, hforgotten, hschema,
    meaning, meaning, hfollow]
  simp only [forgetNull, hdialect]

end Compiled

end Schema

end ApiContract
