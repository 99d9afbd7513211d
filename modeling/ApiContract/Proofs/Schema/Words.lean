import ApiContract.Failure
import ApiContract.Proofs.Schema.Components
/-!
# The words of keywords

Every violation of a schema object stands under the word of one of its keywords, whatever else is
deeper inside. So the place of a violation names a keyword even without the place of the schema.
-/

namespace ApiContract

namespace Schema

open Verdict

/-! ## Meanings that do not depend on the place -/

/-- Whether the verdicts of references depend on the place only in how their places begin. -/
def Meaning.Placeless (m : Meaning) : Prop := ∀ near far v, m.Agree m near far v

theorem Meaning.Placeless.inside {m : Meaning} (h : m.Placeless) : m.inside.Placeless := by
  intro near far v
  -- every value is a part of some value
  have hpart : depth v < depth (.array [v]) := by simp [depth, depthOfItems]
  exact ⟨rfl, fun t _ => (h [] [t] (.array [v])).below t List.mem_cons_self v hpart,
    fun t _ w hw => (h [] [t] v).below t List.mem_cons_self w hw⟩

namespace Compiled

theorem alike_follow_self (c : Compiled) (fuel : Nat) :
    ∀ followed t (p p' : Place) v,
      (c.follow fuel followed t p v).Alike p p' (c.follow fuel followed t p' v) := by
  induction fuel with
  | zero => intro _ _ _ _ _; exact .of_violations rfl
  | succ fuel ih =>
    intro followed t p p' v
    simp only [follow]
    split
    · exact .of_violations rfl
    · split
      · exact .of_violations rfl
      · exact alike_judge _ p p' ⟨rfl, fun u _ q q' => ih _ u q q' v,
          fun u _ w _ q q' => ih _ u q q' w⟩

theorem placeless_meaning (c : Compiled) (fuel : Nat) : (c.meaning fuel).Placeless :=
  fun _ _ v => ⟨rfl, fun t _ p p' => c.alike_follow_self fuel [] t p p' v,
    fun t _ w _ p p' => c.alike_follow_self fuel [] t p p' w⟩

end Compiled

/-- What is judged at the root is told below any place. -/
theorem below_judge {m : Meaning} (hm : m.Placeless) (s : Schema) (p : Place) (v : Json) :
    (judge m .root v s).below p = judge m p v s := by
  obtain ⟨z, hz, hz'⟩ := alike_judge s .root p (hm _ _ v)
  obtain rfl : z = judge m .root v s := (below_root z).symm.trans hz
  exact hz'

/-! ## Violations under words -/

/-- Whether all violations of a verdict stand under one of some words. -/
def Verdict.Under (p : Place) (words : List String) (x : Verdict) : Prop :=
  ∀ a ∈ x.violations, ∃ w ∈ words, ∃ rest, a.place.schema = p.schema ++ w :: rest

namespace Verdict.Under

variable {p q q' : Place} {words : List String} {x y : Verdict} {word : String}

theorem of_violations (h : x.violations = []) : Under p words x := by
  intro a ha
  rw [h] at ha
  exact absurd ha List.not_mem_nil

theorem append (h : Under p words x) (h' : Under p words y) : Under p words (x ++ y) :=
  fun a ha => (List.mem_append.mp ha).elim (h a) (h' a)

theorem inPlace (h : Under p words x) : Under p words x.inPlace := by
  unfold Verdict.inPlace
  split <;> exact h

theorem ofPart (h : Under p words x) : Under p words x.ofPart := h

theorem join {xs : List Verdict} (h : ∀ x ∈ xs, Under p words x) : Under p words (join xs) := by
  induction xs with
  | nil => exact .of_violations rfl
  | cons x xs ih =>
    exact (h x List.mem_cons_self).append (ih fun y hy => h y (List.mem_cons_of_mem _ hy))

theorem join_map {α : Type} {l : List α} {f : α → Verdict} (h : ∀ e ∈ l, Under p words (f e)) :
    Under p words (Verdict.join (l.map f)) :=
  join (List.forall_mem_map.mpr h)

theorem check (ok : Bool) (v : Json) (cause : Cause) (hw : word ∈ words) :
    Under p words (Verdict.check ok (p.under word) v cause) := by
  cases ok with
  | true => exact .of_violations rfl
  | false =>
    intro a ha
    obtain rfl := List.mem_singleton.mp ha
    exact ⟨word, hw, [], rfl⟩

/-- What is told below a place under a word stands under the word. -/
theorem of_alike (h : x.Alike q q' y) {rest : List String}
    (hq : q.schema = p.schema ++ word :: rest) (hw : word ∈ words) : Under p words x := by
  obtain ⟨z, rfl, -⟩ := h
  intro a ha
  obtain ⟨b, -, rfl⟩ := List.mem_map.mp ha
  refine ⟨word, hw, rest ++ b.place.schema, ?_⟩
  show q.schema ++ b.place.schema = _
  rw [hq, List.append_assoc, List.cons_append]

end Verdict.Under

section

variable {m : Meaning} {p q : Place} {v : Json} {s : Schema} {words : List String} {word : String}

/-- What a schema judges under a word stands under the word. -/
theorem under_judge (hm : m.Placeless) {rest : List String}
    (hq : q.schema = p.schema ++ word :: rest) (hw : word ∈ words) :
    (judge m q v s).Under p words :=
  .of_alike (alike_judge s q q (hm _ _ _)) hq hw

/-- What it judges at a part stands under the word followed by others. -/
theorem under_judge_inside (hm : m.Placeless) {rest : List String}
    (hq : q.schema = p.schema ++ word :: rest) (hw : word ∈ words) :
    (judge m.inside q v s).Under p words :=
  under_judge hm.inside hq hw

end

/-- The words under which a keyword tells its violations. -/
def wordsOf : Keyword → List String
  | .reference _ => ["$ref"]
  | .kind _ => ["type"]
  | .oneOfValues _ => ["enum"]
  | .constant _ => ["const"]
  | .bound bound _ => [bound.word]
  | .size measure upper _ => [measure.word upper]
  | .multipleOf _ => ["multipleOf"]
  | .pattern _ => ["pattern"]
  | .format _ => ["format"]
  | .required _ => ["required"]
  | .uniqueItems => ["uniqueItems"]
  | .properties _ => ["properties"]
  | .patternProperties _ => ["patternProperties"]
  | .partition _ _ _ | .closed _ _ | .noProperties =>
    ["properties", "patternProperties", "additionalProperties"]
  | .propertyNames _ | .noPropertyNames => ["propertyNames"]
  | .items _ _ => ["items"]
  | .tuple word _ => [word]
  | .additionalItems _ _ | .noAdditionalItems _ => ["additionalItems"]
  | .contains _ _ _ => ["contains", "minContains", "maxContains"]
  | .allOf _ => ["allOf"]
  | .anyOf _ => ["anyOf"]
  | .oneOf _ => ["oneOf"]
  | .not _ _ => ["not"]
  | .conditional _ _ _ => ["if", "then", "else"]
  | .dependentNames word _ _ => [word]
  | .dependentSchema word _ _ => [word]
  | .unevaluatedItems _ => ["unevaluatedItems"]
  | .unevaluatedProperties _ => ["unevaluatedProperties"]

section

variable {m : Meaning} {p : Place} {v w : Json} {words : List String}

theorem under_judgeProperties (hm : m.Placeless) (members : Assoc Json) :
    (declared : List (String × Schema)) →
      (judgeProperties m p members declared).Under p ["properties"]
  | [] => .of_violations rfl
  | (k, s) :: rest => by
    rw [judgeProperties]
    refine Under.append ?_ (under_judgeProperties hm members rest)
    split
    · exact (Under.ofPart (under_judge_inside hm (List.append_assoc _ _ _)
        List.mem_cons_self)).append (.of_violations rfl)
    · exact .of_violations rfl

theorem under_judgePatterns (hm : m.Placeless) (members : Assoc Json) :
    (matching : List (NamedPattern × Schema)) →
      (judgePatterns m p members matching).Under p ["patternProperties"]
  | [] => .of_violations rfl
  | (r, s) :: rest => by
    rw [judgePatterns]
    refine Under.append (.join_map fun e _ => ?_) (under_judgePatterns hm members rest)
    exact (Under.ofPart (under_judge_inside hm (List.append_assoc _ _ _)
      List.mem_cons_self)).append (.of_violations rfl)

theorem under_judgeNamed (hm : m.Placeless) {name : String} (hw : "properties" ∈ words) :
    (declared : List (String × Schema)) → ∀ x, judgeNamed m p name w declared = some x →
      x.Under p words
  | [], x, h => nomatch h
  | (k, s) :: rest, x, h => by
    rw [judgeNamed] at h
    split at h
    · obtain rfl := Option.some.inj h
      exact under_judge_inside hm (List.append_assoc _ _ _) hw
    · exact under_judgeNamed hm hw rest x h

theorem under_judgeMatches (hm : m.Placeless) {name : String} (hw : "patternProperties" ∈ words) :
    (matching : List (NamedPattern × Schema)) → ∀ x ∈ judgeMatches m p name w matching,
      x.Under p words
  | [], x, h => absurd h List.not_mem_nil
  | (r, s) :: rest, x, h => by
    rw [judgeMatches] at h
    split at h
    · rcases List.mem_cons.mp h with rfl | h
      · exact under_judge_inside hm (List.append_assoc _ _ _) hw
      · exact under_judgeMatches hm hw rest x h
    · exact under_judgeMatches hm hw rest x h

theorem under_judgeBranches (hm : m.Placeless) {word : String} {n : Nat} (hw : word ∈ words) :
    (branches : List Schema) → ∀ x ∈ judgeBranches m (p.under word) v n branches, x.Under p words
  | [], x, h => absurd h List.not_mem_nil
  | s :: ss, x, h => by
    rw [judgeBranches] at h
    rcases List.mem_cons.mp h with rfl | h
    · exact under_judge hm (List.append_assoc _ _ _) hw
    · exact under_judgeBranches hm hw ss x h

theorem under_judgeTuple (hm : m.Placeless) {word : String} (hw : word ∈ words) :
    (es : List (Json × Nat)) → (ss : List Schema) →
      (judgeTuple m (p.under word) es ss).Under p words
  | [], ss => by cases ss <;> exact .of_violations rfl
  | _ :: _, [] => .of_violations rfl
  | e :: es, s :: ss => by
    rw [judgeTuple]
    refine Under.append (Under.append (Under.ofPart ?_) (.of_violations rfl))
      (under_judgeTuple hm hw es ss)
    exact under_judge_inside hm (List.append_assoc _ _ _) hw

/-- **The violations of a keyword stand under its words.** -/
theorem under_judgeKeyword (hm : m.Placeless) (covered : Coverage) (k : Keyword) :
    (judgeKeyword m p v covered k).Under p (wordsOf k) := by
  cases k with
  | reference t =>
    exact Under.inPlace (.of_alike ((hm [t] [] v).here t List.mem_cons_self _ (p.under "$ref")) rfl
      List.mem_cons_self)
  | kind | oneOfValues | constant | noPropertyNames | noAdditionalItems =>
    exact .check _ _ _ List.mem_cons_self
  | bound | size | multipleOf | pattern | format | uniqueItems =>
    simp only [judgeKeyword]
    split
    · exact .check _ _ _ List.mem_cons_self
    · exact .of_violations rfl
  | required names =>
    simp only [judgeKeyword]
    split
    · exact .join_map fun _ _ => .check _ _ _ List.mem_cons_self
    · exact .of_violations rfl
  | properties declared => exact under_judgeProperties hm _ declared
  | patternProperties matching => exact under_judgePatterns hm _ matching
  | «partition» declared matching others =>
    simp only [judgeKeyword]
    refine .join_map fun e _ => Under.append (Under.ofPart ?_) (.of_violations rfl)
    have hmatched : (join (judgeMatches m p e.1 e.2 matching)).Under p
        (wordsOf (.partition declared matching others)) :=
      Under.join fun x hx => under_judgeMatches hm (by simp [wordsOf]) matching x hx
    split
    · next x hx => exact (under_judgeNamed hm (by simp [wordsOf]) declared x hx).append hmatched
    · split
      · exact under_judge_inside hm rfl (by simp [wordsOf])
      · exact hmatched
  | closed declared matching =>
    simp only [judgeKeyword]
    refine Under.append (.join ?_) (.check _ _ _ (by simp [wordsOf]))
    rw [List.map_map, List.forall_mem_map]
    intro e _
    have hmatched : (join (judgeMatches m p e.1 e.2 matching)).Under p
        (wordsOf (.closed declared matching)) :=
      Under.join fun x hx => under_judgeMatches hm (by simp [wordsOf]) matching x hx
    refine Under.append (Under.ofPart ?_) (.of_violations rfl)
    dsimp only
    split
    · next x hx => exact (under_judgeNamed hm (by simp [wordsOf]) declared x hx).append hmatched
    · split
      · exact .of_violations rfl
      · exact hmatched
  | noProperties =>
    simp only [judgeKeyword]
    split
    · exact .of_violations rfl
    · exact .check _ _ _ (by simp [wordsOf])
  | propertyNames names =>
    simp only [judgeKeyword]
    refine .join_map fun e _ a ha => ?_
    obtain ⟨b, hb, rfl⟩ := List.mem_map.mp ha
    exact under_judge_inside (p := p) hm rfl List.mem_cons_self b hb
  | items start each | additionalItems start each =>
    simp only [judgeKeyword]
    refine .join_map fun e _ => Under.append (Under.ofPart ?_) (.of_violations rfl)
    exact under_judge_inside hm rfl List.mem_cons_self
  | tuple word schemas => exact under_judgeTuple hm List.mem_cons_self _ schemas
  | contains each least most =>
    simp only [judgeKeyword]
    split
    · refine Under.append ?_ (.of_violations rfl)
      unfold judgeCount
      split
      · exact .check _ _ _ (by simp [wordsOf])
      · exact .check _ _ _ (by simp [wordsOf])
      · exact .check _ _ _ (by simp [wordsOf])
      · split <;> exact .check _ _ _ (by simp [wordsOf])
    · exact .of_violations rfl
  | allOf branches =>
    exact .join_map fun x hx => (under_judgeBranches hm List.mem_cons_self branches x hx).inPlace
  | anyOf branches =>
    refine Under.append (.check _ _ _ List.mem_cons_self) (.join fun x hx => ?_)
    exact under_judgeBranches hm List.mem_cons_self branches x (List.mem_of_mem_filter hx)
  | oneOf branches =>
    simp only [judgeKeyword]
    split
    · exact .check _ _ _ List.mem_cons_self
    · next x hx =>
      exact under_judgeBranches hm List.mem_cons_self branches x
        (List.mem_of_mem_filter (hx ▸ List.mem_cons_self))
    · exact .check _ _ _ List.mem_cons_self
  | not text schema => exact .check _ _ _ List.mem_cons_self
  | conditional condition consequence alternative =>
    simp only [judgeKeyword]
    split
    · exact (under_judge hm rfl (by simp [wordsOf])).append
        (under_judge hm rfl (by simp [wordsOf])).inPlace
    · exact (under_judge hm rfl (by simp [wordsOf])).inPlace
  | dependentNames word property names =>
    simp only [judgeKeyword]
    split
    · split
      · exact .join_map fun _ _ => .check _ _ _ List.mem_cons_self
      · exact .of_violations rfl
    · exact .of_violations rfl
  | dependentSchema word property schema =>
    simp only [judgeKeyword]
    split
    · exact (under_judge hm (List.append_assoc _ _ _) List.mem_cons_self).inPlace
    · exact .of_violations rfl
  | unevaluatedItems | unevaluatedProperties =>
    exact Under.append (.check _ _ _ List.mem_cons_self) (.of_violations rfl)

theorem under_judgeAll (hm : m.Placeless) : (ks : List Keyword) → (covered : Coverage) →
    (judgeAll m p v covered ks).Under p (ks.flatMap wordsOf)
  | [], _ => .of_violations rfl
  | k :: ks, covered => by
    rw [judgeAll, List.flatMap_cons]
    have hk := under_judgeKeyword (p := p) (v := v) hm covered k
    have hks := under_judgeAll hm ks (covered ++ (judgeKeyword m p v covered k).coverage)
    refine Under.append (fun a ha => ?_) fun a ha => ?_
    · obtain ⟨word, hw, h⟩ := hk a ha
      exact ⟨word, List.mem_append_left _ hw, h⟩
    · obtain ⟨word, hw, h⟩ := hks a ha
      exact ⟨word, List.mem_append_right _ hw, h⟩

end

/-! ## Words that name a keyword -/

/-- Whether a segment of a path can name a keyword: it is neither empty nor an index. -/
def isWord (s : String) : Bool :=
  !(Pointer.escape s.toList).isEmpty && !Pointer.isIndex (Pointer.escape s.toList)

/-- The keyword of a path is found behind whatever begins it. -/
theorem keywordOf_append (front : List String) {rest : List String} {word : String}
    (hmem : word ∈ rest) (hword : isWord word = true) :
    Problem.keywordOf (front ++ rest) = Problem.keywordOf rest := by
  unfold Problem.keywordOf
  rw [List.map_append, List.reverse_append, List.find?_append]
  have hfound : ((rest.map fun s => Pointer.escape s.toList).reverse.find?
      fun s => !s.isEmpty && !Pointer.isIndex s).isSome := by
    rw [List.find?_isSome]
    exact ⟨_, List.mem_reverse.mpr (List.mem_map_of_mem hmem), hword⟩
  obtain ⟨s, hs⟩ := Option.isSome_iff_exists.mp hfound
  rw [hs]
  rfl

/-- The word that is chosen for a keyword when it is read, if its word is not always the same. -/
def chosenWord? : Keyword → Option String
  | .tuple word _ => some word
  | .dependentNames word _ _ => some word
  | .dependentSchema word _ _ => some word
  | _ => none

theorem isWord_of_mem_wordsOf {k : Keyword}
    (h : ∀ word, chosenWord? k = some word → isWord word = true) :
    ∀ word ∈ wordsOf k, isWord word = true := by
  cases k with
  | bound bound _ =>
    rw [wordsOf]
    cases bound <;> decide
  | size measure upper _ =>
    rw [wordsOf]
    cases measure <;> cases upper <;> decide
  | tuple word _ => simpa [wordsOf] using h word rfl
  | dependentNames word _ _ => simpa [wordsOf] using h word rfl
  | dependentSchema word _ _ => simpa [wordsOf] using h word rfl
  | _ =>
    rw [wordsOf]
    decide

/-! ## Keywords that are read -/

section

variable {α β : Type}

theorem Reading.result_bind (x : Reading α) (f : α → Reading β) :
    (x >>= f).result = (f x.result).result := rfl

theorem Reading.result_sequence (xs : List (Reading α)) :
    (Reading.sequence xs).result = xs.map (·.result) := rfl

end

/-- Whether the words that are chosen for some keywords can name them. -/
def Worded (ks : List Keyword) : Prop :=
  ∀ k ∈ ks, ∀ word, chosenWord? k = some word → isWord word = true

namespace Worded

theorem nil : Worded [] := fun _ hk => absurd hk List.not_mem_nil

theorem append {ks ls : List Keyword} (h : Worded ks) (h' : Worded ls) : Worded (ks ++ ls) :=
  fun k hk => (List.mem_append.mp hk).elim (h k) (h' k)

theorem singleton {k : Keyword} (h : ∀ word, chosenWord? k = some word → isWord word = true) :
    Worded [k] := by
  simpa [Worded] using h

/-- A keyword whose word is not chosen. -/
theorem fixed {k : Keyword} (h : chosenWord? k = none) : Worded [k] :=
  singleton fun word hword => absurd (h.symm.trans hword) (Option.some_ne_none word).symm

theorem sequence {α : Type} {xs : List α} {f : α → Reading Keyword}
    (h : ∀ x ∈ xs, ∀ word, chosenWord? (f x).result = some word → isWord word = true) :
    Worded (Reading.sequence (xs.map f)).result := by
  rw [Reading.result_sequence, List.map_map]
  simpa [Worded] using h

end Worded

section

variable {dialect : Dialect} {formats : Bool} {parts : Parts} {part : Part}

theorem worded_readAdditional : Worded (readAdditional parts part).result := by
  unfold readAdditional
  simp only [Reading.result_bind]
  repeat' split
  all_goals first | exact .nil | exact .fixed rfl

theorem worded_readItems : Worded (readItems dialect parts part).result := by
  unfold readItems
  split
  · refine .singleton fun word h => ?_
    obtain rfl := Option.some.inj h
    decide
  · exact .fixed rfl
  · exact .fixed rfl
  · exact .nil

theorem worded_readAdditionalItems : Worded (readAdditionalItems parts part).result := by
  unfold readAdditionalItems
  split
  · exact .fixed rfl
  · exact .fixed rfl
  · exact .nil

theorem worded_readConditional : Worded (readConditional parts part).result := by
  unfold readConditional
  split
  · exact .nil
  · exact .fixed rfl

theorem worded_readInclusive (inclusive exclusive : Bound) :
    Worded (readInclusive dialect inclusive exclusive parts part).result := by
  unfold readInclusive
  split <;> exact .fixed rfl

theorem worded_readPattern : Worded (readPattern part).result := by
  unfold readPattern
  simp only [Reading.result_bind]
  split
  · exact .nil
  · exact .fixed rfl

theorem worded_readShared (word : String) :
    Worded (readShared dialect formats parts part word).result := by
  unfold readShared
  split
  case h_1 => exact worded_readAdditional
  case h_4 =>
    -- an entry is read as names or as a schema, under one word
    split
    · refine .sequence fun field _ word h => ?_
      unfold readDependency at h
      split at h <;> obtain rfl := Option.some.inj h <;> decide
    · exact .nil
  case h_6 =>
    split
    · simp only [Reading.result_bind]
      split
      · exact .fixed rfl
      · exact .nil
    · exact .nil
  case h_7 => exact worded_readItems
  case h_11 => exact worded_readInclusive _ _
  case h_15 => exact worded_readInclusive _ _
  case h_19 => exact worded_readPattern
  -- the other words stand for keywords with words of their own, or for none
  all_goals repeat' split
  all_goals first | exact .nil | exact .fixed rfl

theorem worded_readRecent (word : String) : Worded (readRecent parts part word).result := by
  unfold readRecent
  split
  case h_1 =>
    unfold readReference
    split
    · exact .fixed rfl
    · exact .nil
  case h_4 =>
    split
    · refine .sequence fun member _ word h => ?_
      unfold readRequirement at h
      split at h
      · split at h
        · obtain rfl := Option.some.inj h
          decide
        · cases h
      · cases h
    · exact .nil
  case h_5 =>
    intro k hk word h
    obtain ⟨d, -, rfl⟩ := List.mem_map.mp hk
    obtain rfl := Option.some.inj h
    decide
  case h_8 => exact worded_readConditional
  case h_9 =>
    refine .singleton fun word h => ?_
    obtain rfl := Option.some.inj h
    decide
  all_goals repeat' split
  all_goals first | exact .nil | exact .fixed rfl

theorem worded_readMember (member : String × Part) :
    Worded (readMember dialect formats parts member).result := by
  unfold readMember readOwn
  refine (worded_readShared member.1).append ?_
  cases dialect with
  | draft4 =>
    dsimp only
    split
    · exact worded_readAdditionalItems
    · exact .nil
  | draft2020 => exact worded_readRecent member.1

/-- **A schema object is read into keywords whose words can name them.** -/
theorem worded_read (dialect : Dialect) (formats : Bool) (members : Assoc Json) :
    ∃ ks, (read dialect formats (.object members)).result = .node ks ∧ Worded ks := by
  unfold read
  split
  · refine ⟨_, rfl, ?_⟩
    unfold readReference
    split
    · exact .fixed rfl
    · exact .nil
  · refine ⟨_, rfl, ?_⟩
    rw [readKeywords_eq]
    intro k hk
    obtain ⟨e, -, hk⟩ := List.mem_flatMap.mp hk
    exact worded_readMember e k hk

/-- **The violations of a schema object name the same keywords wherever it is met.** -/
theorem keywordOf_judge_read {m : Meaning} (hm : m.Placeless) {v : Json} (members : Assoc Json) :
    ∀ a ∈ (judge m .root v (read dialect formats (.object members)).result).violations,
      ∀ front, Problem.keywordOf (front ++ a.place.schema) = Problem.keywordOf a.place.schema := by
  obtain ⟨ks, hks, hworded⟩ := worded_read dialect formats members
  rw [hks]
  intro a ha front
  obtain ⟨word, hword, rest, hplace⟩ := under_judgeAll (p := .root) (v := v) hm ks {} a ha
  obtain ⟨k, hk, hword⟩ := List.mem_flatMap.mp hword
  refine keywordOf_append front ?_ (isWord_of_mem_wordsOf (hworded k hk) word hword)
  rw [hplace]
  exact List.mem_append_right _ List.mem_cons_self

end

end Schema

end ApiContract
