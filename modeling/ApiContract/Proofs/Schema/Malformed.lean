import ApiContract.Proofs.Schema.Plain
/-!
# What is wrong with a document

A document that is refused is reported by the value and the cause of what is found first, and not by
its place. What is found in a plain document is what is found in its properties, one after the
other, and what is found beside them.
-/

namespace ApiContract

namespace Schema

/-- The value that is wrong, and why, without its place. -/
def Violation.finding (v : Violation) : Json × Cause := (v.value, v.cause)

open Violation (finding)

theorem Verdict.Alike.findings_eq {x y : Verdict} {p p' : Place} (h : x.Alike p p' y) :
    x.report finding = y.report finding := by
  obtain ⟨z, rfl, rfl⟩ := h
  simp only [report, below, List.map_map]
  rfl

open Verdict

section

variable {d : Dialect} {m m' : Meaning} {p p' : Place} {v v' w : Json} {fuel fuel' : Nat}

/-! ## Keywords, properties and branches -/

theorem findings_judgeAll_congr {ks : List Keyword}
    (h : ∀ k ∈ ks, ∀ covered covered', (judgeKeyword m p v covered k).report finding =
      (judgeKeyword m' p' v' covered' k).report finding) :
    ∀ covered covered', (judgeAll m p v covered ks).report finding =
      (judgeAll m' p' v' covered' ks).report finding := by
  induction ks with
  | nil => intro _ _; rfl
  | cons k ks ih =>
    intro covered covered'
    simp only [judgeAll, report_append]
    rw [h k List.mem_cons_self covered covered',
      ih (fun l hl => h l (List.mem_cons_of_mem _ hl)) _ (covered' ++ _)]

/-- What is found in the property of a declaration, if it is there. -/
def findingsAt (m : Meaning) (p : Place) (members : Assoc Json) (f : String × Schema) :
    List (Json × Cause) :=
  ((members.get? f.1).map fun w =>
    (judge m.inside (((p.into f.1).under "properties").under f.1) w f.2).report finding).getD []

theorem findings_judgeProperties {members : Assoc Json} (declared : List (String × Schema)) :
    (judgeProperties m p members declared).report finding =
      declared.flatMap (findingsAt m p members) :=
  report_judgeProperties finding declared

theorem findings_judgeBranches_congr {branches : List Schema}
    (h : ∀ s ∈ branches, ∀ p p',
      (judge m p v s).report finding = (judge m' p' v' s).report finding) :
    ∀ (p p' : Place) (n : Nat),
      (join ((judgeBranches m p v n branches).map inPlace)).report finding =
        (join ((judgeBranches m' p' v' n branches).map inPlace)).report finding := by
  induction branches with
  | nil => intro _ _ _; rfl
  | cons s ss ih =>
    intro p p' n
    simp only [judgeBranches, List.map_cons]
    show (inPlace _ ++ join _).report finding = (inPlace _ ++ join _).report finding
    rw [report_append, report_append, report_inPlace, report_inPlace,
      h s List.mem_cons_self _ (p'.under (toString n)),
      ih (fun t ht => h t (List.mem_cons_of_mem _ ht)) p p' (n + 1)]

/-! ## Schemas in a document -/

/-- What the metaschema finds in a document. -/
def findingsOf (d : Dialect) (v : Json) : List (Json × Cause) :=
  ((metaschema d).verdict v).report finding

theorem accepts_iff_findingsOf : (metaschema d).accepts v = true ↔ findingsOf d v = [] := by
  rw [Compiled.accepts, Verdict.accepted, List.isEmpty_iff, findingsOf, report,
    List.map_eq_nil_iff]

theorem findings_judge_schema (hfuel : (metaschema d).Ample [] v fuel) (hw : depth w < depth v) :
    (judge ((metaschema d).meaning fuel) p w Metaschema.schema).report finding =
      findingsOf d w := by
  obtain ⟨x, hx, halike⟩ := exists_judge_schema (p := p) hfuel hw
  rw [hx, report_append, report_inPlace, halike.findings_eq]
  exact List.append_nil _

/-- In a map of schemas is found what is found in each of them. -/
theorem findings_judge_schemaFields {declared : Assoc Json}
    (hfuel : (metaschema d).Ample [] v fuel) (hdepth : depth (.object declared) < depth v) :
    (judge ((metaschema d).meaning fuel) p (.object declared)
        Metaschema.schemaFields).report finding =
      declared.flatMap fun e => findingsOf d e.2 := by
  have hpartition : ∀ covered, (judgeKeyword ((metaschema d).meaning fuel) p (.object declared)
      covered (.partition [] [] Metaschema.schema)).report finding =
        declared.flatMap fun e => findingsOf d e.2 := by
    intro covered
    rw [judgeKeyword, report_join_map]
    refine List.flatMap_congr fun e he => ?_
    rw [report_ofPart_append_cover]
    exact findings_judge_schema hfuel (Nat.lt_trans (depth_lt_of_mem_members he) hdepth)
  simp only [Metaschema.schemaFields, Metaschema.objectOf, judge, judgeAll, report_append,
    hpartition]
  exact List.append_nil _

/-! ## Documents that differ in their properties -/

/-- Whether the metaschema finds the same in two objects by what they hold: apart from components
they differ only in their properties, in which the same is found. -/
structure SameFields (d : Dialect) (members members' : Assoc Json) : Prop where
  same : ∀ k, k ≠ "components" → k ≠ "properties" → members.get? k = members'.get? k
  unbounded : ∀ k ∈ ["exclusiveMaximum", "exclusiveMinimum"], members.get? k = none
  declared : ∃ fields fields', members.get? "properties" = some (.object fields) ∧
    members'.get? "properties" = some (.object fields') ∧
    fields.flatMap (fun e => findingsOf d e.2) = fields'.flatMap fun e => findingsOf d e.2

variable {members members' : Assoc Json}

/-- What is found in a property of such objects is the same. -/
theorem SameFields.findingsAt_eq (h : SameFields d members members')
    (hfuel : (metaschema d).Ample [] (.object members) fuel)
    (hfuel' : (metaschema d).Ample [] (.object members') fuel') {f : String × Schema}
    (hname : f.1 ≠ "components") (hfields : f.1 = "properties" → f.2 = Metaschema.schemaFields)
    (htargets : ∀ t ∈ targets f.2, t ∈ ["#"]) :
    findingsAt ((metaschema d).meaning fuel) p members f =
      findingsAt ((metaschema d).meaning fuel') p' members' f := by
  unfold findingsAt
  by_cases hp : f.1 = "properties"
  · obtain ⟨fields, fields', hf, hf', hsame⟩ := h.declared
    rw [hp, hf, hf', hfields hp]
    have hw := depth_lt_of_mem_members (v := .object members) (Assoc.mem_of_get? hf)
    have hw' := depth_lt_of_mem_members (v := .object members') (Assoc.mem_of_get? hf')
    exact (findings_judge_schemaFields hfuel hw).trans
      (hsame.trans (findings_judge_schemaFields hfuel' hw').symm)
  · rw [← h.same f.1 hname hp]
    cases hw : members.get? f.1 with
    | none => rfl
    | some w =>
      have hw' : members'.get? f.1 = some w := (h.same f.1 hname hp).symm.trans hw
      exact (Compiled.alike_judge_meaning (share_metaschema d) htargets
        (hfuel.mono (Nat.le_of_lt (depth_lt_of_mem_members (Assoc.mem_of_get? hw))))
        (hfuel'.mono (Nat.le_of_lt (depth_lt_of_mem_members (Assoc.mem_of_get? hw'))))
        _ _).findings_eq

/-- Keywords that look at such objects by name find the same. -/
theorem findings_of_facewise {known : Prop} (hunknown : ¬known)
    (h : SameFields d members members')
    (hfuel : (metaschema d).Ample [] (.object members) fuel)
    (hfuel' : (metaschema d).Ample [] (.object members') fuel') {k : Keyword}
    (hk : Facewise "components" known k) :
    (∀ t ∈ targetsOfKeyword k, t ∈ ["#"]) → ∀ (p p' : Place) (covered covered' : Coverage),
      (judgeKeyword ((metaschema d).meaning fuel) p (.object members) covered k).report finding =
        (judgeKeyword ((metaschema d).meaning fuel') p' (.object members') covered'
          k).report finding := by
  induction hk with
  | kind kinds hobject =>
    intro _ p p' covered covered'
    have hhas : ∀ (dialect : Dialect) (fields : Assoc Json),
        kinds.any (·.has dialect (.object fields)) = true :=
      fun dialect fields => List.any_eq_true.mpr ⟨.object, hobject, rfl⟩
    simp only [judgeKeyword, hhas]
    rfl
  | dependentNames word property names hname hnames hbound =>
    intro _ p p' covered covered'
    have hnone := h.unbounded property hbound
    have hnone' : members'.get? property = none := by
      rw [← h.same property hname (by rintro rfl; simp at hbound), hnone]
    simp only [judgeKeyword, Assoc.contains_eq, hnone, hnone']
    rfl
  | properties declared hnames hfields =>
    intro htargets p p' covered covered'
    rw [judgeKeyword, judgeKeyword]
    simp only [membersOf, Json.asObject?, Option.getD_some, findings_judgeProperties]
    refine List.flatMap_congr fun f hf => h.findingsAt_eq hfuel hfuel'
      (fun hname => hunknown (hnames f hf hname)) (hfields f hf)
      fun t ht => htargets t (mem_targets_of_properties hf ht)
  | allOf branches hs _ ih =>
    intro htargets p p' covered covered'
    refine findings_judgeBranches_congr (fun s hmem q q' => ?_) _ _ 0
    obtain ⟨ks, rfl⟩ := hs s hmem
    exact findings_judgeAll_congr (fun k hk => ih ks hmem k hk
      (fun t ht => htargets t (mem_targets_of_allOf hmem (mem_targets_of_node hk ht))) q q') {} {}

/-- **Documents with the same findings in their properties have the same findings.** -/
theorem findingsOf_congr (h : SameFields d members members') :
    findingsOf d (.object members) = findingsOf d (.object members') := by
  obtain ⟨ks, hs, hks⟩ := facewise_metaschema d (Or.inl rfl)
  have htargets : ∀ k ∈ ks, ∀ t ∈ targetsOfKeyword k, t ∈ ["#"] := fun k hk t ht =>
    targets_metaschema d t (hs ▸ mem_targets_of_node hk ht)
  show (judge ((metaschema d).meaning _) .root (.object members)
      (metaschema d).schema).report finding =
    (judge ((metaschema d).meaning _) .root (.object members')
      (metaschema d).schema).report finding
  rw [hs]
  exact findings_judgeAll_congr (fun k hk => findings_of_facewise (by decide) h
    ((metaschema d).ample_followBound (Nat.le_refl _))
    ((metaschema d).ample_followBound (Nat.le_refl _)) (hks k hk) (htargets k hk) _ _) {} {}

/-- A document is refused for what is found first, and linked if nothing is found. -/
theorem compile_eq (d : Dialect) (formats : Bool) (root : Json) :
    compile d formats root = match findingsOf d root with
      | (value, cause) :: _ => .error (.malformed value cause)
      | [] => link d formats root := by
  unfold compile findingsOf report Compiled.violations
  cases ((metaschema d).verdict root).violations <;> rfl

end

end Schema

end ApiContract
