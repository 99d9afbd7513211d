import ApiContract.Proofs.Schema.Plain
import ApiContract.Proofs.Schema.Words
/-!
# Where the problems of a document are

What is told of a part of a value is told at the place of that part or further inside. So the problems
of a plain document lead into one of its members: they stand in a member that is declared, or name a
member that is missing.
-/

namespace ApiContract

/-! ## Paths -/

/-- Whether a data path is that of a member, or leads on from it. -/
def Problem.LeadsInto (member path : String) : Prop :=
  ∃ rest : String, path = "." ++ member ++ rest ∧ ∀ c ∈ rest.toList.head?, c = '.' ∨ c = '['

/-- Whether a problem is in one of some members, and has the code of a keyword. -/
structure Problem.Located (members : List String) (x : Problem) : Prop where
  path : ∃ member ∈ members, LeadsInto member x.path
  code : ∃ keyword, x.code = some (codeOf keyword)

/-- What the path of a violation adds to that of the value: the name of a property. -/
def Problem.suffixOf : Schema.Cause → String
  | .missing name => "." ++ name
  | .unexpectedProperties (first :: _) => "." ++ first
  | _ => ""

theorem Problem.pathOf_of_ne {a : Schema.Violation}
    (h : Pointer.dotted (a.place.value.map String.toList) ++ suffixOf a.cause ≠ "") :
    pathOf a = Pointer.dotted (a.place.value.map String.toList) ++ suffixOf a.cause := by
  have hpath : pathOf a =
      let path := Pointer.dotted (a.place.value.map String.toList) ++ suffixOf a.cause
      if path.isEmpty then Pointer.render a.place.schema else path := by
    unfold pathOf suffixOf
    cases a.cause with
    | unexpectedProperties names => cases names <;> simp [String.append_assoc]
    | _ => simp [String.append_assoc]
  rw [hpath]
  exact if_neg (by simpa [String.isEmpty_iff] using h)

/-- A data path with segments is not empty. -/
theorem Pointer.dotted_ne {segments : List (List Char)} (h : segments ≠ []) :
    dotted segments ≠ "" := by
  cases segments with
  | nil => exact absurd rfl h
  | cons segment rest =>
    intro hempty
    have hlist := congrArg String.toList hempty
    rw [dotted, String.toList_ofList, List.flatMap_cons] at hlist
    split at hlist <;> simp at hlist

/-- The place of the schema is only shown for what is told of the document itself. -/
theorem Problem.pathOf_of_place {a : Schema.Violation} (h : a.place.value ≠ []) :
    pathOf a = Pointer.dotted (a.place.value.map String.toList) ++ suffixOf a.cause := by
  have hdotted : Pointer.dotted (a.place.value.map String.toList) ≠ "" :=
    Pointer.dotted_ne (by simp [h])
  refine pathOf_of_ne fun hempty => hdotted ?_
  have hlist := congrArg String.toList hempty
  rw [String.toList_append] at hlist
  exact String.toList_inj.mp (List.append_eq_nil_iff.mp hlist).1

theorem Problem.head?_suffixOf (cause : Schema.Cause) :
    ∀ c ∈ (suffixOf cause).toList.head?, c = '.' := by
  unfold suffixOf
  split <;> simp

namespace Schema

open Verdict

theorem head?_dotted (segments : List (List Char)) :
    ∀ c ∈ (Pointer.dotted segments).toList.head?, c = '.' ∨ c = '[' := by
  cases segments with
  | nil => simp [Pointer.dotted]
  | cons segment rest =>
    rw [Pointer.dotted, String.toList_ofList, List.flatMap_cons]
    split <;> simp

theorem dotted_cons {member : String} (h : Pointer.isIndex member.toList = false)
    (segments : List String) : Pointer.dotted ((member :: segments).map String.toList) =
      "." ++ member ++ Pointer.dotted (segments.map String.toList) := by
  refine String.toList_inj.mp ?_
  simp [Pointer.dotted, h]

/-- A violation in a member leads into it. -/
theorem leadsInto_of_place {a : Violation} {member : String} {segments : List String}
    (ha : a.place.value = member :: segments) (h : Pointer.isIndex member.toList = false) :
    Problem.LeadsInto member (Problem.pathOf a) := by
  have hpath : Problem.pathOf a = "." ++ member ++
      (Pointer.dotted (segments.map String.toList) ++ Problem.suffixOf a.cause) := by
    rw [Problem.pathOf_of_place (by simp [ha]), ha, dotted_cons h, String.append_assoc]
  refine ⟨_, hpath, fun c hc => ?_⟩
  rw [String.toList_append, List.head?_append] at hc
  rcases Option.or_eq_some_iff.mp hc with hc | ⟨-, hc⟩
  · exact head?_dotted _ c hc
  · exact Or.inl (Problem.head?_suffixOf _ c hc)

/-- The violation of a member that is missing leads to where it would be. -/
theorem leadsInto_of_missing {a : Violation} {name : String} (ha : a.place.value = [])
    (hcause : a.cause = .missing name) : Problem.LeadsInto name (Problem.pathOf a) := by
  have hpath : Problem.pathOf a = "." ++ name := by
    rw [Problem.pathOf_of_ne] <;> rw [ha, hcause] <;>
      simp [Pointer.dotted, Problem.suffixOf, ← String.toList_inj]
  exact ⟨"", by rw [hpath, String.append_empty], by simp⟩

/-! ## Places -/

/-- Whatever is told of a value stands at its place or inside of it. -/
theorem exists_place_of_mem_judge {m : Meaning} (hm : m.Placeless) {s : Schema} {p : Place} {v : Json}
    {a : Violation} (ha : a ∈ (judge m p v s).violations) : ∃ q, a.place = p.append q := by
  rw [← below_judge hm] at ha
  obtain ⟨b, -, rfl⟩ := List.mem_map.mp ha
  exact ⟨b.place, rfl⟩

section

variable {m : Meaning} {p : Place} {members : Assoc Json} {a : Violation}

theorem mem_violations_append {x y : Verdict} :
    a ∈ (x ++ y).violations ↔ a ∈ x.violations ∨ a ∈ y.violations := List.mem_append

theorem mem_violations_judgeProperties {fields : List (String × Schema)} :
    a ∈ (judgeProperties m p members fields).violations ↔
      ∃ f ∈ fields, ∃ w, members.get? f.1 = some w ∧
        a ∈ (judge m.inside (((p.into f.1).under "properties").under f.1) w f.2).violations := by
  have hreport : (judgeProperties m p members fields).report id = _ :=
    report_judgeProperties id fields
  simp only [report, List.map_id] at hreport
  rw [hreport, List.mem_flatMap]
  refine exists_congr fun f => and_congr_right fun _ => ?_
  cases members.get? f.1 <;> simp

theorem mem_violations_required {covered : Coverage} {names : List String} :
    a ∈ (judgeKeyword m p (.object members) covered (.required names)).violations ↔
      ∃ k ∈ names, members.contains k = false ∧
        a = ⟨p.under "required", .object members, .missing k⟩ := by
  have hreport := report_join_map id names fun k =>
    Verdict.check (members.contains k) (p.under "required") (.object members) (.missing k)
  simp only [report, List.map_id] at hreport
  rw [judgeKeyword, hreport, List.mem_flatMap]
  refine exists_congr fun k => and_congr_right fun _ => ?_
  cases members.contains k <;> simp [Verdict.check]

/-- **What is told of an object by a plain schema** is told of a property that is declared, or of one
that is required and missing. -/
theorem mem_violations_judge_plain {fields : List (String × Schema)}
    {required : Option (List String)} {typed : Bool} :
    a ∈ (judge m p (.object members) (.node (plainKeywords fields required typed))).violations ↔
      (∃ f ∈ fields, ∃ w, members.get? f.1 = some w ∧
        a ∈ (judge m.inside (((p.into f.1).under "properties").under f.1) w f.2).violations) ∨
      ∃ k ∈ required.getD [], members.contains k = false ∧
        a = ⟨p.under "required", .object members, .missing k⟩ := by
  have hproperties : ∀ covered, judgeKeyword m p (.object members) covered (.properties fields) =
      judgeProperties m p members fields := fun _ => rfl
  have hkind : ∀ covered, (judgeKeyword m p (.object members) covered
      (.kind [.object])).violations = [] := fun _ => rfl
  unfold plainKeywords
  cases required <;> cases typed <;>
    simp [judge, judgeAll, mem_violations_append, hproperties, hkind,
      mem_violations_judgeProperties, mem_violations_required]

end

end Schema

end ApiContract
