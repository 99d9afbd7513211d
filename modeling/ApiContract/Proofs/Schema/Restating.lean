import ApiContract.Proofs.Assoc.Related
import ApiContract.Proofs.Schema.Located
import ApiContract.Proofs.Schema.Malformed
import ApiContract.Proofs.Schema.Relinking
import ApiContract.Schema.Compiler
/-!
# Schemas by reference

A schema and a reference to it tell the same problems, as long as judging does not come back to the
reference at the same value. So plain documents that differ in writing a schema out or by reference
are refused alike, or compiled alike: they tell the same problems of every value.
-/

namespace ApiContract

namespace Schema

open Problem (ofViolation)
open Verdict

/-! ## Problems -/

/-- The path of a problem inside of a value is that of the value. -/
theorem pathOf_below {p q : Place} (hsame : p.value = q.value) (hp : p.value ≠ [])
    (a : Violation) : Problem.pathOf (a.below p) = Problem.pathOf (a.below q) := by
  have hinside : (a.below p).place.value = (a.below q).place.value :=
    congrArg (· ++ a.place.value) hsame
  have hne : (a.below p).place.value ≠ [] := by simp [Violation.below, Place.append, hp]
  rw [Problem.pathOf_of_place hne, Problem.pathOf_of_place (hinside ▸ hne), hinside]
  rfl

/-- A violation inside of a value is the same problem under a reference, if its own place names the
keyword. -/
theorem ofViolation_below {p : Place} (hp : p.value ≠ []) {word : String} {a : Violation}
    (hkey : ∀ front, Problem.keywordOf (front ++ a.place.schema) =
      Problem.keywordOf a.place.schema) :
    Problem.ofViolation (a.below (p.under word)) = Problem.ofViolation (a.below p) := by
  have hpath := pathOf_below (p := p.under word) (q := p) rfl hp a
  have hkeyword : Problem.keywordOf ((p.under word).schema ++ a.place.schema) =
      Problem.keywordOf (p.schema ++ a.place.schema) := by rw [hkey, hkey]
  exact congrArg₂ (Problem.ofKeyword · (Problem.messageOf a) ·) hpath hkeyword

/-! ## A reference to a schema -/

/-- A schema that is a reference. -/
def reference (target : String) : Json := .object [("$ref", .string target)]

section

variable {dialect : Dialect} {formats : Bool}

theorem read_reference (target : String) :
    read dialect formats (reference target) =
      ⟨.node [.reference target], [.reference target]⟩ := by
  cases dialect <;> rfl

theorem normalize_reference (target : String) : normalize (reference target) = reference target :=
  rfl

theorem findingsOf_reference (d : Dialect) (target : String) :
    findingsOf d (reference target) = [] := by
  cases d <;> rfl

/-- **A reference to a schema object tells the problems that the object does**, where judging by it
does not come to the reference at the value itself. -/
theorem problems_judge_reference {c c' : Compiled} {scope : List String} (hshare : c.Share c' scope)
    {members : Assoc Json}
    (hscope : ∀ t ∈ targets (read dialect formats (.object members)).result, t ∈ scope)
    {target : String}
    (htarget : c'.definitions.get? target = some (read dialect formats (.object members)).result)
    {nearby : String → Prop} (hclosed : c.ClosedNear nearby)
    (hnear : ∀ t ∈ near (read dialect formats (.object members)).result, nearby t)
    (hnot : ¬nearby target) {p : Place} (hp : p.value ≠ []) {v : Json} {fuel fuel' : Nat}
    (hfuel : c.Ample [] v fuel) (hfuel' : c'.Ample [] v fuel') :
    (judge (c.meaning fuel) p v
        (read dialect formats (.object members)).result).report ofViolation =
      (judge (c'.meaning fuel') p v (.node [.reference target])).report ofViolation := by
  generalize hs : (read dialect formats (.object members)).result = s at hscope htarget hnear ⊢
  -- one verdict, told below the place and below the reference
  let z := judge (c.meaning fuel) .root v s
  have hplain : z.below p = judge (c.meaning fuel) p v s := below_judge (c.placeless_meaning fuel) s p v
  have hfollowed : z.below (p.under "$ref") = c'.follow fuel' [] target (p.under "$ref") v := by
    obtain ⟨y, hy, hy'⟩ := Compiled.alike_follow_definition hshare hscope htarget hclosed hnear hnot
      hfuel hfuel' .root (p.under "$ref")
    obtain rfl : y = z := (below_root y).symm.trans hy
    exact hy'
  have hreference : judge (c'.meaning fuel') p v (.node [.reference target]) =
      (c'.follow fuel' [] target (p.under "$ref") v).inPlace ++ {} := rfl
  rw [hreference, report_append, report_inPlace, ← hplain, ← hfollowed]
  refine Eq.trans ?_ (List.append_nil _).symm
  simp only [report, below, List.map_map]
  refine List.map_congr_left fun a ha => (ofViolation_below hp ?_).symm
  exact keywordOf_judge_read (c.placeless_meaning fuel) members a (by rw [hs]; exact ha)

end

/-! ## Plain schemas with other properties -/

/-- A plain schema tells the problems of its properties one after the other, and then those of the
object. -/
theorem problems_judge_plain_congr {m m' : Meaning} {p : Place} {v : Json}
    {fields fields' : List (String × Schema)} {required : Option (List String)} {typed : Bool}
    (h : List.Forall₂ (fun f f' => f'.1 = f.1 ∧ ∀ w, (membersOf v).get? f.1 = some w →
      (judge m.inside (((p.into f.1).under "properties").under f.1) w f.2).report ofViolation =
        (judge m'.inside (((p.into f.1).under "properties").under f.1) w f'.2).report ofViolation)
      fields fields') :
    (judge m p v (.node (plainKeywords fields required typed))).report ofViolation =
      (judge m' p v (.node (plainKeywords fields' required typed))).report ofViolation := by
  have hproperties : ∀ covered covered',
      (judgeKeyword m p v covered (.properties fields)).report ofViolation =
        (judgeKeyword m' p v covered' (.properties fields')).report ofViolation := by
    intro covered covered'
    rw [judgeKeyword, judgeKeyword]
    induction h with
    | nil => rfl
    | @cons f f' rest rest' h _ ih =>
      obtain ⟨l, s⟩ := f
      obtain ⟨k, s'⟩ := f'
      obtain ⟨hname, h⟩ := h
      dsimp only at hname h
      subst hname
      rw [judgeProperties, judgeProperties, report_append, report_append, ih]
      refine congrArg (· ++ _) ?_
      cases hw : (membersOf v).get? k with
      | none => rfl
      | some w =>
        rw [report_ofPart_append_cover, report_ofPart_append_cover]
        exact h w hw
  have hrequired : ∀ names covered covered', judgeKeyword m p v covered (.required names) =
      judgeKeyword m' p v covered' (.required names) := fun _ _ _ => by cases v <;> rfl
  have hkind : ∀ covered covered', judgeKeyword m p v covered (.kind [.object]) =
      judgeKeyword m' p v covered' (.kind [.object]) := fun _ _ => by cases v <;> rfl
  have hrest : ∀ ks : List Keyword, (∀ k ∈ ks, ∀ covered covered',
      judgeKeyword m p v covered k = judgeKeyword m' p v covered' k) → ∀ covered covered',
        (judgeAll m p v covered ks).report ofViolation =
          (judgeAll m' p v covered' ks).report ofViolation := by
    intro ks
    induction ks with
    | nil => intro _ _ _; rfl
    | cons k ks ih =>
      intro hks covered covered'
      simp only [judgeAll, report_append]
      rw [hks k List.mem_cons_self covered covered',
        ih (fun l hl => hks l (List.mem_cons_of_mem _ hl)) _ (covered' ++ _)]
  unfold plainKeywords
  simp only [judge, judgeAll, report_append]
  rw [hproperties {} {}]
  refine congrArg _ (hrest _ (fun k hk covered covered' => ?_) _ _)
  rcases List.mem_append.mp hk with hk | hk
  · obtain ⟨names, -, rfl⟩ := Option.map_eq_some_iff.mp (Option.mem_toList.mp hk)
    exact hrequired names covered covered'
  · cases typed with
    | true =>
      obtain rfl := List.mem_singleton.mp hk
      exact hkind covered covered'
    | false => exact absurd hk List.not_mem_nil

/-! ## Schemas that may stand for one another -/

section

variable (dialect : Dialect) (formats : Bool) (root root' : Json) (scope known : String → Prop)

/-- Two documents with the same parts, and what is compiled from them. -/
structure Compared (c c' : Compiled) : Prop where
  parts : SameParts root root' scope
  linked : Linked dialect formats root c
  linked' : Linked dialect formats root' c'
  within : ∀ t, c.definitions.contains t = true → scope t

/-- Whether a schema may stand for another in such documents: the metaschema finds the same in both,
they refer to the same but for some known references, and they tell the same problems of the parts
of a value. -/
structure Interchangeable (v v' : Json) : Prop where
  findings : findingsOf dialect v = findingsOf dialect v'
  events : SameEventsBut known (read dialect formats v).events (read dialect formats v').events
  problems : ∀ c c', Compared dialect formats root root' scope c c' →
    (∀ t, .reference t ∈ (read dialect formats v).events → c.definitions.contains t = true) →
    (∀ t, .reference t ∈ (read dialect formats v').events → c'.definitions.contains t = true) →
      ∀ (p : Place) w fuel fuel', p.value ≠ [] → c.Ample [] w fuel → c'.Ample [] w fuel' →
        (judge (c.meaning fuel) p w (read dialect formats v).result).report ofViolation =
          (judge (c'.meaning fuel') p w (read dialect formats v').result).report ofViolation

end

section

variable {dialect : Dialect} {formats : Bool} {root root' : Json} {scope known : String → Prop}
  {c c' : Compiled}

/-- What both documents define. -/
theorem Compared.share (h : Compared dialect formats root root' scope c c') :
    c.Share c' (c.definitions.keys.filter c'.definitions.contains) :=
  h.linked.share_common h.linked' h.parts h.within

theorem mem_common {t : String} (ht : c.definitions.contains t = true)
    (ht' : c'.definitions.contains t = true) :
    t ∈ c.definitions.keys.filter c'.definitions.contains :=
  List.mem_filter.mpr ⟨Assoc.contains_iff_mem_keys.mp ht, ht'⟩

namespace Interchangeable

theorem refl (v : Json) : Interchangeable dialect formats root root' scope known v v where
  findings := rfl
  events := .refl _
  problems := by
    intro c c' h hv hv' p w fuel fuel' _ hfuel hfuel'
    have halike := Compiled.alike_judge_meaning h.share
      (s := (read dialect formats v).result) (fun t ht => mem_common
        (hv t (reference_mem_events ht)) (hv' t (reference_mem_events ht))) hfuel hfuel' p p
    rw [halike.eq]

/-- **A reference to a good schema object may stand for it.** -/
theorem reference {members : Assoc Json} {target : String} {nearby : String → Prop}
    (hgood : findingsOf dialect (.object members) = [])
    (htarget : resolveReference root' target = .ok (.object members)) (hknown : known target)
    (hevents : ∀ e ∈ (read dialect formats (.object members)).events,
      ∃ t, e = .reference t ∧ known t)
    (hclosed : ∀ t v, scope t → nearby t → resolveReference root t = .ok v →
      ∀ u ∈ near (read dialect formats v).result, nearby u)
    (hnear : ∀ t ∈ near (read dialect formats (.object members)).result, nearby t)
    (hnot : ¬nearby target) :
    Interchangeable dialect formats root root' scope known (.object members)
      (Schema.reference target) where
  findings := by rw [hgood, findingsOf_reference]
  events := by
    refine .of_known hevents fun e he => ⟨target, ?_, hknown⟩
    rw [read_reference] at he
    exact List.mem_singleton.mp he
  problems := by
    intro c c' h hv hv' p w fuel fuel' hp hfuel hfuel'
    rw [read_reference] at hv' ⊢
    have hcontains := hv' target List.mem_cons_self
    obtain ⟨s, hs⟩ := Option.isSome_iff_exists.mp hcontains
    obtain ⟨u, hu, -, rfl, hinner⟩ := h.linked'.settled target s hs
    obtain rfl := Except.ok.inj (hu.symm.trans htarget)
    refine problems_judge_reference h.share (fun t ht => ?_) hs (fun t s ht hs => ?_) hnear hnot hp
      hfuel hfuel'
    · exact mem_common (hv t (reference_mem_events ht)) (hinner t (reference_mem_events ht))
    · obtain ⟨u, hu, -, rfl, -⟩ := h.linked.settled t s hs
      exact hclosed t u (h.within t (by simp [Assoc.contains_eq, hs])) ht hu

/-- What interchangeable properties refer to. -/
theorem sameEventsBut {declared declared' : Assoc Json}
    (h : Assoc.Rel (Interchangeable dialect formats root root' scope known) declared declared') :
    SameEventsBut known (declared.flatMap fun e => (read dialect formats e.2).events)
      (declared'.flatMap fun e => (read dialect formats e.2).events) := by
  induction h with
  | nil => exact .nil
  | cons h _ ih => exact h.2.events.append ih

theorem sameFindings {declared declared' : Assoc Json}
    (h : Assoc.Rel (Interchangeable dialect formats root root' scope known) declared declared') :
    (declared.flatMap fun e => findingsOf dialect e.2) =
      declared'.flatMap fun e => findingsOf dialect e.2 := by
  induction h with
  | nil => rfl
  | cons h _ ih => rw [List.flatMap_cons, List.flatMap_cons, h.2.findings, ih]

/-- Plain schemas whose properties are interchangeable tell the same problems. -/
theorem problems_plain {declared declared' : Assoc Json} {required : Option (List String)}
    {typed : Bool}
    (h : Assoc.Rel (Interchangeable dialect formats root root' scope known) declared declared')
    (hc : Compared dialect formats root root' scope c c')
    (hv : ∀ t, .reference t ∈ declared.flatMap (fun e => (read dialect formats e.2).events) →
      c.definitions.contains t = true)
    (hv' : ∀ t, .reference t ∈ declared'.flatMap (fun e => (read dialect formats e.2).events) →
      c'.definitions.contains t = true)
    (p : Place) {w : Json} {fuel fuel' : Nat} (hfuel : c.Ample [] w fuel)
    (hfuel' : c'.Ample [] w fuel') :
    (judge (c.meaning fuel) p w (read dialect formats
        (.object (plainMembers declared required typed))).result).report ofViolation =
      (judge (c'.meaning fuel') p w (read dialect formats
        (.object (plainMembers declared' required typed))).result).report ofViolation := by
  rw [read_plain, read_plain]
  refine problems_judge_plain_congr ?_
  rw [List.forall₂_map_left_iff, List.forall₂_map_right_iff]
  induction h with
  | nil => exact .nil
  | @cons d d' rest rest' h _ ih =>
    refine .cons ⟨h.1, fun u hu => ?_⟩ (ih (fun t ht => hv t (List.mem_append_right _ ht))
      fun t ht => hv' t (List.mem_append_right _ ht))
    have hdepth := Nat.le_of_lt (depth_lt_of_mem_members (Assoc.mem_of_get? hu))
    exact h.2.problems c c' hc (fun t ht => hv t (List.mem_append_left _ ht))
      (fun t ht => hv' t (List.mem_append_left _ ht)) _ u fuel fuel'
      (by simp [Place.into, Place.under]) (hfuel.mono hdepth) (hfuel'.mono hdepth)

end Interchangeable

/-- Plain members with components beside them hold the same fields. -/
theorem sameFields_plain {declared declared' members members' : Assoc Json}
    {required : Option (List String)} {typed : Bool}
    (hsame : SameBut "components" members (plainMembers declared required typed))
    (hsame' : SameBut "components" members' (plainMembers declared' required typed))
    (h : (declared.flatMap fun e => findingsOf dialect e.2) =
      declared'.flatMap fun e => findingsOf dialect e.2) :
    SameFields dialect members members' where
  same k hk hp := by
    rw [hsame k hk, hsame' k hk]
    unfold plainMembers
    rw [Assoc.get?_cons, Assoc.get?_cons, if_neg (Ne.symm hp), if_neg (Ne.symm hp)]
  unbounded k hk := by
    simp only [List.mem_cons, List.not_mem_nil, or_false] at hk
    rcases hk with rfl | rfl <;> rw [hsame _ (by decide)] <;>
      exact get?_plainMembers (by decide) (by decide) (by decide)
  declared := ⟨declared, declared', by rw [hsame _ (by decide), get?_plainMembers_properties],
    by rw [hsame' _ (by decide), get?_plainMembers_properties], h⟩

theorem exists_withComponents (components : Option Json) (members : Assoc Json) :
    ∃ members', withComponents components (.object members) = .object members' ∧
      SameBut "components" members' members := by
  cases components with
  | none => exact ⟨members, rfl, fun _ _ => rfl⟩
  | some c => exact ⟨_, rfl, fun k hk => Assoc.get?_insert_of_ne _ _ (Ne.symm hk)⟩

theorem findingsOf_withComponents {components components' : Option Json}
    {declared declared' : Assoc Json} {required : Option (List String)} {typed : Bool}
    (h : (declared.flatMap fun e => findingsOf dialect e.2) =
      declared'.flatMap fun e => findingsOf dialect e.2) :
    findingsOf dialect
        (withComponents components (.object (plainMembers declared required typed))) =
      findingsOf dialect
        (withComponents components' (.object (plainMembers declared' required typed))) := by
  obtain ⟨members, hmembers, hsame⟩ :=
    exists_withComponents components (plainMembers declared required typed)
  obtain ⟨members', hmembers', hsame'⟩ :=
    exists_withComponents components' (plainMembers declared' required typed)
  rw [hmembers, hmembers']
  exact findingsOf_congr (sameFields_plain hsame hsame' h)

/-- **Plain schemas whose properties are interchangeable are so themselves.** -/
theorem Interchangeable.plain {declared declared' : Assoc Json} {required : Option (List String)}
    {typed : Bool}
    (h : Assoc.Rel (Interchangeable dialect formats root root' scope known) declared declared') :
    Interchangeable dialect formats root root' scope known
      (.object (plainMembers declared required typed))
      (.object (plainMembers declared' required typed)) where
  findings := findingsOf_congr (sameFields_plain (fun _ _ => rfl) (fun _ _ => rfl)
    (Interchangeable.sameFindings h))
  events := by
    rw [read_plain, read_plain]
    exact Interchangeable.sameEventsBut h
  problems := by
    intro c c' hc hv hv' p w fuel fuel' _ hfuel hfuel'
    rw [read_plain] at hv hv'
    exact Interchangeable.problems_plain h hc hv hv' p hfuel hfuel'

/-- **Documents whose properties are interchangeable are refused alike, or tell the same problems of
every value.** -/
theorem rel_compile {declared declared' : Assoc Json} {required : Option (List String)}
    {typed : Bool} {components components' : Option Json}
    (hroot : root = withComponents components (.object (plainMembers declared required typed)))
    (hroot' : root' = withComponents components' (.object (plainMembers declared' required typed)))
    (hparts : SameParts root root' scope) (hknown : ClosedUnder dialect formats root known)
    (hknown' : ClosedUnder dialect formats root' known)
    (hscope : ∀ t, .reference t ∈ (read dialect formats root).events → scope t)
    (hscope' : ∀ t, .reference t ∈ (read dialect formats root').events → scope t)
    (h : Assoc.Rel (Interchangeable dialect formats root root' scope known) declared declared') :
    Except.Rel (fun c c' : Compiled => ∀ w, c.problems w = c'.problems w)
      (compile dialect formats root) (compile dialect formats root') := by
  have hfindings : findingsOf dialect root = findingsOf dialect root' := by
    rw [hroot, hroot']
    exact findingsOf_withComponents (Interchangeable.sameFindings h)
  have hread : read dialect formats root =
      read dialect formats (.object (plainMembers declared required typed)) := by
    rw [hroot, read_withComponents]
  have hread' : read dialect formats root' =
      read dialect formats (.object (plainMembers declared' required typed)) := by
    rw [hroot', read_withComponents]
  rw [compile_eq, compile_eq, ← hfindings]
  cases findingsOf dialect root with
  | cons finding _ => exact .error _
  | nil =>
    have hevents : SameEventsBut known (read dialect formats root).events
        (read dialect formats root').events := by
      rw [hread, hread', read_plain, read_plain]
      exact Interchangeable.sameEventsBut h
    rcases (rel_link hparts hknown hknown' hevents hscope hscope').eq_or with
      ⟨f, hf, hf'⟩ | ⟨c, c', hc, hc', -⟩
    · simp only [hf, hf']
      exact .error f
    · simp only [hc, hc']
      refine .ok fun w => ?_
      have hlinked := linked_of_link hc
      have hlinked' := linked_of_link hc'
      have hcompared : Compared dialect formats root root' scope c c' :=
        ⟨hparts, hlinked, hlinked', fun t ht => scope_of_link scope hc hscope hparts.closed ht⟩
      show (judge (c.meaning _) .root w c.schema).report ofViolation =
        (judge (c'.meaning _) .root w c'.schema).report ofViolation
      have hentered := hlinked.entered
      have hentered' := hlinked'.entered
      rw [hread, read_plain] at hentered
      rw [hread', read_plain] at hentered'
      rw [hlinked.schema, hlinked'.schema, hread, hread']
      exact Interchangeable.problems_plain h hcompared hentered hentered' .root
        (c.ample_followBound (Nat.le_refl _)) (c'.ample_followBound (Nat.le_refl _))

end

end Schema

end ApiContract
