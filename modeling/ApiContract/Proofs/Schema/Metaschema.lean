import ApiContract.Proofs.Schema.Following
/-!
# What the metaschema asks

The metaschema looks at a schema member by member and refers to itself only for what is inside. So a
schema in a good document is good on its own, and a member that the metaschema does not know changes
nothing.
-/

namespace ApiContract

namespace Schema

open Verdict

/-! ## Judging keywords and properties -/

theorem accepted_judgeAll {m : Meaning} {p : Place} {v : Json} {ks : List Keyword}
    {covered : Coverage} (h : (judgeAll m p v covered ks).accepted = true) :
    ∀ k ∈ ks, ∃ covered', (judgeKeyword m p v covered' k).accepted = true := by
  induction ks generalizing covered with
  | nil => exact nofun
  | cons k ks ih =>
    intro l hl
    simp only [judgeAll, accepted_append, Bool.and_eq_true] at h
    rcases List.mem_cons.mp hl with rfl | hl
    · exact ⟨covered, h.1⟩
    · exact ih h.2 l hl

/-- Keywords that are each accepted as well are so together. -/
theorem accepted_judgeAll_imp {m m' : Meaning} {p p' : Place} {v v' : Json} {ks : List Keyword}
    (h : ∀ k ∈ ks, ∀ covered covered', (judgeKeyword m p v covered k).accepted = true →
      (judgeKeyword m' p' v' covered' k).accepted = true) :
    ∀ covered covered', (judgeAll m p v covered ks).accepted = true →
      (judgeAll m' p' v' covered' ks).accepted = true := by
  induction ks with
  | nil => intro _ _ _; rfl
  | cons k ks ih =>
    intro covered covered' haccepted
    simp only [judgeAll, accepted_append, Bool.and_eq_true] at haccepted ⊢
    exact ⟨h k List.mem_cons_self covered covered' haccepted.1,
      ih (fun l hl => h l (List.mem_cons_of_mem _ hl)) _ (covered' ++ _) haccepted.2⟩

theorem accepted_ofPart_append_cover (x : Verdict) (names : List String) :
    (x.ofPart ++ coverNames names).accepted = x.accepted := by
  rw [accepted_append]
  exact Bool.and_true _

theorem accepted_inPlace (x : Verdict) : x.inPlace.accepted = x.accepted := by
  unfold inPlace
  split <;> rfl

theorem accepted_join {xs : List Verdict} :
    (join xs).accepted = true ↔ ∀ x ∈ xs, x.accepted = true := by
  induction xs with
  | nil => exact ⟨fun _ => nofun, fun _ => rfl⟩
  | cons x xs ih =>
    show (x ++ join xs).accepted = true ↔ _
    rw [accepted_append, Bool.and_eq_true, ih, List.forall_mem_cons]

theorem accepted_check (ok : Bool) (p : Place) (v : Json) (cause : Cause) :
    (Verdict.check ok p v cause).accepted = ok := by
  cases ok <;> rfl

/-- Declared properties are accepted if each one that is there is. -/
theorem accepted_judgeProperties {m : Meaning} {p : Place} {members : Assoc Json}
    {declared : List (String × Schema)} :
    (judgeProperties m p members declared).accepted = true ↔
      ∀ f ∈ declared, ∀ w, members.get? f.1 = some w →
        (judge m.inside (((p.into f.1).under "properties").under f.1) w f.2).accepted = true := by
  induction declared with
  | nil => exact ⟨fun _ => nofun, fun _ => rfl⟩
  | cons f rest ih =>
    obtain ⟨k, s⟩ := f
    rw [judgeProperties, accepted_append, Bool.and_eq_true, ih, List.forall_mem_cons]
    refine and_congr_left fun _ => ?_
    cases members.get? k with
    | none => exact ⟨fun _ => nofun, fun _ => rfl⟩
    | some w => simp [accepted_ofPart_append_cover]

/-! ## Fuel -/

theorem targets_metaschema (d : Dialect) : ∀ t ∈ targets (metaschema d).schema, t ∈ ["#"] := by
  cases d <;> decide

/-- The metaschema refers to nothing but itself. -/
theorem share_metaschema (d : Dialect) : (metaschema d).Share (metaschema d) ["#"] := by
  cases d with
  | draft4 =>
    refine ⟨rfl, fun t ht => ⟨Metaschema.draft4, ?_, ?_, by decide⟩⟩ <;>
      simp [List.mem_singleton.mp ht, metaschema, Assoc.get?_cons]
  | draft2020 =>
    refine ⟨rfl, fun t ht => ⟨Metaschema.draft2020, ?_, ?_, by decide⟩⟩ <;>
      simp [List.mem_singleton.mp ht, metaschema, Assoc.get?_cons]

/-- It refers to itself for what is inside alone. -/
theorem judge_metaschema_inside (d : Dialect) (m : Meaning) (p : Place) (v : Json) :
    judge m p v (metaschema d).schema = judge m.inside p v (metaschema d).schema := by
  cases d <;> rfl

/-- **A place for a schema is judged as a schema is.** -/
theorem exists_judge_schema {d : Dialect} {fuel : Nat} {p : Place} {v w : Json}
    (hfuel : (metaschema d).Ample [] v fuel) (hw : depth w < depth v) :
    ∃ x : Verdict, judge ((metaschema d).meaning fuel) p w Metaschema.schema = x.inPlace ++ {} ∧
      x.Alike (p.under "$ref") .root ((metaschema d).verdict w) := by
  cases fuel with
  | zero => exact absurd hfuel (Nat.not_lt_zero _)
  | succ fuel =>
    -- the reference takes the first step of fuel; the rest lasts, since the part is less deep
    refine ⟨judge ((metaschema d).meaning fuel) (p.under "$ref") w (metaschema d).schema, ?_, ?_⟩
    · rw [show (metaschema d).meaning fuel = Meaning.inside ⟨(metaschema d).dialect,
        (metaschema d).follow fuel ["#"], (metaschema d).follow fuel []⟩ from rfl,
        ← judge_metaschema_inside]
      cases d <;> rfl
    · exact Compiled.alike_judge_meaning (share_metaschema d) (targets_metaschema d)
        (hfuel.below hw) ((metaschema d).ample_followBound (Nat.le_refl (depth w))) _ _

/-- A place for a schema holds a good schema. -/
theorem accepts_of_judge_schema {d : Dialect} {fuel : Nat} {p : Place} {v w : Json}
    (hfuel : (metaschema d).Ample [] v fuel) (hw : depth w < depth v) :
    (judge ((metaschema d).meaning fuel) p w Metaschema.schema).accepted =
      (metaschema d).accepts w := by
  obtain ⟨x, hx, halike⟩ := exists_judge_schema (p := p) hfuel hw
  rw [hx, accepted_append, accepted_inPlace, halike.accepted_eq]
  exact Bool.and_true _

/-! ## The properties of a schema -/

/-- The branches of a conjunction are accepted. -/
theorem accepted_judgeBranches {m : Meaning} {p : Place} {v : Json} {covered : Coverage}
    {branches : List Schema} (h : (judgeKeyword m p v covered (.allOf branches)).accepted = true) :
    ∀ s ∈ branches, ∃ p', (judge m p' v s).accepted = true := by
  have key : ∀ (p : Place) (n : Nat), (∀ x ∈ judgeBranches m p v n branches, x.accepted = true) →
      ∀ s ∈ branches, ∃ p', (judge m p' v s).accepted = true := by
    clear h
    intro p
    induction branches with
    | nil => exact fun _ _ => nofun
    | cons t ts ih =>
      intro n h s hs
      rw [judgeBranches, List.forall_mem_cons] at h
      rcases List.mem_cons.mp hs with rfl | hs
      · exact ⟨_, h.1⟩
      · exact ih (n + 1) h.2 s hs
  refine key (p.under "allOf") 0 fun x hx => ?_
  rw [judgeKeyword, accepted_join] at h
  rw [← accepted_inPlace]
  exact h _ (List.mem_map_of_mem hx)

/-- Branches that are each accepted as well are so together. -/
theorem accepted_judgeBranches_imp {m m' : Meaning} {v v' : Json} {branches : List Schema}
    (h : ∀ s ∈ branches, ∀ p p', (judge m p v s).accepted = true →
      (judge m' p' v' s).accepted = true) :
    ∀ (p p' : Place) (n : Nat),
      (join ((judgeBranches m p v n branches).map inPlace)).accepted = true →
        (join ((judgeBranches m' p' v' n branches).map inPlace)).accepted = true := by
  induction branches with
  | nil => intro _ _ _ _; rfl
  | cons s ss ih =>
    intro p p' n
    simp only [judgeBranches, List.map_cons]
    show (inPlace _ ++ join _).accepted = true → (inPlace _ ++ join _).accepted = true
    rw [accepted_append, accepted_append, accepted_inPlace, accepted_inPlace, Bool.and_eq_true,
      Bool.and_eq_true]
    exact And.imp (h s List.mem_cons_self _ _)
      (ih (fun t ht => h t (List.mem_cons_of_mem _ ht)) p p' (n + 1))

/-- What the metaschema asks of `properties`. -/
theorem exists_judge_schemaFields {d : Dialect} {m : Meaning} {p : Place} {v w : Json}
    (h : (judge m p v (metaschema d).schema).accepted = true)
    (hw : (membersOf v).get? "properties" = some w) :
    ∃ p', (judge m.inside p' w Metaschema.schemaFields).accepted = true := by
  have key : ∀ {declared : List (String × Schema)} {covered : Coverage} {p : Place},
      ("properties", Metaschema.schemaFields) ∈ declared →
      (judgeKeyword m p v covered (.properties declared)).accepted = true →
      ∃ p', (judge m.inside p' w Metaschema.schemaFields).accepted = true :=
    fun hmem hk => ⟨_, accepted_judgeProperties.mp hk _ hmem w hw⟩
  cases d with
  | draft4 =>
    obtain ⟨covered, hk⟩ := accepted_judgeAll h _
      (List.mem_cons_of_mem _ (List.mem_cons_of_mem _ List.mem_cons_self))
    exact key (by repeat (first | exact List.mem_cons_self | apply List.mem_cons_of_mem)) hk
  | draft2020 =>
    obtain ⟨covered, hk⟩ := accepted_judgeAll h _ List.mem_cons_self
    obtain ⟨p', hs⟩ := accepted_judgeBranches hk Metaschema.applicator
      (List.mem_cons_of_mem _ List.mem_cons_self)
    obtain ⟨covered, hk⟩ := accepted_judgeAll hs _ List.mem_cons_self
    exact key (by repeat (first | exact List.mem_cons_self | apply List.mem_cons_of_mem)) hk

/-- The values of an object that should all be of one schema. -/
theorem accepted_objectOf {m : Meaning} {p : Place} {v : Json} {s : Schema}
    (h : (judge m p v (Metaschema.objectOf s)).accepted = true) :
    ∃ members, v = .object members ∧
      ∀ e ∈ members, ∃ p', (judge m.inside p' e.2 s).accepted = true := by
  obtain ⟨covered, hkind⟩ := accepted_judgeAll h (.kind [.object])
    (List.mem_cons_of_mem _ List.mem_cons_self)
  obtain ⟨covered', hvalues⟩ := accepted_judgeAll h (.partition [] [] s) List.mem_cons_self
  cases v with
  | object members =>
    refine ⟨members, rfl, fun e he => ⟨(p.into e.1).under "additionalProperties", ?_⟩⟩
    rw [judgeKeyword, accepted_join] at hvalues
    have := hvalues _ (List.mem_map_of_mem he)
    rwa [accepted_ofPart_append_cover] at this
  | _ => simp [judgeKeyword, Kind.has, check, accepted] at hkind

/-- **The properties of a good schema are good schemas.** -/
theorem accepts_of_mem_properties {d : Dialect} {members : Assoc Json} {w : Json}
    (h : (metaschema d).accepts (.object members) = true)
    (hw : members.get? "properties" = some w) :
    ∃ declared, w = .object declared ∧ ∀ e ∈ declared, (metaschema d).accepts e.2 = true := by
  obtain ⟨p, hfields⟩ := exists_judge_schemaFields h hw
  obtain ⟨declared, rfl, hvalues⟩ := accepted_objectOf hfields
  refine ⟨declared, rfl, fun e he => ?_⟩
  obtain ⟨p', hv⟩ := hvalues e he
  have hdepth : depth e.2 < depth (.object members) :=
    Nat.lt_trans (depth_lt_of_mem_members he) (depth_lt_of_mem_members (Assoc.mem_of_get? hw))
  rwa [← accepts_of_judge_schema ((metaschema d).ample_followBound (Nat.le_refl _)) hdepth]

/-- Whether a value is an object or a flag, as schemas are. -/
def Shaped (v : Json) : Prop := (∃ members, v = .object members) ∨ ∃ b, v = .bool b

theorem shaped_of_accepts {d : Dialect} {v : Json} (h : (metaschema d).accepts v = true) :
    Shaped v := by
  unfold Shaped
  cases d with
  | draft4 =>
    obtain ⟨covered, hk⟩ := accepted_judgeAll h (.kind [.object])
      (by repeat (first | exact List.mem_cons_self | apply List.mem_cons_of_mem))
    cases v <;> simp [judgeKeyword, Kind.has, check, accepted] at hk ⊢
  | draft2020 =>
    obtain ⟨covered, hk⟩ := accepted_judgeAll h Metaschema.flagOrObject
      (by repeat (first | exact List.mem_cons_self | apply List.mem_cons_of_mem))
    cases v <;> simp [Metaschema.flagOrObject, judgeKeyword, Kind.has, check, accepted] at hk ⊢

/-! ## Members that the metaschema does not know -/

/-- Keywords that look at the kind of a value, which may be an object, and at its members by name:
at the properties for schemas, and at bounds for the names beside them. Nothing looks at one name,
but that it may be declared among the properties if it is `known`. -/
inductive Facewise (name : String) (known : Prop) : Keyword → Prop where
  | kind (kinds : List Kind) (h : Kind.object ∈ kinds) : Facewise name known (.kind kinds)
  | dependentNames (word property : String) (names : List String) (h : property ≠ name)
      (hs : ∀ k ∈ names, k ≠ name) (hb : property ∈ ["exclusiveMaximum", "exclusiveMinimum"]) :
      Facewise name known (.dependentNames word property names)
  | properties (declared : List (String × Schema)) (h : ∀ f ∈ declared, f.1 = name → known)
      (hp : ∀ f ∈ declared, f.1 = "properties" → f.2 = Metaschema.schemaFields) :
      Facewise name known (.properties declared)
  | allOf (branches : List Schema) (hs : ∀ s ∈ branches, ∃ ks, s = .node ks)
      (h : ∀ ks, .node ks ∈ branches → ∀ k ∈ ks, Facewise name known k) :
      Facewise name known (.allOf branches)

/-- The metaschema does not look at the member `components`, and it only declares `required`. -/
theorem facewise_metaschema (d : Dialect) {name : String}
    (h : name = "components" ∨ name = "required") :
    ∃ ks, (metaschema d).schema = .node ks ∧ ∀ k ∈ ks, Facewise name (name = "required") k := by
  cases d with
  | draft4 =>
    refine ⟨_, rfl, ?_⟩
    rcases h with rfl | rfl <;> simp only [List.forall_mem_cons] <;>
      exact ⟨.dependentNames _ _ _ (by decide) (by decide) (by decide),
        .dependentNames _ _ _ (by decide) (by decide) (by decide),
        .properties _ (by decide) (by simp), .kind _ (by decide), nofun⟩
  | draft2020 =>
    refine ⟨_, rfl, ?_⟩
    simp only [List.forall_mem_cons]
    refine ⟨.allOf _ ?_ fun ks hks => ?_, .properties _ ?_ (by simp), .kind _ (by decide), nofun⟩
    · simp only [List.forall_mem_cons]
      exact ⟨⟨_, rfl⟩, ⟨_, rfl⟩, ⟨_, rfl⟩, ⟨_, rfl⟩, ⟨_, rfl⟩, ⟨_, rfl⟩, ⟨_, rfl⟩, nofun⟩
    · simp only [List.mem_cons, List.not_mem_nil, or_false] at hks
      -- each vocabulary is a list of properties and the kinds of a schema
      rcases h with rfl | rfl <;>
        rcases hks with h | h | h | h | h | h | h <;> obtain rfl := Schema.node.inj h <;>
          simp only [List.forall_mem_cons] <;>
            exact ⟨.properties _ (by decide) (by simp), .kind _ (by decide), nofun⟩
    · rcases h with rfl | rfl <;> decide

/-- Two maps with the same value under every key but one. -/
def SameBut {β : Type} (name : String) (members members' : Assoc β) : Prop :=
  ∀ k, k ≠ name → members.get? k = members'.get? k

theorem SameBut.symm {β : Type} {name : String} {members members' : Assoc β}
    (h : SameBut name members members') : SameBut name members' members :=
  fun k hk => (h k hk).symm

theorem sameBut_erase {β : Type} (name : String) (members : Assoc β) :
    SameBut name members (members.erase name) := fun k hk => by
  rw [Assoc.get?_erase, if_neg (Ne.symm hk)]

/-- Keywords that do not look at a name accept as well whatever stands under it, and those that
declare it where nothing does. -/
theorem accepted_of_facewise {d : Dialect} {name : String} {known : Prop}
    {members members' : Assoc Json} {fuel fuel' : Nat} (hsame : SameBut name members members')
    (hknown : known → members'.get? name = none)
    (hfuel : (metaschema d).Ample [] (.object members) fuel)
    (hfuel' : (metaschema d).Ample [] (.object members') fuel') {k : Keyword}
    (hk : Facewise name known k) :
    (∀ t ∈ targetsOfKeyword k, t ∈ ["#"]) → ∀ (p p' : Place) (covered covered' : Coverage),
      (judgeKeyword ((metaschema d).meaning fuel) p (.object members) covered k).accepted = true →
        (judgeKeyword ((metaschema d).meaning fuel') p' (.object members') covered'
          k).accepted = true := by
  induction hk with
  | kind kinds h =>
    intro _ p p' covered covered'
    have hhas : ∀ k : Kind, k.has (metaschema d).dialect (.object members) =
        k.has (metaschema d).dialect (.object members') := fun k => by cases k <;> rfl
    simp only [judgeKeyword, Compiled.meaning, hhas]
    rw [accepted_check, accepted_check]
    exact id
  | dependentNames word property names h hs hb =>
    intro _ p p' covered covered'
    have hcontains : ∀ k, k ≠ name → members.contains k = members'.contains k := fun k hk => by
      rw [Assoc.contains_eq, Assoc.contains_eq, hsame k hk]
    simp only [judgeKeyword, hcontains property h]
    split
    · rw [accepted_join, accepted_join, List.forall_mem_map, List.forall_mem_map]
      refine forall₂_imp fun k hk => ?_
      rw [accepted_check, accepted_check, hcontains k (hs k hk)]
      exact id
    · exact id
  | properties declared h hp =>
    intro htargets p p' covered covered'
    rw [judgeKeyword, judgeKeyword, accepted_judgeProperties, accepted_judgeProperties]
    intro haccepted f hf w (hw : members'.get? f.1 = some w)
    have hne : f.1 ≠ name := fun hname => by
      rw [hname, hknown (h f hf hname)] at hw
      cases hw
    have hw' : members.get? f.1 = some w := (hsame f.1 hne).trans hw
    have hin : ∀ t ∈ targets f.2, t ∈ ["#"] := fun t ht =>
      htargets t (mem_targets_of_properties hf ht)
    rw [← haccepted f hf w hw']
    exact (Compiled.alike_judge_meaning (share_metaschema d) hin
      (hfuel'.mono (Nat.le_of_lt (depth_lt_of_mem_members (Assoc.mem_of_get? hw))))
      (hfuel.mono (Nat.le_of_lt (depth_lt_of_mem_members (Assoc.mem_of_get? hw')))) _ _).accepted_eq
  | allOf branches hs h ih =>
    intro htargets p p' covered covered'
    refine accepted_judgeBranches_imp (fun s hmem q q' => ?_) _ _ 0
    obtain ⟨ks, rfl⟩ := hs s hmem
    exact accepted_judgeAll_imp (fun k hk => ih ks hmem k hk
      (fun t ht => htargets t (mem_targets_of_allOf hmem (mem_targets_of_node hk ht))) q q') {} {}

/-- A good schema stays one where a member is changed that the metaschema does not look at, or
dropped that it only declares. -/
theorem accepts_of_sameBut {d : Dialect} {name : String} {members members' : Assoc Json}
    (hname : name = "components" ∨ name = "required") (hsame : SameBut name members members')
    (hdropped : name = "required" → members'.get? name = none)
    (h : (metaschema d).accepts (.object members) = true) :
    (metaschema d).accepts (.object members') = true := by
  obtain ⟨ks, hs, hks⟩ := facewise_metaschema d hname
  have htargets : ∀ k ∈ ks, ∀ t ∈ targetsOfKeyword k, t ∈ ["#"] := fun k hk t ht =>
    targets_metaschema d t (hs ▸ mem_targets_of_node hk ht)
  have hjudged : (judge ((metaschema d).meaning _) .root (.object members)
      (metaschema d).schema).accepted = true := h
  show (judge ((metaschema d).meaning _) .root (.object members')
    (metaschema d).schema).accepted = true
  rw [hs] at hjudged ⊢
  exact accepted_judgeAll_imp (fun k hk => accepted_of_facewise hsame hdropped
    ((metaschema d).ample_followBound (Nat.le_refl _))
    ((metaschema d).ample_followBound (Nat.le_refl _)) (hks k hk) (htargets k hk) _ _) {} {} hjudged

/-- **A member that the metaschema does not know changes nothing.** -/
theorem accepts_object_congr {d : Dialect} {members members' : Assoc Json}
    (hsame : SameBut "components" members members') :
    (metaschema d).accepts (.object members) = (metaschema d).accepts (.object members') :=
  Bool.eq_iff_iff.mpr ⟨accepts_of_sameBut (Or.inl rfl) hsame (fun h => absurd h (by decide)),
    accepts_of_sameBut (Or.inl rfl) hsame.symm (fun h => absurd h (by decide))⟩

/-- **A good schema stays one without its list of required names.** -/
theorem accepts_erase_required {d : Dialect} {members : Assoc Json}
    (h : (metaschema d).accepts (.object members) = true) :
    (metaschema d).accepts (.object (members.erase "required")) = true :=
  accepts_of_sameBut (Or.inr rfl) (sameBut_erase "required" members)
    (fun _ => by rw [Assoc.get?_erase, if_pos rfl]) h

end Schema

end ApiContract
