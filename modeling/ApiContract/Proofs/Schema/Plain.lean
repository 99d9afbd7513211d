import ApiContract.Proofs.Schema.Parts
/-!
# Plain object schemas

A schema that declares properties, requires some of them, and may ask for an object. Such a schema
is read into as many keywords, and judges an object property by property.
-/

namespace ApiContract

namespace Schema

open Verdict

/-- The members of a schema with properties; `typed` tells whether it asks for an object. -/
def plainMembers (declared : Assoc Json) (required : Option (List String)) (typed : Bool) :
    Assoc Json :=
  ("properties", .object declared) ::
    ((required.map fun names => ("required", .array (names.map .string))).toList ++
      if typed then [("type", .string "object")] else [])

/-- The keywords of such a schema. -/
def plainKeywords (declared : List (String × Schema)) (required : Option (List String))
    (typed : Bool) : List Keyword :=
  .properties declared ::
    ((required.map Keyword.required).toList ++ if typed then [.kind [.object]] else [])

section

variable {dialect : Dialect} {formats : Bool} {declared : Assoc Json}
  {required : Option (List String)} {typed : Bool}

theorem get?_plainMembers {key : String} (hp : key ≠ "properties") (hr : key ≠ "required")
    (ht : key ≠ "type") : (plainMembers declared required typed).get? key = none := by
  cases required <;> cases typed <;>
    simp [plainMembers, Assoc.get?_cons, Ne.symm hp, Ne.symm hr, Ne.symm ht]

theorem get?_plainMembers_properties :
    (plainMembers declared required typed).get? "properties" = some (.object declared) := by
  simp [plainMembers, Assoc.get?_cons]

/-! ## Reading -/

theorem readFields_eq_map (fields : List (String × Json)) :
    readFields dialect formats fields =
      fields.map fun e => (e.1, e.2, read dialect formats e.2) := by
  induction fields with
  | nil => rfl
  | cons e rest ih =>
    obtain ⟨k, v⟩ := e
    rw [readFields, ih]
    rfl

theorem readMember_properties {parts : Parts} (h : takesIn parts = false) :
    readMember dialect formats parts
        ("properties", partOf dialect formats "properties" (.object declared)) =
      ⟨[.properties (declared.map fun e => (e.1, (read dialect formats e.2).result))],
        declared.flatMap fun e => (read dialect formats e.2).events⟩ := by
  have hdeclared : readDeclared (partOf dialect formats "properties" (.object declared)) =
      ⟨declared.map fun e => (e.1, (read dialect formats e.2).result),
        declared.flatMap fun e => (read dialect formats e.2).events⟩ := by
    show Reading.sequence ((readFields dialect formats declared).map _) = _
    rw [readFields_eq_map]
    simp [Reading.sequence, List.map_map, List.flatMap_map, Function.comp_def, Functor.map]
  have hshared : readShared dialect formats parts
      (partOf dialect formats "properties" (.object declared)) "properties" =
      ⟨[.properties (declared.map fun e => (e.1, (read dialect formats e.2).result))],
        declared.flatMap fun e => (read dialect formats e.2).events⟩ := by
    show (if takesIn parts = true then pure [] else
      readDeclared (partOf dialect formats "properties" (.object declared)) >>= fun fields =>
        pure [.properties fields] : Reading (List Keyword)) = _
    rw [h, hdeclared]
    simp [bind, pure]
  have hown : readOwn dialect parts
      ("properties", partOf dialect formats "properties" (.object declared)) = pure [] := by
    cases dialect <;> rfl
  show (readShared dialect formats parts _ "properties" >>= fun shared =>
    readOwn dialect parts _ >>= fun own => pure (shared ++ own)) = _
  rw [hshared, hown]
  simp [bind, pure]

theorem readMember_required (parts : Parts) (names : List String) :
    readMember dialect formats parts
        ("required", partOf dialect formats "required" (.array (names.map .string))) =
      ⟨[.required names], []⟩ := by
  have hnames : readNames (.array (names.map .string)) = ⟨names, []⟩ := by
    simp [readNames, Reading.sequence, List.map_map, List.flatMap_map, Function.comp_def,
      readText, pure]
  have hown : readOwn dialect parts
      ("required", partOf dialect formats "required" (.array (names.map .string))) = pure [] := by
    cases dialect <;> rfl
  show (do
    let shared ← (do return [.required (← readNames (.array (names.map .string)))])
    let own ← readOwn dialect parts
      ("required", partOf dialect formats "required" (.array (names.map .string)))
    return shared ++ own : Reading (List Keyword)) = _
  rw [hown, hnames]
  rfl

theorem readMember_type (parts : Parts) :
    readMember dialect formats parts
        ("type", partOf dialect formats "type" (.string "object")) = ⟨[.kind [.object]], []⟩ := by
  cases dialect <;> rfl

/-- An object is read member by member, unless it is a reference of the older dialect. -/
theorem read_of_members {members : Assoc Json}
    (h : dialect = .draft4 → members.get? "$ref" = none) :
    read dialect formats (.object members) =
      .node <$> readKeywords dialect formats (readParts dialect formats members) := by
  unfold read
  cases dialect with
  | draft4 => rw [h rfl]
  | draft2020 => rfl

/-- **A plain schema is read keyword by keyword.** -/
theorem read_plain (dialect : Dialect) (formats : Bool) (declared : Assoc Json)
    (required : Option (List String)) (typed : Bool) :
    read dialect formats (.object (plainMembers declared required typed)) =
      ⟨.node (plainKeywords (declared.map fun e => (e.1, (read dialect formats e.2).result))
        required typed), declared.flatMap fun e => (read dialect formats e.2).events⟩ := by
  have hparts : ∀ word, Assoc.get? (plainMembers declared required typed) word = none →
      Parts.raw? (readParts dialect formats (plainMembers declared required typed)) word =
        none := by
    intro word hword
    rw [Parts.raw?, readParts_eq_map, Assoc.get?_mapValues, hword]
    rfl
  have htakes : takesIn (readParts dialect formats (plainMembers declared required typed)) =
      false := by
    unfold takesIn
    rw [hparts _ (get?_plainMembers (by decide) (by decide) (by decide))]
  have hkeywords : readKeywords dialect formats
      (readParts dialect formats (plainMembers declared required typed)) =
      ⟨plainKeywords (declared.map fun e => (e.1, (read dialect formats e.2).result))
        required typed, declared.flatMap fun e => (read dialect formats e.2).events⟩ := by
    have hmembers : ∀ {α : Type} (f : String × Part → List α),
        (readParts dialect formats (plainMembers declared required typed)).flatMap f =
          (plainMembers declared required typed).flatMap fun e =>
            f (e.1, partOf dialect formats e.1 e.2) := by
      intro α f
      rw [readParts_eq_map, List.flatMap_map]
    rw [readKeywords_eq, hmembers, hmembers]
    generalize readParts dialect formats (plainMembers declared required typed) = parts at htakes
    unfold plainMembers plainKeywords
    cases required <;> cases typed <;>
      simp [readMember_properties htakes, readMember_required, readMember_type]
  rw [read_of_members fun _ => get?_plainMembers (by decide) (by decide) (by decide), hkeywords]
  exact congrArg (Reading.mk _) (List.append_nil _)

/-! ## Judging -/

/-- The names that are required are those of members. -/
theorem accepted_judge_required {m : Meaning} {p : Place} {members : Assoc Json}
    {covered : Coverage} {names : List String} :
    (judgeKeyword m p (.object members) covered (.required names)).accepted = true ↔
      ∀ k ∈ names, members.contains k = true := by
  rw [judgeKeyword, accepted_join, List.forall_mem_map]
  simp only [accepted_check]

/-- What is reported of declared properties is what is reported of each that is there. -/
theorem report_judgeProperties {α : Type} (g : Violation → α) {m : Meaning} {p : Place}
    {members : Assoc Json} (fields : List (String × Schema)) :
    (judgeProperties m p members fields).report g = fields.flatMap fun f =>
      ((members.get? f.1).map fun w =>
        (judge m.inside (((p.into f.1).under "properties").under f.1) w f.2).report g).getD [] := by
  induction fields with
  | nil => rfl
  | cons f rest ih =>
    obtain ⟨k, s⟩ := f
    rw [judgeProperties, report_append, ih, List.flatMap_cons]
    refine congrArg (· ++ _) ?_
    cases members.get? k with
    | none => rfl
    | some w => exact report_ofPart_append_cover _ _ _

/-- **A plain schema accepts an object member by member.** -/
theorem accepted_judge_plain {m : Meaning} {p : Place} {members : Assoc Json}
    {fields : List (String × Schema)} :
    (judge m p (.object members) (.node (plainKeywords fields required typed))).accepted = true ↔
      (∀ f ∈ fields, ∀ w, members.get? f.1 = some w →
        (judge m.inside (((p.into f.1).under "properties").under f.1) w f.2).accepted = true) ∧
      ∀ k ∈ required.getD [], members.contains k = true := by
  have hkind : ∀ covered, (judgeKeyword m p (.object members) covered
      (.kind [.object])).accepted = true := fun _ => rfl
  have hproperties : ∀ covered, judgeKeyword m p (.object members) covered (.properties fields) =
      judgeProperties m p members fields := fun _ => rfl
  have hempty : ({} : Verdict).accepted = true := rfl
  unfold plainKeywords
  cases required <;> cases typed <;>
    simp [judge, judgeAll, accepted_append, hkind, hproperties, hempty, accepted_judgeProperties,
      accepted_judge_required]

/-! ## Inside of a document -/

/-- The properties of a plain schema stand inside of it. -/
theorem Inside.property {whole : Json}
    (h : Inside dialect formats whole (.object (plainMembers declared required typed)))
    {d : String × Json} (hd : d ∈ declared) : Inside dialect formats whole d.2 := by
  obtain ⟨fields, hfields, hgood⟩ := accepts_of_mem_properties h.good get?_plainMembers_properties
  obtain rfl := Json.object.inj hfields
  refine ⟨hgood d hd, fun e he => h.events e ?_⟩
  rw [read_plain]
  exact List.mem_flatMap.mpr ⟨d, hd, he⟩

/-- A plain schema judges what its properties judge, as they are read. -/
theorem accepted_judge_read_plain {m : Meaning} {p : Place} {members : Assoc Json} :
    (judge m p (.object members)
        (read dialect formats (.object (plainMembers declared required typed))).result).accepted =
        true ↔
      (∀ d ∈ declared, ∀ w, members.get? d.1 = some w →
        (judge m.inside (((p.into d.1).under "properties").under d.1) w
          (read dialect formats d.2).result).accepted = true) ∧
      ∀ k ∈ required.getD [], members.contains k = true := by
  rw [read_plain, accepted_judge_plain, List.forall_mem_map]

/-! ## Nullable properties -/

theorem normalizeMembers_eq_map (members : List (String × Json)) :
    normalizeMembers members = members.map fun e => (e.1, normalize e.2) := by
  induction members with
  | nil => rfl
  | cons e rest ih =>
    obtain ⟨k, v⟩ := e
    rw [normalizeMembers, ih]
    rfl

theorem normalizeItems_strings (names : List String) :
    normalizeItems (names.map .string) = names.map .string := by
  induction names with
  | nil => rfl
  | cons name names ih =>
    rw [List.map_cons, normalizeItems, ih]
    rfl

/-- Nothing is widened that is not nullable. -/
theorem widen_of_get?_none {members : Assoc Json} (h : members.get? "nullable" = none) :
    widen members = members := by
  rw [widen, h, if_neg (by simp)]

theorem normalize_plain :
    normalize (.object (plainMembers declared required typed)) =
      .object (plainMembers (widen (normalizeMembers declared)) required typed) := by
  have hmembers : normalizeMembers (plainMembers declared required typed) =
      plainMembers (widen (normalizeMembers declared)) required typed := by
    unfold plainMembers
    cases required <;> cases typed <;>
      simp [normalizeMembers, normalize, normalizeItems_strings]
  rw [normalize, hmembers,
    widen_of_get?_none (get?_plainMembers (by decide) (by decide) (by decide))]

/-- A change that gives nothing new the shape of a schema leaves a map of schemas alone. -/
theorem modify_eq_self {members : Assoc Json} {key : String} {f : Json → Json}
    (hf : ∀ v, Shaped (f v) → f v = v) (h : ∀ e ∈ members.modify key f, Shaped e.2) :
    members.modify key f = members := by
  refine (List.map_congr_left fun e he => ?_).trans (List.map_id members)
  have hshape := h _ (List.mem_map_of_mem he)
  split
  · next hk =>
    rw [if_pos hk] at hshape
    rw [hf e.2 hshape]
    rfl
  · rfl

theorem widenKinds_of_shaped (v : Json) (h : Shaped (widenKinds v)) : widenKinds v = v := by
  cases v with
  | string name => simp [widenKinds, Shaped] at h
  | array kinds =>
    simp only [widenKinds] at h
    split at h <;> simp [Shaped] at h
  | _ => rfl

theorem widenValues_of_shaped (v : Json) (h : Shaped (widenValues v)) : widenValues v = v := by
  cases v with
  | array values =>
    simp only [widenValues] at h
    split at h <;> simp [Shaped] at h
  | _ => rfl

/-- **Good properties were not widened**, not even where one is called `nullable`. -/
theorem widen_eq_self_of_accepts {members : Assoc Json}
    (h : ∀ e ∈ widen members, (metaschema dialect).accepts e.2 = true) :
    widen members = members := by
  have hshape := fun e he => shaped_of_accepts (h e he)
  unfold widen at hshape ⊢
  split at hshape
  · next hn =>
    rw [if_pos hn]
    -- `enum` is widened last, so it is the first to be undone
    have houter := modify_eq_self widenValues_of_shaped hshape
    rw [houter] at hshape ⊢
    exact modify_eq_self widenKinds_of_shaped hshape
  · next hn => rw [if_neg hn]

end

end Schema

end ApiContract
