import ApiContract.Proofs.Schema.Forgetting
import ApiContract.Proofs.Schema.Resolving
/-!
# Reading schemas that are made plain

Making a schema plain goes through every object in its text, whatever its place means. Where it
changes no literal value, and no names that depend on one another, the schema is read to the same
references, and to one that differs in null alone.
-/

namespace ApiContract

namespace Schema

/-! ## Keywords at any depth -/

mutual

/-- Whether every keyword of a schema, at any depth, satisfies a condition. -/
def Every (P : Keyword → Prop) : Schema → Prop
  | .always => True
  | .never => True
  | .node keywords => EveryAll P keywords

def EveryAll (P : Keyword → Prop) : List Keyword → Prop
  | [] => True
  | k :: ks => (P k ∧ EveryWithin P k) ∧ EveryAll P ks

def EveryWithin (P : Keyword → Prop) : Keyword → Prop
  | .properties declared => EveryFields P declared
  | .patternProperties matching => EveryPatterns P matching
  | .partition declared matching others =>
    EveryFields P declared ∧ EveryPatterns P matching ∧ Every P others
  | .closed declared matching => EveryFields P declared ∧ EveryPatterns P matching
  | .propertyNames names => Every P names
  | .items _ each => Every P each
  | .tuple _ schemas => EveryBranches P schemas
  | .additionalItems _ each => Every P each
  | .contains each _ _ => Every P each
  | .allOf branches => EveryBranches P branches
  | .anyOf branches => EveryBranches P branches
  | .oneOf branches => EveryBranches P branches
  | .not _ schema => Every P schema
  | .conditional condition consequence alternative =>
    Every P condition ∧ Every P consequence ∧ Every P alternative
  | .dependentSchema _ _ schema => Every P schema
  | .unevaluatedItems each => Every P each
  | .unevaluatedProperties each => Every P each
  | _ => True

def EveryBranches (P : Keyword → Prop) : List Schema → Prop
  | [] => True
  | s :: ss => Every P s ∧ EveryBranches P ss

def EveryFields (P : Keyword → Prop) : List (String × Schema) → Prop
  | [] => True
  | (_, s) :: rest => Every P s ∧ EveryFields P rest

def EveryPatterns (P : Keyword → Prop) : List (NamedPattern × Schema) → Prop
  | [] => True
  | (_, s) :: rest => Every P s ∧ EveryPatterns P rest

end

section

variable {P : Keyword → Prop}

theorem everyAll_iff {ks : List Keyword} :
    EveryAll P ks ↔ ∀ k ∈ ks, P k ∧ EveryWithin P k := by
  induction ks with
  | nil => simp [EveryAll]
  | cons k ks ih => rw [EveryAll, ih, List.forall_mem_cons]

theorem everyBranches_iff {ss : List Schema} : EveryBranches P ss ↔ ∀ s ∈ ss, Every P s := by
  induction ss with
  | nil => simp [EveryBranches]
  | cons s ss ih => rw [EveryBranches, ih, List.forall_mem_cons]

theorem everyFields_iff {fields : List (String × Schema)} :
    EveryFields P fields ↔ ∀ f ∈ fields, Every P f.2 := by
  induction fields with
  | nil => simp [EveryFields]
  | cons f fs ih => rw [EveryFields, ih, List.forall_mem_cons]

theorem everyPatterns_iff {matching : List (NamedPattern × Schema)} :
    EveryPatterns P matching ↔ ∀ f ∈ matching, Every P f.2 := by
  induction matching with
  | nil => simp [EveryPatterns]
  | cons f fs ih => rw [EveryPatterns, ih, List.forall_mem_cons]

end

/-- Whether making its schema plain leaves a keyword as it is, but for null among kinds and listed
values: its literal values hold nothing nullable, and it is not the entry `nullable: true` of a map
of dependencies. -/
def Untouched : Keyword → Prop
  | .oneOfValues values => ∀ v ∈ values, normalize v = v
  | .constant value => normalize value = value
  | .dependentSchema word property schema =>
    ¬(word = "dependencies" ∧ property = "nullable" ∧ schema = .always)
  | _ => True

/-- Whether all keywords of a schema are. -/
abbrev Tame : Schema → Prop := Every Untouched

/-! ## Readings that are kept -/

namespace Reading

variable {α β γ δ : Type}

/-- Whether no fault is met. -/
def Sound (x : Reading α) : Prop := ∀ f, .fault f ∉ x.events

theorem sound_bind_iff {x : Reading α} {f : α → Reading β} :
    (x >>= f).Sound ↔ x.Sound ∧ (f x.result).Sound := by
  show (∀ e, .fault e ∉ x.events ++ (f x.result).events) ↔ _
  simp only [List.mem_append, not_or, forall_and]
  rfl

theorem sound_sequence_iff {xs : List (Reading α)} :
    (sequence xs).Sound ↔ ∀ x ∈ xs, x.Sound := by
  show (∀ e, .fault e ∉ xs.flatMap (·.events)) ↔ _
  simp only [List.mem_flatMap, not_exists, not_and]
  exact ⟨fun h x hx e => h e x hx, fun h e x hx => h x hx e⟩

theorem not_sound_refuse [Inhabited α] (fault : Fault) :
    ¬(refuse fault : Reading α).Sound := fun h => h fault List.mem_cons_self

/-- Whether a reading without faults, of a good result, is kept by another: it has the same events,
and a result that looks the same. -/
def Keeps (good : α → Prop) (view : α → β) (x x' : Reading α) : Prop :=
  x.Sound → good x.result → x'.events = x.events ∧ view x'.result = view x.result

variable {good : α → Prop} {view : α → γ} {good' : β → Prop} {view' : β → δ} {x x' : Reading α}

namespace Keeps

theorem refl (x : Reading α) : Keeps good view x x := fun _ _ => ⟨rfl, rfl⟩

theorem of_eq (h : x' = x) : Keeps good view x x' := by
  rw [h]
  exact refl x

theorem of_sound (h : x.Sound → x' = x) : Keeps good view x x' := fun hx => of_eq (h hx) hx

theorem of_not_sound (h : ¬x.Sound) : Keeps good view x x' := fun hx => absurd hx h

theorem pure {a a' : α} (h : good a → view a' = view a) :
    Keeps good view (Pure.pure a) (Pure.pure a') := fun _ ha => ⟨rfl, h ha⟩

/-- One reading after another. -/
theorem bind {f f' : α → Reading β} (hx : Keeps good view x x')
    (hgood : good' (f x.result).result → good x.result)
    (hf : ∀ a', view a' = view x.result → good x.result →
      Keeps good' view' (f x.result) (f' a')) :
    Keeps good' view' (x >>= f) (x' >>= f') := by
  intro hsound hresult
  obtain ⟨hsound, hsound'⟩ := sound_bind_iff.mp hsound
  obtain ⟨hevents, hview⟩ := hx hsound (hgood hresult)
  obtain ⟨hevents', hview'⟩ := hf _ hview (hgood hresult) hsound' hresult
  exact ⟨congrArg₂ _ hevents hevents', hview'⟩

/-- A result that is put into another. -/
theorem map {f f' : α → β} (hx : Keeps good view x x') (hgood : ∀ a, good' (f a) → good a)
    (hf : ∀ a a', good' (f a) → view a' = view a → view' (f' a') = view' (f a)) :
    Keeps good' view' (f <$> x) (f' <$> x') := by
  refine bind hx (hgood _) fun a' ha' _ => pure fun ha => hf _ _ ha ha'

theorem sequence {xs xs' : List (Reading α)} (h : List.Forall₂ (Keeps good view) xs xs') :
    Keeps (fun as => ∀ a ∈ as, good a) (List.map view) (Reading.sequence xs)
      (Reading.sequence xs') := by
  intro hsound hresult
  rw [sound_sequence_iff] at hsound
  replace hresult : ∀ x ∈ xs, good x.result := fun x hx => hresult _ (List.mem_map_of_mem hx)
  induction h with
  | nil => exact ⟨rfl, rfl⟩
  | cons h _ ih =>
    obtain ⟨hevents, hview⟩ := h (hsound _ List.mem_cons_self) (hresult _ List.mem_cons_self)
    obtain ⟨hevents', hview'⟩ := ih (fun x hx => hsound x (List.mem_cons_of_mem _ hx))
      fun x hx => hresult x (List.mem_cons_of_mem _ hx)
    exact ⟨congrArg₂ (· ++ ·) hevents hevents', congrArg₂ List.cons hview hview'⟩

theorem imp {good' : α → Prop} {view' : α → δ} (h : Keeps good view x x')
    (hgood : ∀ a, good' a → good a) (hview : ∀ a a', view a' = view a → view' a' = view' a) :
    Keeps good' view' x x' := fun hsound hresult =>
  (h hsound (hgood _ hresult)).imp_right (hview _ _)

end Keeps

/-- Keywords that are read to the same ones without null. -/
abbrev KeepsKeywords : Reading (List Keyword) → Reading (List Keyword) → Prop :=
  Keeps (EveryAll Untouched) forgetAll

/-- A schema that is read to the same one without null. -/
abbrev KeepsSchema : Reading Schema → Reading Schema → Prop := Keeps Tame forget

/-- An argument that is read to the same. -/
abbrev KeepsArgument : Reading α → Reading α → Prop := Keeps (fun _ => True) id

/-- A keyword around its argument. -/
theorem Keeps.keyword {k k' : α → Keyword} (hx : Keeps good view x x')
    (hgood : ∀ a, Untouched (k a) → EveryWithin Untouched (k a) → good a)
    (hk : ∀ a a', Untouched (k a) → view a' = view a →
      forgetKeyword (k' a') = forgetKeyword (k a)) :
    KeepsKeywords (x >>= fun a => Pure.pure [k a]) (x' >>= fun a => Pure.pure [k' a]) := by
  show KeepsKeywords ((fun a => [k a]) <$> x) ((fun a => [k' a]) <$> x')
  refine hx.map (fun a ha => ?_) fun a a' ha hview => ?_
  · exact hgood a ha.1.1 ha.1.2
  · exact congrArg (fun k => [k]) (hk a a' ha.1.1 hview)

end Reading

/-! ## Arguments -/

section

open Reading

variable {dialect : Dialect} {formats : Bool}

theorem not_sound_expected {α : Type} [Inhabited α] (kinds : List Kind) (v : Json) :
    ¬(Reading.expected kinds v : Reading α).Sound := not_sound_refuse _

theorem normalize_of_readText {v : Json} (h : (readText v).Sound) : normalize v = v := by
  cases v with
  | string s => rfl
  | _ => exact absurd h (not_sound_expected _ _)

theorem normalize_of_readNumber {v : Json} (h : (readNumber v).Sound) : normalize v = v := by
  cases v with
  | number n => rfl
  | _ => exact absurd h (not_sound_expected _ _)

theorem normalize_of_readCount {wide : Bool} {v : Json} (h : (readCount wide v).Sound) :
    normalize v = v := by
  cases v with
  | number n => rfl
  | _ => exact absurd h (not_sound_expected _ _)

theorem normalize_of_readNames {v : Json} (h : (readNames v).Sound) : normalize v = v := by
  cases v with
  | array vs =>
    have hitems : ∀ w ∈ vs, normalize w = w := fun w hw =>
      normalize_of_readText (sound_sequence_iff.mp h _ (List.mem_map_of_mem hw))
    rw [normalize, normalizeItems_eq_map, List.map_congr_left hitems, List.map_id']
  | _ => exact absurd h (not_sound_expected _ _)

theorem normalize_of_readReference {v : Json} (h : (readReference v).Sound) :
    normalize v = v := by
  cases v with
  | string s => rfl
  | _ => exact absurd h (not_sound_expected _ _)

/-! ## Kinds and listed values -/

/-- A kind among several, if its name is one. -/
theorem exists_of_readKindOfSeveral {v : Json} (h : (readKindOfSeveral v).Sound) :
    ∃ name kind, v = .string name ∧ readKindOfSeveral v = ⟨[kind], []⟩ := by
  cases v with
  | string name =>
    unfold readKindOfSeveral at h ⊢
    dsimp only at h ⊢
    split
    · next kind _ => exact ⟨name, kind, rfl, rfl⟩
    · next hnone =>
      rw [hnone] at h
      exact absurd h (not_sound_refuse _)
  | _ => exact absurd h (not_sound_expected _ _)

theorem readKind_eq {name : String} (h : (readKind name).Sound ∨
    (readKindOfSeveral (.string name)).Sound) :
    readKind name = readKindOfSeveral (.string name) := by
  unfold readKind readKindOfSeveral at *
  dsimp only at *
  split
  · rfl
  · next hnone =>
    simp only [hnone] at h
    exact absurd h (not_or.mpr ⟨not_sound_refuse _, not_sound_refuse _⟩)

theorem forall_of_readKinds {vs : List Json} (h : (readKinds (.array vs)).Sound) :
    ∀ v ∈ vs, (readKindOfSeveral v).Sound := by
  match vs with
  | [] => exact nofun
  | [.string name] =>
    have hread : (readKind name).Sound := h
    intro v hv
    rw [List.mem_singleton.mp hv, ← readKind_eq (Or.inl hread)]
    exact hread
  | [.null] | [.bool _] | [.number _] | [.array _] | [.object _] =>
    exact absurd h (not_sound_expected _ _)
  | v :: w :: rest =>
    have hread : readKinds (.array (v :: w :: rest)) =
        List.flatten <$> .sequence ((v :: w :: rest).map readKindOfSeveral) := by
      cases v <;> rfl
    intro u hu
    rw [hread] at h
    exact sound_sequence_iff.mp (sound_bind_iff.mp h).1 _ (List.mem_map_of_mem hu)

/-- Several kinds are read one by one, also if there is one alone. -/
theorem readKinds_array {vs : List Json} (h : ∀ v ∈ vs, (readKindOfSeveral v).Sound) :
    readKinds (.array vs) = List.flatten <$> .sequence (vs.map readKindOfSeveral) := by
  match vs with
  | [] => rfl
  | [.string name] =>
    show readKind name = Reading.mk (List.flatten [_]) (([_].flatMap _) ++ [])
    rw [readKind_eq (Or.inr (h _ List.mem_cons_self))]
    simp
  | [.null] | [.bool _] | [.number _] | [.array _] | [.object _] =>
    exact absurd (h _ List.mem_cons_self) (not_sound_expected _ _)
  | v :: w :: rest => cases v <;> rfl

/-- Kinds are the same without null, however they are widened. -/
theorem keeps_readKinds {kinds kinds' : Json} (h : PlainUnder "type".toList kinds kinds') :
    Keeps (fun _ => True) (List.filter (· ≠ Kind.null)) (readKinds kinds) (readKinds kinds') := by
  -- the kinds and the null kind behind them
  have hwidened : ∀ vs : List Json, (∀ v ∈ vs, (readKindOfSeveral v).Sound) →
      Keeps (fun _ => True) (List.filter (· ≠ Kind.null))
        (List.flatten <$> .sequence (vs.map readKindOfSeveral))
        (readKinds (.array (vs ++ [.string "null"]))) := by
    intro vs hvs _ _
    have hnull : readKindOfSeveral (.string "null") = ⟨[.null], []⟩ := rfl
    rw [readKinds_array fun v hv => ?_]
    · constructor
      · show List.flatMap _ _ ++ [] = List.flatMap _ _ ++ []
        simp [List.flatMap_map, hnull]
      · show List.filter _ (List.flatten _) = List.filter _ (List.flatten _)
        simp [Reading.sequence, hnull]
    · rcases List.mem_append.mp hv with hv | hv
      · exact hvs v hv
      · rw [List.mem_singleton.mp hv, hnull]
        exact fun _ => List.not_mem_nil
  cases kinds with
  | string name =>
    cases h with
    | plain => exact .refl _
    | values h => exact absurd h (by decide)
    | kinds =>
      intro hsound hgood
      have hread := readKind_eq (Or.inl hsound)
      have hall : ∀ v ∈ [Json.string name], (readKindOfSeveral v).Sound := by
        intro v hv
        rw [List.mem_singleton.mp hv, ← hread]
        exact hsound
      have hkept := hwidened [.string name] hall
      rw [← readKinds_array hall] at hkept
      exact hkept hsound hgood
  | array vs =>
    intro hsound hgood
    have hall := forall_of_readKinds hsound
    have hplain : normalize (.array vs) = .array vs := by
      rw [normalize, normalizeItems_eq_map, List.map_congr_left fun v hv => ?_, List.map_id']
      obtain ⟨name, kind, rfl, -⟩ := exists_of_readKindOfSeveral (hall v hv)
      rfl
    cases h with
    | plain => rw [hplain]; exact ⟨rfl, rfl⟩
    | values h => exact absurd h (by decide)
    | kinds =>
      rw [hplain, widenKinds]
      split
      · exact ⟨rfl, rfl⟩
      · have hkept := hwidened vs hall
        rw [← readKinds_array hall] at hkept
        exact hkept hsound hgood
  | _ => exact .of_not_sound (not_sound_expected _ _)

/-- Listed values that are untouched are the same without null. -/
theorem keeps_listed {values : List Json} {raw' : Json}
    (h : PlainUnder "enum".toList (.array values) raw') (hvalues : ∀ v ∈ values, normalize v = v) :
    ∃ values', raw' = .array values' ∧
      values'.filter (· ≠ Json.null) = values.filter (· ≠ Json.null) := by
  have hplain : normalize (.array values) = .array values := by
    rw [normalize, normalizeItems_eq_map, List.map_congr_left hvalues, List.map_id']
  cases h with
  | plain => exact ⟨values, hplain, rfl⟩
  | kinds h => exact absurd h (by decide)
  | values =>
    rw [hplain, widenValues]
    split
    · exact ⟨values, rfl, rfl⟩
    · exact ⟨_, rfl, by simp⟩

/-! ## Members -/

/-- Whether a field of a member is kept: a schema under a name, or something else. -/
structure FieldKept (f f' : String × Json × Reading Schema) : Prop where
  name : f'.1 = f.1
  schema : KeepsSchema f.2.2 f'.2.2

/-- Whether a member is kept when its schema is made plain. -/
structure PartKept (word : String) (part part' : Part) : Prop where
  raw : PlainUnder word.toList part.raw part'.raw
  schema : KeepsSchema part.schema part'.schema
  list : List.Forall₂ KeepsSchema part.list part'.list
  fields : List.Forall₂ FieldKept part.fields part'.fields
  /-- Nothing is widened in a map that does not say `nullable: true`. -/
  plain : (∃ f ∈ part.fields, f.1 = "nullable" ∧ f.2.1 = .bool true ∧ f.2.2.result = .always) ∨
    List.Forall₂ (fun f f' => FieldKept f f' ∧ f'.2.1 = normalize f.2.1) part.fields part'.fields

/-- Whether all members of a schema object are. -/
def PartsKept (parts parts' : Parts) : Prop :=
  List.Forall₂ (fun e e' => e'.1 = e.1 ∧ PartKept e.1 e.2 e'.2) parts parts'

section

variable {parts parts' : Parts} {word : String} {part part' : Part}

theorem PartsKept.get? (h : PartsKept parts parts') (word : String) :
    Option.Rel (PartKept word) (parts.get? word) (parts'.get? word) := by
  induction h with
  | nil => exact .none
  | @cons e e' _ _ he _ ih =>
    obtain ⟨k, a⟩ := e
    obtain ⟨k', a'⟩ := e'
    obtain ⟨rfl, ha⟩ := he
    rw [Assoc.get?_cons, Assoc.get?_cons]
    split
    · next hk => exact .some (hk ▸ ha)
    · exact ih

theorem PartsKept.raw? (h : PartsKept parts parts') (ht : word ≠ "type") (he : word ≠ "enum") :
    parts'.raw? word = (parts.raw? word).map normalize := by
  have hget := h.get? word
  unfold Parts.raw?
  generalize parts.get? word = a at hget
  generalize parts'.get? word = a' at hget
  cases hget with
  | none => rfl
  | some ha =>
    exact congrArg some (ha.raw.eq_normalize (fun h => ht (String.toList_inj.mp h))
      fun h => he (String.toList_inj.mp h))

theorem PartsKept.takesIn_eq (h : PartsKept parts parts') : takesIn parts' = takesIn parts := by
  unfold takesIn
  rw [h.raw? (by decide) (by decide)]
  cases parts.raw? "additionalProperties" with
  | none => rfl
  | some v => cases v <;> rfl

namespace PartKept

theorem raw_eq (h : PartKept word part part') (ht : word ≠ "type") (he : word ≠ "enum") :
    part'.raw = normalize part.raw :=
  h.raw.eq_normalize (fun h => ht (String.toList_inj.mp h)) fun h => he (String.toList_inj.mp h)

theorem keeps_readBranches (h : PartKept word part part') (ht : word ≠ "type")
    (he : word ≠ "enum") :
    Keeps (EveryBranches Untouched) forgetBranches (readBranches part) (readBranches part') := by
  unfold readBranches
  rw [h.raw_eq ht he]
  cases part.raw with
  | array vs =>
    refine (Keeps.sequence h.list).imp (fun ss hss => everyBranches_iff.mp hss)
      fun ss ss' hview => ?_
    rw [forgetBranches_eq_map, forgetBranches_eq_map, hview]
  | _ => exact .of_not_sound (not_sound_expected _ _)

theorem keeps_readDeclared (h : PartKept word part part') (ht : word ≠ "type")
    (he : word ≠ "enum") :
    Keeps (EveryFields Untouched) forgetFields (readDeclared part) (readDeclared part') := by
  unfold readDeclared
  rw [h.raw_eq ht he]
  cases part.raw with
  | object ms =>
    have hfields : List.Forall₂ (Keeps (fun d : String × Schema => Tame d.2)
        fun d : String × Schema => (d.1, forget d.2))
        (part.fields.map fun f => (f.1, ·) <$> f.2.2)
        (part'.fields.map fun f => (f.1, ·) <$> f.2.2) := by
      rw [List.forall₂_map_left_iff, List.forall₂_map_right_iff]
      refine h.fields.imp fun f f' hf => hf.schema.map (fun _ ha => ha) fun a a' _ ha => ?_
      rw [hf.name, ha]
    refine (Keeps.sequence hfields).imp (fun ds hds => everyFields_iff.mp hds)
      fun ds ds' hview => ?_
    rw [forgetFields_eq_map, forgetFields_eq_map, hview]
  | _ => exact .of_not_sound (not_sound_expected _ _)

theorem keeps_readPatterns (h : PartKept word part part') (ht : word ≠ "type")
    (he : word ≠ "enum") (owner owner' : Json) :
    Keeps (EveryPatterns Untouched) forgetPatterns (readPatterns owner part)
      (readPatterns owner' part') := by
  unfold readPatterns
  rw [h.raw_eq ht he]
  cases part.raw with
  | object ms =>
    have hfields : List.Forall₂ (Keeps (fun d : NamedPattern × Schema => Tame d.2)
        fun d : NamedPattern × Schema => (d.1, forget d.2))
        (part.fields.map readMatching) (part'.fields.map readMatching) := by
      rw [List.forall₂_map_left_iff, List.forall₂_map_right_iff]
      refine h.fields.imp fun f f' hf => ?_
      unfold readMatching
      rw [hf.name]
      split
      · exact hf.schema.map (fun _ ha => ha) fun a a' _ ha => congrArg (Prod.mk _) ha
      · exact .of_not_sound fun hsound => hsound _ List.mem_cons_self
    refine (Keeps.sequence hfields).imp (fun ds hds => everyPatterns_iff.mp hds)
      fun ds ds' hview => ?_
    rw [forgetPatterns_eq_map, forgetPatterns_eq_map, hview]
  | _ => exact .of_not_sound (not_sound_expected _ _)

end PartKept

end

/-! ## Keywords that read what is beside them -/

section

variable {parts parts' : Parts} {part part' : Part}

theorem PartsKept.keeps_readPatternsBeside (h : PartsKept parts parts') (owner owner' : Json) :
    Keeps (fun m => EveryPatterns Untouched (m.getD [])) (Option.map forgetPatterns)
      (readPatternsBeside parts owner) (readPatternsBeside parts' owner') := by
  have hget := h.get? "patternProperties"
  unfold readPatternsBeside
  generalize parts.get? "patternProperties" = a at hget
  generalize parts'.get? "patternProperties" = a' at hget
  cases hget with
  | none => exact .refl _
  | some ha =>
    exact (ha.keeps_readPatterns (by decide) (by decide) owner owner').map (fun _ hm => hm)
      fun _ _ _ hview => congrArg some hview

theorem PartsKept.keeps_readDeclaredBeside (h : PartsKept parts parts') :
    Keeps (EveryFields Untouched) forgetFields (readDeclaredBeside parts)
      (readDeclaredBeside parts') := by
  have hget := h.get? "properties"
  unfold readDeclaredBeside
  generalize parts.get? "properties" = a at hget
  generalize parts'.get? "properties" = a' at hget
  cases hget with
  | none => exact .refl _
  | some ha => exact ha.keeps_readDeclared (by decide) (by decide)

theorem forgetPatterns_getD {m m' : Option (List (NamedPattern × Schema))}
    (h : m'.map forgetPatterns = m.map forgetPatterns) :
    forgetPatterns (m'.getD []) = forgetPatterns (m.getD []) := by
  cases m <;> cases m' <;> simp_all

theorem keeps_readAdditional (h : PartsKept parts parts')
    (hpart : PartKept "additionalProperties" part part')
    (hbeside : part.raw = .bool true → EveryPatterns Untouched
      ((readPatternsBeside parts (.bool true)).result.getD [])) :
    KeepsKeywords (readAdditional parts part) (readAdditional parts' part') := by
  have hpartition : ∀ owner owner' : Json, KeepsKeywords
      (readPatternsBeside parts owner >>= fun matching => readDeclaredBeside parts >>= fun declared =>
        part.schema >>= fun others => pure [.partition declared (matching.getD []) others])
      (readPatternsBeside parts' owner' >>= fun matching => readDeclaredBeside parts' >>=
        fun declared => part'.schema >>= fun others =>
          pure [.partition declared (matching.getD []) others]) := by
    intro owner owner'
    refine (h.keeps_readPatternsBeside owner owner').bind (fun hgood => hgood.1.2.2.1)
      fun matching hmatching _ => ?_
    refine h.keeps_readDeclaredBeside.bind (fun hgood => hgood.1.2.1) fun declared hdeclared _ => ?_
    refine hpart.schema.keyword (fun _ _ hwithin => hwithin.2.2) fun others others' _ hothers => ?_
    simp only [forgetKeyword, hothers, hdeclared, forgetPatterns_getD hmatching]
  unfold readAdditional
  rw [hpart.raw_eq (by decide) (by decide)]
  cases hraw : part.raw with
  | bool b =>
    cases b with
    | true =>
      exact (h.keeps_readPatternsBeside _ _).bind (fun _ => hbeside hraw) fun _ _ _ => .refl _
    | false =>
      have hget := h.get? "properties"
      simp only [normalize]
      generalize parts.get? "properties" = a at hget
      generalize parts'.get? "properties" = a' at hget
      cases hget with
      | some ha =>
        refine (h.keeps_readPatternsBeside _ _).bind (fun hgood => hgood.1.2.2)
          fun matching hmatching _ => ?_
        refine (ha.keeps_readDeclared (by decide) (by decide)).keyword
          (fun _ _ hwithin => hwithin.1) fun declared declared' _ hdeclared => ?_
        simp only [forgetKeyword, hdeclared, forgetPatterns_getD hmatching]
      | none =>
        refine (h.keeps_readPatternsBeside _ _).bind (fun hgood => ?_) fun matching hmatching _ => ?_
        · cases hm : (readPatternsBeside parts (.bool false)).result with
          | none => trivial
          | some patterns =>
            rw [hm] at hgood
            exact hgood.1.2.2
        · cases hm : (readPatternsBeside parts (.bool false)).result with
          | none =>
            rw [hm] at hmatching
            rw [Option.map_eq_none_iff.mp hmatching]
            exact .refl _
          | some patterns =>
            rw [hm] at hmatching
            obtain ⟨patterns', rfl, hpatterns⟩ := Option.map_eq_some_iff.mp hmatching
            refine .pure fun _ => ?_
            simp only [forgetAll, forgetKeyword, hpatterns]
  | _ => exact hpartition _ _

theorem keeps_readItems {dialect : Dialect} (h : PartsKept parts parts')
    (hpart : PartKept "items" part part') :
    KeepsKeywords (readItems dialect parts part) (readItems dialect parts' part') := by
  unfold readItems
  rw [hpart.raw_eq (by decide) (by decide)]
  cases hraw : part.raw with
  | array vs =>
    have hlist : Keeps (EveryBranches Untouched) forgetBranches (.sequence part.list)
        (.sequence part'.list) :=
      (Keeps.sequence hpart.list).imp (fun ss hss => everyBranches_iff.mp hss) fun ss ss' hview => by
        rw [forgetBranches_eq_map, forgetBranches_eq_map, hview]
    exact hlist.keyword (fun _ _ hwithin => hwithin) fun _ _ _ hview => by
      simp only [forgetKeyword, hview]
  | object _ | bool _ =>
    simp only [normalize]
    refine hpart.schema.keyword (fun _ _ hwithin => hwithin) fun _ _ _ hview => ?_
    simp only [forgetKeyword, hview]
    -- as many schemas stand in front
    refine congrArg (Keyword.items · _) ?_
    rw [h.raw? (by decide) (by decide)]
    cases dialect with
    | draft4 => rfl
    | draft2020 =>
      cases parts.raw? "prefixItems" with
      | none => rfl
      | some v => cases v <;> simp [normalize, normalizeItems_eq_map]
  | _ => exact .of_not_sound (not_sound_expected _ _)

theorem keeps_readAdditionalItems (h : PartsKept parts parts')
    (hpart : PartKept "additionalItems" part part') :
    KeepsKeywords (readAdditionalItems parts part) (readAdditionalItems parts' part') := by
  unfold readAdditionalItems
  rw [hpart.raw_eq (by decide) (by decide), h.raw? (by decide) (by decide)]
  cases parts.raw? "items" with
  | none => exact .refl _
  | some v =>
    cases v with
    | array vs =>
      have hlength : (vs.map normalize).length = vs.length := List.length_map ..
      simp only [Option.map_some, normalize, normalizeItems_eq_map]
      cases part.raw with
      | object ms =>
        exact hpart.schema.keyword (fun _ _ hwithin => hwithin) fun _ _ _ hview => by
          simp only [forgetKeyword, hview, hlength]
      | bool b =>
        cases b with
        | true => exact .refl _
        | false => exact .pure fun _ => by simp only [forgetAll, forgetKeyword, hlength]
      | _ => exact .refl _
    | _ => exact .refl _

theorem keeps_readConditional (h : PartsKept parts parts') (hpart : PartKept "if" part part') :
    KeepsKeywords (readConditional parts part) (readConditional parts' part') := by
  have hbranch : ∀ word, KeepsSchema (((parts.get? word).map Part.schema).getD (pure .always))
      (((parts'.get? word).map Part.schema).getD (pure .always)) := by
    intro word
    have hget := h.get? word
    generalize parts.get? word = a at hget
    generalize parts'.get? word = a' at hget
    cases hget with
    | none => exact .refl _
    | some ha => exact ha.schema
  have hall : KeepsKeywords
      (part.schema >>= fun condition =>
        ((parts.get? "then").map Part.schema).getD (pure .always) >>= fun a =>
          ((parts.get? "else").map Part.schema).getD (pure .always) >>= fun b =>
            pure [.conditional condition a b])
      (part'.schema >>= fun condition =>
        ((parts'.get? "then").map Part.schema).getD (pure .always) >>= fun a =>
          ((parts'.get? "else").map Part.schema).getD (pure .always) >>= fun b =>
            pure [.conditional condition a b]) := by
    refine hpart.schema.bind (fun hgood => hgood.1.2.1) fun condition hcondition _ => ?_
    refine (hbranch "then").bind (fun hgood => hgood.1.2.2.1) fun a ha _ => ?_
    refine (hbranch "else").keyword (fun _ _ hwithin => hwithin.2.2) fun b b' _ hb => ?_
    simp only [forgetKeyword, hcondition, ha, hb]
  have hthen := h.get? "then"
  have helse := h.get? "else"
  unfold readConditional
  generalize parts.get? "then" = a at hthen hall
  generalize parts'.get? "then" = a' at hthen hall
  generalize parts.get? "else" = b at helse hall
  generalize parts'.get? "else" = b' at helse hall
  cases hthen with
  | none =>
    cases helse with
    | none => exact .refl _
    | some _ => exact hall
  | some _ => exact hall

end

/-! ## Keywords with plain arguments -/

/-- Nothing is widened that does not say so. -/
theorem widen_of_get?_ne {members : Assoc Json} (h : members.get? "nullable" ≠ some (.bool true)) :
    widen members = members := if_neg h

section

variable {parts parts' : Parts} {part part' : Part} {word : String}

theorem PartKept.keeps_readSize (h : PartKept word part part') (ht : word ≠ "type")
    (he : word ≠ "enum") (measure : Measure) (upper : Bool) :
    KeepsKeywords (readSize dialect measure upper part) (readSize dialect measure upper part') := by
  refine .of_sound fun hsound => ?_
  unfold readSize at hsound ⊢
  rw [h.raw_eq ht he, normalize_of_readCount (sound_bind_iff.mp hsound).1]

theorem PartKept.keeps_readBound (h : PartKept word part part') (ht : word ≠ "type")
    (he : word ≠ "enum") (bound : Bound) :
    KeepsKeywords (readBound bound part) (readBound bound part') := by
  refine .of_sound fun hsound => ?_
  unfold readBound at hsound ⊢
  rw [h.raw_eq ht he, normalize_of_readNumber (sound_bind_iff.mp hsound).1]

theorem PartKept.keeps_readInclusive (h : PartsKept parts parts') (hpart : PartKept word part part')
    (ht : word ≠ "type") (he : word ≠ "enum") (inclusive exclusive : Bound) :
    KeepsKeywords (readInclusive dialect inclusive exclusive parts part)
      (readInclusive dialect inclusive exclusive parts' part') := by
  unfold readInclusive
  rw [h.raw? (by cases exclusive <;> decide) (by cases exclusive <;> decide)]
  cases dialect with
  | draft2020 => exact hpart.keeps_readBound ht he _
  | draft4 =>
    cases parts.raw? exclusive.word with
    | none => exact hpart.keeps_readBound ht he _
    | some v =>
      cases v with
      | bool b => cases b <;> exact hpart.keeps_readBound ht he _
      | _ => exact hpart.keeps_readBound ht he _

theorem PartKept.keeps_readPattern (h : PartKept word part part') (ht : word ≠ "type")
    (he : word ≠ "enum") : KeepsKeywords (readPattern part) (readPattern part') := by
  refine .of_sound fun hsound => ?_
  unfold readPattern at hsound ⊢
  rw [h.raw_eq ht he, normalize_of_readText (sound_bind_iff.mp hsound).1]

theorem PartsKept.keeps_readBesideCount (h : PartsKept parts parts') (ht : word ≠ "type")
    (he : word ≠ "enum") :
    KeepsArgument (readBesideCount parts word) (readBesideCount parts' word) := by
  unfold readBesideCount
  rw [h.raw? ht he]
  cases parts.raw? word with
  | none => exact .refl _
  | some v =>
    cases v with
    | number n => exact .refl _
    | _ =>
      exact .of_not_sound fun hsound => not_sound_expected _ _ (sound_bind_iff.mp hsound).1

/-- Dependencies are kept, since none says `nullable: true`. -/
theorem PartKept.keeps_dependencies (h : PartKept "dependencies" part part') :
    KeepsKeywords (.sequence (part.fields.map readDependency))
      (.sequence (part'.fields.map readDependency)) := by
  intro hsound hgood
  have hplain := h.plain.resolve_left fun ⟨f, hf, hname, hflag, halways⟩ => by
    have hk := everyAll_iff.mp hgood _ (List.mem_map_of_mem (List.mem_map_of_mem hf))
    have hresult : (readDependency f).result =
        .dependentSchema "dependencies" "nullable" .always := by
      rw [readDependency, hflag, ← hname, ← halways]
      rfl
    rw [hresult] at hk
    exact hk.1 ⟨rfl, rfl, rfl⟩
  have hfields : List.Forall₂ (Keeps (fun k => Untouched k ∧ EveryWithin Untouched k) forgetKeyword)
      (part.fields.map readDependency) (part'.fields.map readDependency) := by
    rw [List.forall₂_map_left_iff, List.forall₂_map_right_iff]
    refine hplain.imp fun f f' hf => ?_
    obtain ⟨hf, hraw⟩ := hf
    unfold readDependency
    rw [hraw, hf.name]
    cases hfield : f.2.1 with
    | array vs =>
      refine .of_sound fun hs => ?_
      have hnames : normalize (.array vs) = .array vs :=
        normalize_of_readNames (sound_bind_iff.mp hs).1
      simp only [hnames]
    | _ =>
      exact hf.schema.map (fun _ ha => ha.2) fun _ _ _ hview => by simp only [forgetKeyword, hview]
  refine (Keeps.sequence hfields).imp (fun ks hks => everyAll_iff.mp hks) (fun ks ks' hview => ?_)
    hsound hgood
  rw [forgetAll_eq_map, forgetAll_eq_map, hview]

/-- Names that are required beside a property are kept: a map of them says nothing else. -/
theorem PartKept.keeps_requirements {members : Assoc Json} (hraw : part.raw = .object members)
    (hraw' : part'.raw = normalize part.raw) :
    ∃ members' : Assoc Json, part'.raw = .object members' ∧
      KeepsKeywords (.sequence (members.map readRequirement))
        (.sequence (members'.map readRequirement)) := by
  rw [hraw, normalize] at hraw'
  refine ⟨_, hraw', .of_sound fun hsound => ?_⟩
  have hnames : ∀ e ∈ members, normalize e.2 = e.2 ∧ e.2 ≠ .bool true := by
    intro e he
    have hs := sound_sequence_iff.mp hsound _ (List.mem_map_of_mem he)
    unfold readRequirement at hs
    split at hs
    · next vs hvs =>
      split at hs
      · exact ⟨normalize_of_readNames (sound_bind_iff.mp hs).1, by rw [hvs]; simp⟩
      · exact absurd hs (not_sound_refuse _)
    · exact absurd hs (not_sound_expected _ _)
  have hsame : normalizeMembers members = members := by
    rw [normalizeMembers_eq_map]
    refine (List.map_congr_left fun e he => ?_).trans (List.map_id members)
    rw [(hnames e he).1]
    rfl
  rw [hsame, widen_of_get?_ne fun hflag => (hnames _ (Assoc.mem_of_get? hflag)).2 rfl]

end

/-! ## Keywords by name -/

section

variable {parts parts' : Parts} {part part' : Part} {word : String}

/-- **A keyword that both dialects know is kept.** -/
theorem keeps_readShared (h : PartsKept parts parts') (hpart : PartKept word part part')
    (hbeside : word = "additionalProperties" → part.raw = .bool true →
      EveryPatterns Untouched ((readPatternsBeside parts (.bool true)).result.getD [])) :
    KeepsKeywords (readShared dialect formats parts part word)
      (readShared dialect formats parts' part' word) := by
  unfold readShared
  split
  · exact keeps_readAdditional h hpart (hbeside rfl)
  · exact (hpart.keeps_readBranches (by decide) (by decide)).keyword (fun _ _ hw => hw)
      fun _ _ _ hview => by simp only [forgetKeyword, hview]
  · exact (hpart.keeps_readBranches (by decide) (by decide)).keyword (fun _ _ hw => hw)
      fun _ _ _ hview => by simp only [forgetKeyword, hview]
  · rw [hpart.raw_eq (by decide) (by decide)]
    cases part.raw with
    | object _ => exact hpart.keeps_dependencies
    | _ => exact .of_not_sound (not_sound_expected _ _)
  · have hraw := hpart.raw
    cases hvalues : part.raw with
    | array values =>
      rw [hvalues] at hraw
      intro hsound hgood
      obtain ⟨values', hraw', hsame⟩ := keeps_listed hraw hgood.1.1
      rw [hraw']
      refine ⟨rfl, ?_⟩
      show [Keyword.oneOfValues _] = [Keyword.oneOfValues _]
      rw [hsame]
    | _ => exact .of_not_sound (not_sound_expected _ _)
  · rw [hpart.raw_eq (by decide) (by decide)]
    split
    · refine .of_sound fun hsound => ?_
      rw [normalize_of_readText (sound_bind_iff.mp hsound).1]
    · exact .refl _
  · exact keeps_readItems h hpart
  · exact hpart.keeps_readSize (by decide) (by decide) _ _
  · exact hpart.keeps_readSize (by decide) (by decide) _ _
  · exact hpart.keeps_readSize (by decide) (by decide) _ _
  · exact hpart.keeps_readInclusive h (by decide) (by decide) _ _
  · exact hpart.keeps_readSize (by decide) (by decide) _ _
  · exact hpart.keeps_readSize (by decide) (by decide) _ _
  · exact hpart.keeps_readSize (by decide) (by decide) _ _
  · exact hpart.keeps_readInclusive h (by decide) (by decide) _ _
  · refine .of_sound fun hsound => ?_
    rw [hpart.raw_eq (by decide) (by decide),
      normalize_of_readNumber (sound_bind_iff.mp hsound).1]
  · exact hpart.schema.keyword (fun _ _ hw => hw) fun _ _ _ hview => by
      simp only [forgetKeyword, hview]
  · exact (hpart.keeps_readBranches (by decide) (by decide)).keyword (fun _ _ hw => hw)
      fun _ _ _ hview => by simp only [forgetKeyword, hview]
  · exact hpart.keeps_readPattern (by decide) (by decide)
  · rw [h.takesIn_eq]
    split
    · exact .refl _
    · exact (hpart.keeps_readPatterns (by decide) (by decide) _ _).keyword (fun _ _ hw => hw)
        fun _ _ _ hview => by simp only [forgetKeyword, hview]
  · rw [h.takesIn_eq]
    split
    · exact .refl _
    · exact (hpart.keeps_readDeclared (by decide) (by decide)).keyword (fun _ _ hw => hw)
        fun _ _ _ hview => by simp only [forgetKeyword, hview]
  · refine .of_sound fun hsound => ?_
    rw [hpart.raw_eq (by decide) (by decide), normalize_of_readNames (sound_bind_iff.mp hsound).1]
  · exact (keeps_readKinds hpart.raw).keyword (fun _ _ _ => trivial) fun _ _ _ hview => by
      simp only [forgetKeyword, hview]
  · rw [hpart.raw_eq (by decide) (by decide)]
    cases part.raw with
    | bool b => exact .refl _
    | _ => exact .of_not_sound (not_sound_expected _ _)
  · exact .refl _

/-- **A keyword that only the newer dialect knows is kept.** -/
theorem keeps_readRecent (h : PartsKept parts parts') (hpart : PartKept word part part') :
    KeepsKeywords (readRecent parts part word) (readRecent parts' part' word) := by
  unfold readRecent
  split
  · refine .of_sound fun hsound => ?_
    rw [hpart.raw_eq (by decide) (by decide), normalize_of_readReference hsound]
  · refine .pure fun hgood => ?_
    rw [hpart.raw_eq (by decide) (by decide), hgood.1.1]
  · refine (h.keeps_readBesideCount (by decide) (by decide)).bind (fun _ => trivial)
      fun least hleast _ => ?_
    refine (h.keeps_readBesideCount (by decide) (by decide)).bind (fun _ => trivial)
      fun most hmost _ => ?_
    refine hpart.schema.keyword (fun _ _ hw => hw) fun _ _ _ hview => ?_
    dsimp only [id] at hleast hmost
    rw [forgetKeyword, forgetKeyword, hview, hleast, hmost]
  · cases hraw : part.raw with
    | object members =>
      obtain ⟨members', hraw', hkept⟩ :=
        PartKept.keeps_requirements hraw (hpart.raw_eq (by decide) (by decide))
      rw [hraw']
      exact hkept
    | _ => exact .of_not_sound (not_sound_expected _ _)
  · refine (hpart.keeps_readDeclared (by decide) (by decide)).map (fun ds hgood => ?_)
      fun ds ds' _ hview => ?_
    · refine everyFields_iff.mpr fun d hd => ?_
      exact (everyAll_iff.mp hgood _ (List.mem_map_of_mem hd)).2
    · rw [forgetFields_eq_map, forgetFields_eq_map] at hview
      have hmap : ∀ ds : List (String × Schema),
          forgetAll (ds.map fun d => Keyword.dependentSchema "dependentSchemas" d.1 d.2) =
            (ds.map fun d => (d.1, forget d.2)).map fun d =>
              Keyword.dependentSchema "dependentSchemas" d.1 d.2 := by
        intro ds
        rw [forgetAll_eq_map, List.map_map, List.map_map]
        rfl
      rw [hmap, hmap, hview]
  · exact hpart.keeps_readBound (by decide) (by decide) _
  · exact hpart.keeps_readBound (by decide) (by decide) _
  · exact keeps_readConditional h hpart
  · exact (hpart.keeps_readBranches (by decide) (by decide)).keyword (fun _ _ hw => hw)
      fun _ _ _ hview => by simp only [forgetKeyword, hview]
  · rw [hpart.raw_eq (by decide) (by decide)]
    cases part.raw with
    | object _ =>
      exact hpart.schema.keyword (fun _ _ hw => hw) fun _ _ _ hview => by
        simp only [forgetKeyword, hview]
    | bool b => cases b <;> exact .refl _
    | _ => exact .refl _
  · exact hpart.schema.keyword (fun _ _ hw => hw) fun _ _ _ hview => by
      simp only [forgetKeyword, hview]
  · exact hpart.schema.keyword (fun _ _ hw => hw) fun _ _ _ hview => by
      simp only [forgetKeyword, hview]
  · exact .refl _

end

/-! ## Schema objects -/

section

variable {parts parts' : Parts}

theorem result_readPatternsBeside (owner owner' : Json) :
    (readPatternsBeside parts owner).result = (readPatternsBeside parts owner').result := by
  unfold readPatternsBeside
  split
  · unfold readPatterns
    split <;> rfl
  · rfl

/-- `additionalProperties` takes in the patterns beside it, if it takes in any. -/
theorem everyPatterns_of_readAdditional {part : Part}
    (h : part.raw = .bool false ∨ ∃ ms, part.raw = .object ms)
    (hgood : EveryAll Untouched (readAdditional parts part).result) :
    EveryPatterns Untouched ((readPatternsBeside parts part.raw).result.getD []) := by
  unfold readAdditional at hgood
  rcases h with hraw | ⟨ms, hraw⟩
  · rw [hraw] at hgood ⊢
    cases hproperties : parts.get? "properties" with
    | some properties =>
      simp only [hproperties] at hgood
      exact hgood.1.2.2
    | none =>
      simp only [hproperties] at hgood
      generalize readPatternsBeside parts (.bool false) = x at hgood
      obtain ⟨m, es⟩ := x
      cases m with
      | none => trivial
      | some patterns => exact hgood.1.2.2
  · rw [hraw] at hgood ⊢
    exact hgood.1.2.2.1

/-- The patterns beside `additionalProperties` are among the keywords, its own or those of their
member. -/
theorem everyPatterns_beside
    (hgood : ∀ e ∈ parts, EveryAll Untouched (readMember dialect formats parts e).result)
    (owner : Json) :
    EveryPatterns Untouched ((readPatternsBeside parts owner).result.getD []) := by
  have hshared : ∀ {word part}, parts.get? word = some part →
      EveryAll Untouched (readShared dialect formats parts part word).result := fun hpart =>
    everyAll_iff.mpr fun k hk =>
      everyAll_iff.mp (hgood _ (Assoc.mem_of_get? hpart)) k (List.mem_append_left _ hk)
  cases htakes : takesIn parts with
  | true =>
    have hpart : ∃ part, parts.get? "additionalProperties" = some part ∧
        (part.raw = .bool false ∨ ∃ ms, part.raw = .object ms) := by
      unfold takesIn Parts.raw? at htakes
      cases hadditional : parts.get? "additionalProperties" with
      | none => simp [hadditional] at htakes
      | some part =>
        refine ⟨part, rfl, ?_⟩
        simp only [hadditional, Option.map_some] at htakes
        split at htakes
        · next hraw => exact Or.inl (Option.some.inj hraw)
        · next hraw => exact Or.inr ⟨_, Option.some.inj hraw⟩
        · cases htakes
    obtain ⟨part, hpart, hraw⟩ := hpart
    rw [result_readPatternsBeside owner part.raw]
    exact everyPatterns_of_readAdditional hraw (hshared hpart)
  | false =>
    cases hpatterns : parts.get? "patternProperties" with
    | none =>
      rw [readPatternsBeside, hpatterns]
      trivial
    | some patterns =>
      have hread : readShared dialect formats parts patterns "patternProperties" =
          readPatterns patterns.raw patterns >>= fun matching =>
            pure [.patternProperties matching] := by
        show (if takesIn parts = true then pure [] else _ : Reading (List Keyword)) = _
        rw [htakes]
        rfl
      have hk := hshared hpatterns
      rw [hread] at hk
      rw [result_readPatternsBeside owner patterns.raw, readPatternsBeside, hpatterns]
      exact hk.1.2

/-- **The keywords of a schema object are kept.** -/
theorem keeps_readKeywords (h : PartsKept parts parts') :
    KeepsKeywords (readKeywords dialect formats parts) (readKeywords dialect formats parts') := by
  intro hsound hgood
  have hmembers : ∀ e ∈ parts, EveryAll Untouched (readMember dialect formats parts e).result := by
    intro e he
    rw [everyAll_iff]
    intro k hk
    refine everyAll_iff.mp hgood k ?_
    rw [readKeywords_eq]
    exact List.mem_flatMap.mpr ⟨e, he, hk⟩
  have hmember : ∀ e e' : String × Part, e ∈ parts → e'.1 = e.1 → PartKept e.1 e.2 e'.2 →
      KeepsKeywords (readMember dialect formats parts e) (readMember dialect formats parts' e') := by
    rintro ⟨k, part⟩ ⟨k', part'⟩ he rfl hpart
    dsimp only at hpart
    have hshared : KeepsKeywords (readShared dialect formats parts part k')
        (readShared dialect formats parts' part' k') :=
      keeps_readShared h hpart fun _ _ => everyPatterns_beside hmembers _
    have hown : KeepsKeywords (readOwn dialect parts (k', part))
        (readOwn dialect parts' (k', part')) := by
      unfold readOwn
      cases dialect with
      | draft4 =>
        dsimp only
        split
        · next hk =>
          subst hk
          exact keeps_readAdditionalItems h hpart
        · exact .refl _
      | draft2020 => exact keeps_readRecent h hpart
    have happend : ∀ ks ls : List Keyword, EveryAll Untouched (ks ++ ls) →
        EveryAll Untouched ks ∧ EveryAll Untouched ls := fun ks ls hall =>
      ⟨everyAll_iff.mpr fun k hk => everyAll_iff.mp hall k (List.mem_append_left _ hk),
        everyAll_iff.mpr fun k hk => everyAll_iff.mp hall k (List.mem_append_right _ hk)⟩
    refine hshared.bind (fun hgood => (happend _ _ hgood).1) fun shared hview _ => ?_
    refine hown.map (fun own hgood => (happend _ _ hgood).2) fun own own' _ hview' => ?_
    rw [forgetAll_eq_map, forgetAll_eq_map] at hview hview' ⊢
    rw [List.map_append, List.map_append, hview, hview']
  have hall : List.Forall₂ KeepsKeywords (parts.map (readMember dialect formats parts))
      (parts'.map (readMember dialect formats parts')) := by
    rw [List.forall₂_map_left_iff, List.forall₂_map_right_iff]
    have hsub : ∀ rest : Parts, (∀ e ∈ rest, e ∈ parts) → ∀ rest' : Parts, PartsKept rest rest' →
        List.Forall₂ (fun e e' => KeepsKeywords (readMember dialect formats parts e)
          (readMember dialect formats parts' e')) rest rest' := by
      intro rest hrest rest' hkept
      induction hkept with
      | nil => exact .nil
      | cons he _ ih =>
        exact .cons (hmember _ _ (hrest _ List.mem_cons_self) he.1 he.2)
          (ih fun e he => hrest e (List.mem_cons_of_mem _ he))
    exact hsub parts (fun _ he => he) parts' h
  refine (Keeps.sequence hall).map (fun kss hkss ks hks => ?_) (fun kss kss' _ hview => ?_) hsound
    hgood
  · exact everyAll_iff.mpr fun k hk => everyAll_iff.mp hkss k (List.mem_flatten_of_mem hks hk)
  · have hmap : ∀ kss : List (List Keyword), forgetAll kss.flatten = (kss.map forgetAll).flatten := by
      intro kss
      induction kss with
      | nil => rfl
      | cons ks kss ih =>
        rw [List.flatten_cons, List.map_cons, List.flatten_cons, ← ih]
        simp only [forgetAll_eq_map, List.map_append]
    rw [hmap, hmap, hview]

end

/-! ## Schemas -/

/-- Where nothing says `nullable: true`, nothing is widened. -/
theorem widen_normalizeMembers {members : Assoc Json}
    (h : members.get? "nullable" ≠ some (.bool true)) :
    widen (normalizeMembers members) = members.map fun e => (e.1, normalize e.2) := by
  rw [widen_of_get?_ne, normalizeMembers_eq_map]
  rw [get?_normalizeMembers]
  intro hflag
  obtain ⟨v, hv, hnormal⟩ := Option.map_eq_some_iff.mp hflag
  rw [eq_bool_of_normalize hnormal] at hv
  exact h hv

/-- Schemas below a depth that are kept when they are made plain. -/
def KeptBelow (dialect : Dialect) (formats : Bool) (n : Nat) : Prop :=
  ∀ v v' key, depth v < n → PlainUnder key v v' →
    KeepsSchema (read dialect formats v) (read dialect formats v')

theorem readAll_eq_map (vs : List Json) :
    readAll dialect formats vs = vs.map (read dialect formats) := by
  induction vs with
  | nil => rfl
  | cons v vs ih => rw [readAll, ih, List.map_cons]

theorem role_plain_of_widened {word : String} (h : word = "type" ∨ word = "enum") :
    roleOf dialect word = .plain := by
  rcases h with rfl | rfl <;> cases dialect <;> rfl

/-- The schemas of a list are kept. -/
theorem listKept_readAll {n : Nat} (ih : KeptBelow dialect formats n) {vs : List Json}
    (hdepth : depth (.array vs) < n) :
    List.Forall₂ KeepsSchema (readAll dialect formats vs)
      (readAll dialect formats (normalizeItems vs)) := by
  rw [normalizeItems_eq_map, readAll_eq_map, readAll_eq_map, List.forall₂_map_left_iff,
    List.forall₂_map_right_iff, List.forall₂_map_right_iff]
  refine List.forall₂_same.mpr fun v hv => ?_
  exact ih v _ [] (Nat.lt_trans (depth_lt_of_mem_array hv) hdepth) .plain

/-- The schemas of a map are kept. -/
theorem fieldsKept_readFields {n : Nat} (ih : KeptBelow dialect formats n) {members : Assoc Json}
    (hdepth : depth (.object members) < n) :
    List.Forall₂ FieldKept (readFields dialect formats members)
      (readFields dialect formats (widen (normalizeMembers members))) := by
  obtain ⟨f, hf, hplain⟩ := exists_plain_members members
  rw [hf, readFields_eq_map, readFields_eq_map, List.forall₂_map_left_iff,
    List.forall₂_map_right_iff, List.forall₂_map_right_iff]
  refine List.forall₂_same.mpr fun e he => ⟨(hplain e).1, ?_⟩
  exact ih e.2 _ _ (Nat.lt_trans (depth_lt_of_mem_members he) hdepth) (hplain e).2

/-- Either a map says `nullable: true`, or none of its entries is widened. -/
theorem flagged_or_plain_readFields {n : Nat} (ih : KeptBelow dialect formats n)
    {members : Assoc Json} (hdepth : depth (.object members) < n) :
    (∃ f ∈ readFields dialect formats members,
      f.1 = "nullable" ∧ f.2.1 = .bool true ∧ f.2.2.result = .always) ∨
    List.Forall₂ (fun f f' => FieldKept f f' ∧ f'.2.1 = normalize f.2.1)
      (readFields dialect formats members)
      (readFields dialect formats (widen (normalizeMembers members))) := by
  by_cases hflag : members.get? "nullable" = some (.bool true)
  · refine Or.inl ⟨("nullable", .bool true, read dialect formats (.bool true)), ?_, rfl, rfl, rfl⟩
    rw [readFields_eq_map]
    exact List.mem_map.mpr ⟨_, Assoc.mem_of_get? hflag, rfl⟩
  · have hkept := fieldsKept_readFields ih hdepth
    rw [widen_normalizeMembers hflag, readFields_eq_map, readFields_eq_map,
      List.forall₂_map_left_iff, List.forall₂_map_right_iff, List.forall₂_map_right_iff] at hkept ⊢
    exact Or.inr (List.forall₂_same.mpr fun e he => ⟨List.forall₂_same.mp hkept e he, rfl⟩)

/-- A member is kept if the schemas that are inside of it are. -/
theorem partKept_partOf {n : Nat} (ih : KeptBelow dialect formats n) {k : String} {v v' : Json}
    (hdepth : depth v < n) (h : PlainUnder k.toList v v') :
    PartKept k (partOf dialect formats k v) (partOf dialect formats k v') := by
  by_cases hwidened : k = "type" ∨ k = "enum"
  · -- a member that may be widened holds no schemas
    have hpart : ∀ w, partOf dialect formats k w = ⟨w, pure .always, [], []⟩ := by
      intro w
      have hrole : roleOf dialect k = .plain := role_plain_of_widened hwidened
      unfold partOf
      rw [hrole]
      cases w <;> rfl
    rw [hpart, hpart]
    exact ⟨h, .refl _, .nil, .nil, Or.inr .nil⟩
  · obtain ⟨ht, he⟩ := not_or.mp hwidened
    obtain rfl := h.eq_normalize (fun h => ht (String.toList_inj.mp h))
      fun h => he (String.toList_inj.mp h)
    have hschema : KeepsSchema (partOf dialect formats k v).schema
        (partOf dialect formats k (normalize v)).schema := by
      unfold partOf
      dsimp only
      split
      · exact ih v _ _ hdepth h
      · exact .refl _
    cases v with
    | array vs =>
      rw [normalize] at hschema h ⊢
      refine ⟨h, hschema, ?_, .nil, Or.inr .nil⟩
      unfold partOf
      dsimp only
      split
      · exact listKept_readAll ih hdepth
      · exact .nil
    | object members =>
      rw [normalize] at hschema h ⊢
      refine ⟨h, hschema, .nil, ?_, ?_⟩ <;> unfold partOf <;> dsimp only <;> split
      · exact fieldsKept_readFields ih hdepth
      · exact .nil
      · exact flagged_or_plain_readFields ih hdepth
      · exact Or.inr .nil
    | _ => exact ⟨h, hschema, .nil, .nil, Or.inr .nil⟩

theorem partsKept_readParts {n : Nat} (ih : KeptBelow dialect formats n) {members : Assoc Json}
    (hdepth : depth (.object members) ≤ n) :
    PartsKept (readParts dialect formats members)
      (readParts dialect formats (widen (normalizeMembers members))) := by
  obtain ⟨f, hf, hplain⟩ := exists_plain_members members
  unfold PartsKept
  rw [hf, readParts_eq_map, readParts_eq_map, List.forall₂_map_left_iff,
    List.forall₂_map_right_iff, List.forall₂_map_right_iff]
  refine List.forall₂_same.mpr fun e he => ⟨(hplain e).1, ?_⟩
  rw [(hplain e).1]
  exact partKept_partOf ih (Nat.lt_of_lt_of_le (depth_lt_of_mem_members he) hdepth) (hplain e).2

/-- **A schema is kept when it is made plain**, by induction on its depth. -/
theorem keptBelow (dialect : Dialect) (formats : Bool) (n : Nat) : KeptBelow dialect formats n := by
  induction n with
  | zero => exact fun v _ _ hdepth _ => absurd hdepth (Nat.not_lt_zero _)
  | succ n ih =>
    intro v v' key hdepth h
    cases v with
    | bool b => cases h <;> exact .refl _
    | object members =>
      obtain rfl := h.eq_of_shaped (Or.inl ⟨members, rfl⟩)
      have hparts := partsKept_readParts ih (Nat.le_of_lt_succ hdepth)
      have hkeywords : KeepsSchema
          (.node <$> readKeywords dialect formats (readParts dialect formats members))
          (.node <$> readKeywords dialect formats
            (readParts dialect formats (widen (normalizeMembers members)))) :=
        (keeps_readKeywords hparts).map (fun _ hks => hks) fun _ _ _ hview => congrArg Schema.node hview
      rw [normalize]
      unfold read
      rw [get?_normalized (by decide) (by decide)]
      cases dialect with
      | draft2020 => exact hkeywords
      | draft4 =>
        cases Assoc.get? members "$ref" with
        | none => exact hkeywords
        | some target =>
          refine .of_sound fun hsound => ?_
          simp only [Option.map_some, normalize_of_readReference (sound_bind_iff.mp hsound).1]
    | _ => exact .of_not_sound (not_sound_expected _ _)

/-! ## References -/

/-- A step that leads on in a value leads on in the value made plain. -/
theorem PlainUnder.step? {key s : List Char} {v w v' : Json} (h : PlainUnder key v w)
    (hs : Schema.step? v s = some v') :
    ∃ w', Schema.step? w s = some w' ∧ PlainUnder (Pointer.unescape s) v' w' := by
  cases v with
  | object members =>
    obtain rfl := h.eq_of_shaped (Or.inl ⟨members, rfl⟩)
    have hplain := child?_normalize (.object members) (Pointer.unescape s)
    have hv : Pointer.child? (.object members) (Pointer.unescape s) = some v' := hs
    rw [hv] at hplain
    generalize hw : Pointer.child? (normalize (.object members)) (Pointer.unescape s) = b at hplain
    cases hplain with
    | some hplain => exact ⟨_, hw, hplain⟩
  | array items =>
    obtain ⟨n, hn, hitem⟩ := Option.bind_eq_some_iff.mp hs
    have hmore : ∀ more : List Json,
        Schema.step? (.array (items.map normalize ++ more)) s = some (normalize v') := by
      intro more
      have hlt : n < (items.map normalize).length := by
        rw [List.length_map]
        exact (List.getElem?_eq_some_iff.mp hitem).1
      simp only [Schema.step?, hn, Option.bind_some]
      rw [List.getElem?_append_left hlt, List.getElem?_map, hitem]
      rfl
    have hsame := hmore []
    rw [List.append_nil] at hsame
    refine ⟨normalize v', ?_, .plain⟩
    cases h <;> rw [normalize, normalizeItems_eq_map]
    · exact hsame
    · unfold widenKinds
      dsimp only
      split
      · exact hsame
      · exact hmore _
    · unfold widenValues
      dsimp only
      split
      · exact hsame
      · exact hmore _
  | _ => cases hs

theorem PlainUnder.follow? {key : List Char} {segments : List (List Char)} {v w v' : Json}
    (h : PlainUnder key v w) (hv : Schema.follow? v segments = some v') :
    ∃ key' w', Schema.follow? w segments = some w' ∧ PlainUnder key' v' w' := by
  induction segments generalizing key v w with
  | nil =>
    obtain rfl := Option.some.inj hv
    exact ⟨key, w, rfl, h⟩
  | cons s segments ih =>
    rw [follow?_cons] at hv
    obtain ⟨u, hu, hv⟩ := Option.bind_eq_some_iff.mp hv
    obtain ⟨u', hu', hplain⟩ := h.step? hu
    obtain ⟨key', w', hw', hplain'⟩ := ih hplain hv
    exact ⟨key', w', by rw [follow?_cons, hu', Option.bind_some, hw'], hplain'⟩

/-- A reference leads to the same part of a document that is made plain. -/
theorem exists_resolveReference_normalize {root v : Json} {t : String}
    (h : resolveReference root t = .ok v) :
    ∃ key w, resolveReference (normalize root) t = .ok w ∧ PlainUnder key v w := by
  unfold resolveReference at h ⊢
  split at h
  · obtain rfl := Except.ok.inj h
    exact ⟨[], _, rfl, .plain⟩
  · unfold resolveFragment at h ⊢
    split at h
    · obtain rfl := Except.ok.inj h
      exact ⟨[], _, rfl, .plain⟩
    · next cs _ =>
      dsimp only at h ⊢
      cases hdecoded : Utf8.decode? (Percent.decode (Utf8.encode cs)) with
      | none => simp [hdecoded] at h
      | some decoded =>
        simp only [hdecoded] at h ⊢
        have hfollow := congrArg Except.toOption h
        rw [toOption_foldlM] at hfollow
        have hroot : PlainUnder [] root (normalize root) := .plain
        obtain ⟨key, w, hw, hplain⟩ := hroot.follow? hfollow
        refine ⟨key, w, Except.toOption_eq_some_iff.mp ?_, hplain⟩
        rw [toOption_foldlM, hw]
    · cases h
  · cases h

/-! ## Compiling -/

/-- Whether making its document plain leaves the keywords of a compiled schema as they are, but for
null. -/
structure Compiled.Tame (c : Compiled) : Prop where
  schema : Schema.Tame c.schema
  defined : ∀ t s, c.definitions.get? t = some s → Schema.Tame s

/-- **Making a schema plain concerns null alone.** Where it leaves the literal values and the
dependencies of a compiled schema as they are, the plain schema compiles exactly if the metaschema
accepts it, and then both accept the same values without nulls. -/
theorem compile_normalize {root : Json} {c : Compiled}
    (h : compile dialect formats root = .ok c) (htame : c.Tame) :
    ((∃ c', compile dialect formats (normalize root) = .ok c') ↔
      (metaschema dialect).accepts (normalize root) = true) ∧
    ∀ c', compile dialect formats (normalize root) = .ok c' → ∀ v, v.isNullFree = true →
      c'.accepts v = c.accepts v := by
  obtain ⟨-, hlink⟩ := compile_eq_ok_iff.mp h
  have hl := linked_of_link hlink
  have hkeeps : ∀ v v' key, PlainUnder key v v' → Faultless dialect formats v →
      Schema.Tame (read dialect formats v).result →
        Counterpart dialect formats (fun s s' => forget s = forget s') v v' := by
    intro v v' key hplain hfaultless hgood
    obtain ⟨hevents, hforget⟩ :=
      keptBelow dialect formats _ v v' key (Nat.lt_succ_self _) hplain hfaultless hgood
    exact ⟨hevents, hforget.symm⟩
  have hroot := hkeeps root _ [] .plain hl.faultless (hl.schema ▸ htame.schema)
  obtain ⟨c', hlink', hschema, hdefined⟩ :=
    exists_link_counterpart hlink hroot fun t v hv hf hs => by
      obtain ⟨key, w, hw, hplain⟩ := exists_resolveReference_normalize hv
      exact ⟨w, hw, hkeeps v w key hplain hf (htame.defined t _ hs)⟩
  refine ⟨?_, fun c'' hc'' v hv => ?_⟩
  · simp only [compile_eq_ok_iff, hlink', Except.ok.injEq, exists_and_left, exists_eq', and_true]
  · obtain rfl := Except.ok.inj (hlink'.symm.trans (compile_eq_ok_iff.mp hc'').2)
    exact (Compiled.accepts_eq_of_forget hl (linked_of_link hlink') hschema hdefined hv).symm

/-- A nullable text of two, and what it is read as. -/
theorem compile_normalize_listed :
    let root := Json.object [("enum", .array [.string "a", .string "b"]), ("nullable", .bool true),
      ("type", .string "string")]
    ∃ c c', compile .draft4 true root = .ok c ∧ c.Tame ∧
      compile .draft4 true (normalize root) = .ok c' ∧
      c'.accepts (.string "a") = c.accepts (.string "a") ∧ c'.accepts .null ≠ c.accepts .null := by
  intro root
  let c : Compiled :=
    ⟨.draft4, .node [.oneOfValues [.string "a", .string "b"], .kind [.string]], []⟩
  have hc : compile .draft4 true root = .ok c := compile_eq_ok_iff.mpr ⟨by decide +kernel, rfl⟩
  have htame : c.Tame := by
    refine ⟨⟨⟨?_, trivial⟩, ⟨trivial, trivial⟩, trivial⟩, nofun⟩
    simp [Untouched, normalize]
  obtain ⟨hcompiles, hsame⟩ := compile_normalize hc htame
  obtain ⟨c', hc'⟩ := hcompiles.mpr (by decide +kernel)
  refine ⟨c, c', hc, htame, hc', hsame c' hc' _ rfl, ?_⟩
  obtain rfl := Except.ok.inj (hc'.symm.trans (compile_eq_ok_iff.mpr ⟨by decide +kernel, rfl⟩))
  decide +kernel

/-- A literal value that says `nullable: true` is rewritten as if it were a schema. -/
theorem compile_normalize_literal :
    let v := Json.object [("nullable", .bool true), ("type", .string "a")]
    let root := Json.object [("enum", .array [v])]
    ∃ c c', compile .draft4 true root = .ok c ∧ compile .draft4 true (normalize root) = .ok c' ∧
      v.isNullFree = true ∧ c.accepts v = true ∧ c'.accepts v = false := by
  intro v root
  exact ⟨_, _, compile_eq_ok_iff.mpr ⟨by decide +kernel, rfl⟩,
    compile_eq_ok_iff.mpr ⟨by decide +kernel, rfl⟩, rfl, by decide +kernel, by decide +kernel⟩

example : (metaschema .draft4).accepts
    (normalize (.object [("nullable", .bool true), ("type", .string "null")])) = false := by
  decide +kernel

end

end Schema

end ApiContract
