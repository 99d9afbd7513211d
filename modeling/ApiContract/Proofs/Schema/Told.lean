import ApiContract.Proofs.Schema.References
/-!
# What reading tells

Every reference in the schema that is read is told on the way, unless it was given before, and only
references that are allowed are told. This goes through every reader by the rules for pure results,
for one reading after another, and for several side by side.
-/

namespace ApiContract

namespace Schema

namespace Reading

variable {α β : Type}

/-- Whether a reading tells what its result refers to, save what is given, and nothing that is not
allowed. -/
structure Tells (x : Reading α) (told : α → List String) (given allowed : List String) : Prop where
  told : ∀ t ∈ told x.result, t ∈ given ∨ .reference t ∈ x.events
  allowed : ∀ t, .reference t ∈ x.events → t ∈ allowed

/-- A result that refers to nothing. -/
def nothing (_ : α) : List String := []

namespace Tells

variable {x : Reading α} {f : α → Reading β} {told : β → List String} {one : α → List String}
  {given allowed : List String}

theorem pure {a : α} (h : ∀ t ∈ one a, t ∈ given) :
    (Pure.pure a : Reading α).Tells one given allowed :=
  ⟨fun t ht => Or.inl (h t ht), fun _ ht => by simp [Pure.pure] at ht⟩

theorem bind (hx : x.Tells one given allowed)
    (hf : ∀ a, (f a).Tells told (one a ++ given) allowed) :
    (x >>= f).Tells told given allowed := by
  refine ⟨fun t ht => ?_, fun t ht => ?_⟩
  · rcases (hf x.result).told t ht with h | h
    · rcases List.mem_append.mp h with h | h
      · rcases hx.told t h with h | h
        · exact Or.inl h
        · exact Or.inr (List.mem_append_left _ h)
      · exact Or.inl h
    · exact Or.inr (List.mem_append_right _ h)
  · rcases List.mem_append.mp ht with h | h
    · exact hx.allowed t h
    · exact (hf x.result).allowed t h

theorem map {g : α → β} (hx : x.Tells one given allowed) (hg : ∀ a, ∀ t ∈ told (g a), t ∈ one a) :
    (g <$> x).Tells told given allowed :=
  hx.bind fun a => .pure fun t ht => List.mem_append_left _ (hg a t ht)

theorem mono {more : List String} (hx : x.Tells one given allowed) (h : ∀ t ∈ given, t ∈ more) :
    x.Tells one more allowed :=
  ⟨fun t ht => (hx.told t ht).imp_left (h t), hx.allowed⟩

/-- A pure result that refers to nothing. -/
theorem quiet {a : α} (h : one a = []) : (Pure.pure a : Reading α).Tells one given allowed :=
  .pure fun t ht => by simp [h] at ht

theorem map_quiet {g : α → β} (hx : x.Tells one given allowed) (h : ∀ a, told (g a) = []) :
    (g <$> x).Tells told given allowed :=
  hx.map fun a t ht => by simp [h a] at ht

/-- What is told without anything given is told. -/
theorem weaken (hx : x.Tells one [] allowed) : x.Tells one given allowed :=
  hx.mono fun _ ht => absurd ht List.not_mem_nil

theorem silent (hx : x.Tells one given allowed) : x.Tells nothing given allowed :=
  ⟨fun _ ht => absurd ht List.not_mem_nil, hx.allowed⟩

/-- A keyword that refers to what its argument refers to. -/
theorem keyword {g : α → Keyword} (hx : x.Tells one given allowed)
    (hg : ∀ a, targetsOfKeyword (g a) = one a) :
    (do return [g (← x)] : Reading (List Keyword)).Tells targetsOfAll given allowed :=
  hx.bind fun a => .pure fun t ht => by
    rw [targetsOfAll, targetsOfAll, hg, List.append_nil] at ht
    exact List.mem_append_left _ ht

theorem refuse [Inhabited α] {fault : Fault} (h : one default = []) :
    (Reading.refuse fault : Reading α).Tells one given allowed :=
  ⟨fun t ht => by rw [Reading.refuse, h] at ht; simp at ht,
    fun t ht => by simp [Reading.refuse] at ht⟩

theorem expected [Inhabited α] {kinds : List Kind} {part : Json} (h : one default = []) :
    (Reading.expected kinds part : Reading α).Tells one given allowed := refuse h

theorem sequence {xs : List (Reading α)} (h : ∀ x ∈ xs, x.Tells one given allowed) :
    (Reading.sequence xs).Tells (·.flatMap one) given allowed := by
  refine ⟨fun t ht => ?_, fun t ht => ?_⟩
  · obtain ⟨a, ha, ht⟩ := List.mem_flatMap.mp ht
    obtain ⟨x, hx, rfl⟩ := List.mem_map.mp ha
    exact ((h x hx).told t ht).imp_right fun he => List.mem_flatMap.mpr ⟨x, hx, he⟩
  · obtain ⟨x, hx, he⟩ := List.mem_flatMap.mp ht
    exact (h x hx).allowed t he

end Tells

end Reading

/-! ## Members -/

/-- Whether the schemas of a member are read honestly. -/
structure Part.Honest (part : Part) (allowed : List String) : Prop where
  schema : part.schema.Tells targets [] allowed
  list : ∀ x ∈ part.list, x.Tells targets [] allowed
  fields : ∀ f ∈ part.fields, f.2.2.Tells targets [] allowed

/-- Whether the members of a schema are, with what they refer to. -/
structure Parts.Honest (parts : Parts) (allowed : List String) : Prop where
  part : ∀ e ∈ parts, e.2.Honest allowed
  ref : ∀ e ∈ parts, e.1 = "$ref" → ∀ t, e.2.raw = .string t → t ∈ allowed

section

variable {part : Part} {parts : Parts} {given allowed : List String} {dialect : Dialect}
  {formats : Bool}

open Reading

/-! ## Arguments -/

theorem tells_readText (v : Json) : (readText v).Tells nothing given allowed := by
  unfold readText
  split
  · exact .quiet rfl
  · exact .expected rfl

theorem tells_readNames (v : Json) : (readNames v).Tells nothing given allowed := by
  unfold readNames
  split
  · next vs =>
    have htexts : ∀ x ∈ vs.map readText, x.Tells nothing given allowed := by
      intro x hx
      obtain ⟨v, -, rfl⟩ := List.mem_map.mp hx
      exact tells_readText v
    exact (Tells.sequence htexts).silent
  · exact .expected rfl

theorem tells_readNumber (v : Json) : (readNumber v).Tells nothing given allowed := by
  unfold readNumber
  split
  · exact .quiet rfl
  · exact .expected rfl

theorem tells_readCount (wide : Bool) (v : Json) :
    (readCount wide v).Tells nothing given allowed := by
  unfold readCount
  split
  · split
    · exact .quiet rfl
    · exact .refuse rfl
  · split
    · exact .quiet rfl
    · exact .expected rfl
  · exact .expected rfl

theorem tells_readBesideCount (word : String) :
    (readBesideCount parts word).Tells nothing given allowed := by
  unfold readBesideCount
  split
  · exact .quiet rfl
  · exact (tells_readCount _ _).map_quiet fun _ => rfl
  · exact (tells_readCount _ _).map_quiet fun _ => rfl

theorem tells_readKind (name : String) : (readKind name).Tells nothing given allowed := by
  unfold readKind
  split
  · exact .quiet rfl
  · exact .refuse rfl

theorem tells_readKindOfSeveral (v : Json) :
    (readKindOfSeveral v).Tells nothing given allowed := by
  unfold readKindOfSeveral
  split
  · split
    · exact .quiet rfl
    · exact .refuse rfl
  · exact .expected rfl

theorem tells_readKinds (v : Json) : (readKinds v).Tells nothing given allowed := by
  unfold readKinds
  split
  · exact tells_readKind _
  · exact tells_readKind _
  · exact .expected rfl
  · next vs _ _ =>
    have hkinds : (Reading.sequence (vs.map readKindOfSeveral)).Tells (·.flatMap nothing) given
        allowed := by
      refine .sequence fun x hx => ?_
      obtain ⟨v, -, rfl⟩ := List.mem_map.mp hx
      exact tells_readKindOfSeveral v
    exact hkinds.map_quiet fun _ => rfl
  · exact .expected rfl

/-! ## Members with schemas -/

theorem tells_readBranches (h : part.Honest allowed) :
    (readBranches part).Tells targetsOfBranches given allowed := by
  unfold readBranches
  split
  · rw [funext targetsOfBranches_eq]
    exact .sequence fun x hx => (h.list x hx).weaken
  · exact .expected rfl

theorem tells_readDeclared (h : part.Honest allowed) :
    (readDeclared part).Tells targetsOfFields given allowed := by
  unfold readDeclared
  split
  · rw [funext targetsOfFields_eq]
    refine .sequence fun x hx => ?_
    obtain ⟨f, hf, rfl⟩ := List.mem_map.mp hx
    exact ((h.fields f hf).weaken).map fun _ _ ht => ht
  · exact .expected rfl

theorem tells_readMatching {field : String × Json × Reading Schema}
    (h : field.2.2.Tells targets [] allowed) :
    (readMatching field).Tells (targets ·.2) given allowed := by
  unfold readMatching
  split
  · exact (h.weaken).map fun _ _ ht => ht
  · exact ⟨fun _ ht => absurd ht List.not_mem_nil, fun t ht => by simp at ht⟩

theorem tells_readPatterns (owner : Json) (h : part.Honest allowed) :
    (readPatterns owner part).Tells targetsOfPatterns given allowed := by
  unfold readPatterns
  split
  · rw [funext targetsOfPatterns_eq]
    refine .sequence fun x hx => ?_
    obtain ⟨f, hf, rfl⟩ := List.mem_map.mp hx
    exact tells_readMatching (h.fields f hf)
  · exact .expected rfl

/-! ## Keywords -/

theorem Parts.Honest.get? (h : parts.Honest allowed) {word : String}
    (hp : Assoc.get? parts word = some part) : part.Honest allowed :=
  h.part _ (Assoc.mem_of_get? hp)

theorem tells_readPatternsBeside (owner : Json) (h : parts.Honest allowed) :
    (readPatternsBeside parts owner).Tells (fun o => targetsOfPatterns (o.getD [])) given
      allowed := by
  unfold readPatternsBeside
  split
  · next patterns hpatterns =>
    exact (tells_readPatterns owner (h.get? hpatterns)).map fun _ _ ht => ht
  · exact .quiet rfl

theorem tells_readDeclaredBeside (h : parts.Honest allowed) :
    (readDeclaredBeside parts).Tells targetsOfFields given allowed := by
  unfold readDeclaredBeside
  split
  · next properties hproperties => exact tells_readDeclared (h.get? hproperties)
  · exact .quiet rfl

theorem tells_readAdditional (h : parts.Honest allowed) (hp : part.Honest allowed) :
    (readAdditional parts part).Tells targetsOfAll given allowed := by
  unfold readAdditional
  refine (tells_readPatternsBeside part.raw h).bind fun matching => ?_
  split
  · exact .quiet rfl
  · split
    · next properties hproperties =>
      refine (tells_readDeclared (h.get? hproperties)).bind fun declared => .pure fun t ht => ?_
      simp only [targetsOfAll, targetsOfKeyword, List.append_nil, List.mem_append] at ht ⊢
      exact ht.imp_right Or.inl
    · split
      · exact .pure fun t ht => by
          simp only [targetsOfAll, targetsOfKeyword, targetsOfFields, List.append_nil,
            List.nil_append, List.mem_append] at ht ⊢
          exact Or.inl ht
      · exact .quiet rfl
  · refine (tells_readDeclaredBeside h).bind fun declared => ?_
    refine (hp.schema.weaken).bind fun others => .pure fun t ht => ?_
    simp only [targetsOfAll, targetsOfKeyword, List.append_nil, List.mem_append] at ht ⊢
    rcases ht with (ht | ht) | ht
    · exact Or.inr (Or.inl ht)
    · exact Or.inr (Or.inr (Or.inl ht))
    · exact Or.inl ht

theorem tells_readItems (hp : part.Honest allowed) :
    (readItems dialect parts part).Tells targetsOfAll given allowed := by
  have hlist : (Reading.sequence part.list).Tells targetsOfBranches given allowed := by
    rw [funext targetsOfBranches_eq]
    exact .sequence fun x hx => (hp.list x hx).weaken
  unfold readItems
  split
  · exact hlist.keyword fun _ => rfl
  · exact (hp.schema.weaken).keyword fun _ => rfl
  · exact (hp.schema.weaken).keyword fun _ => rfl
  · exact .expected rfl

theorem tells_readAdditionalItems (hp : part.Honest allowed) :
    (readAdditionalItems parts part).Tells targetsOfAll given allowed := by
  unfold readAdditionalItems
  split
  · exact (hp.schema.weaken).keyword fun _ => rfl
  · exact .quiet rfl
  · exact .quiet rfl

theorem tells_schemaBeside (h : parts.Honest allowed) (word : String) :
    (((Assoc.get? parts word).map Part.schema).getD (pure .always)).Tells targets given
      allowed := by
  cases hp : Assoc.get? parts word with
  | none => exact .quiet rfl
  | some part => exact (h.get? hp).schema.weaken

theorem tells_readConditional (h : parts.Honest allowed) (hp : part.Honest allowed) :
    (readConditional parts part).Tells targetsOfAll given allowed := by
  unfold readConditional
  split
  · exact .quiet rfl
  · refine (hp.schema.weaken).bind fun condition => ?_
    refine (tells_schemaBeside h "then").bind fun consequence => ?_
    refine (tells_schemaBeside h "else").bind fun alternative => .pure fun t ht => ?_
    simp only [targetsOfAll, targetsOfKeyword, List.append_nil, List.mem_append] at ht ⊢
    rcases ht with (ht | ht) | ht
    · exact Or.inr (Or.inr (Or.inl ht))
    · exact Or.inr (Or.inl ht)
    · exact Or.inl ht

theorem tells_readDependency {field : String × Json × Reading Schema}
    (h : field.2.2.Tells targets [] allowed) :
    (readDependency field).Tells targetsOfKeyword given allowed := by
  unfold readDependency
  split
  · exact (tells_readNames _).map_quiet fun _ => rfl
  · exact (h.weaken).map fun _ _ ht => ht

theorem tells_readRequirement (member : String × Json) :
    (readRequirement member).Tells targetsOfKeyword given allowed := by
  unfold readRequirement
  split
  · split
    · exact (tells_readNames _).map_quiet fun _ => rfl
    · exact .refuse rfl
  · exact .expected rfl

theorem tells_readBound (bound : Bound) :
    (readBound bound part).Tells targetsOfAll given allowed :=
  (tells_readNumber _).keyword fun _ => rfl

theorem tells_readInclusive (inclusive exclusive : Bound) :
    (readInclusive dialect inclusive exclusive parts part).Tells targetsOfAll given allowed := by
  unfold readInclusive
  split <;> exact tells_readBound _

theorem tells_readSize (measure : Measure) (upper : Bool) :
    (readSize dialect measure upper part).Tells targetsOfAll given allowed :=
  (tells_readCount _ _).keyword fun _ => rfl

theorem tells_readPattern : (readPattern part).Tells targetsOfAll given allowed := by
  unfold readPattern
  refine (tells_readText _).bind fun text => ?_
  split
  · exact .refuse rfl
  · exact .quiet rfl

/-- Keywords of several entries, each with its own. -/
theorem tells_sequence_keywords {α : Type} {entries : List α} {f : α → Reading Keyword}
    (h : ∀ e ∈ entries, (f e).Tells targetsOfKeyword given allowed) :
    (Reading.sequence (entries.map f)).Tells targetsOfAll given allowed := by
  rw [funext targetsOfAll_eq]
  refine .sequence fun x hx => ?_
  obtain ⟨e, he, rfl⟩ := List.mem_map.mp hx
  exact h e he

theorem tells_readShared (h : parts.Honest allowed) (hp : part.Honest allowed) (word : String) :
    (readShared dialect formats parts part word).Tells targetsOfAll given allowed := by
  unfold readShared
  split
  · exact tells_readAdditional h hp
  · exact (tells_readBranches hp).keyword fun _ => rfl
  · exact (tells_readBranches hp).keyword fun _ => rfl
  · split
    · exact tells_sequence_keywords fun f hf => tells_readDependency (hp.fields f hf)
    · exact .expected rfl
  · split
    · exact .quiet rfl
    · exact .expected rfl
  · split
    · refine (tells_readText _).bind fun name => .pure fun t ht => ?_
      split at ht <;> simp [targetsOfAll, targetsOfKeyword] at ht
    · exact .quiet rfl
  · exact tells_readItems hp
  · exact tells_readSize _ _
  · exact tells_readSize _ _
  · exact tells_readSize _ _
  · exact tells_readInclusive _ _
  · exact tells_readSize _ _
  · exact tells_readSize _ _
  · exact tells_readSize _ _
  · exact tells_readInclusive _ _
  · exact (tells_readNumber _).keyword fun _ => rfl
  · exact (hp.schema.weaken).keyword fun _ => rfl
  · exact (tells_readBranches hp).keyword fun _ => rfl
  · exact tells_readPattern
  · split
    · exact .quiet rfl
    · exact (tells_readPatterns _ hp).keyword fun _ => rfl
  · split
    · exact .quiet rfl
    · exact (tells_readDeclared hp).keyword fun _ => rfl
  · exact (tells_readNames _).keyword fun _ => rfl
  · exact (tells_readKinds _).keyword fun _ => rfl
  · split
    · refine .pure fun t ht => ?_
      split at ht <;> simp [targetsOfAll, targetsOfKeyword] at ht
    · exact .expected rfl
  · exact .quiet rfl

theorem tells_readReference {v : Json} (h : ∀ t, v = .string t → t ∈ allowed) :
    (readReference v).Tells targetsOfAll given allowed := by
  unfold readReference
  split
  · next target =>
    refine ⟨fun t ht => ?_, fun t ht => ?_⟩
    · simp only [targetsOfAll, targetsOfKeyword, List.append_nil, List.mem_singleton] at ht
      exact Or.inr (by simp [ht])
    · simp only [List.mem_singleton, Event.reference.injEq] at ht
      exact h t (by rw [ht])
  · exact .expected rfl

theorem tells_readRecent (h : parts.Honest allowed) (hp : part.Honest allowed) {word : String}
    (href : word = "$ref" → ∀ t, part.raw = .string t → t ∈ allowed) :
    (readRecent parts part word).Tells targetsOfAll given allowed := by
  unfold readRecent
  split
  · exact tells_readReference (href rfl)
  · exact .quiet rfl
  · refine (tells_readBesideCount "minContains").bind fun least => ?_
    refine (tells_readBesideCount "maxContains").bind fun most => ?_
    exact ((hp.schema.weaken).keyword fun _ => rfl)
  · split
    · exact tells_sequence_keywords fun e _ => tells_readRequirement e
    · exact .expected rfl
  · refine (tells_readDeclared hp).bind fun declared => .pure fun t ht => ?_
    rw [targetsOfAll_eq, List.flatMap_map] at ht
    rw [targetsOfFields_eq]
    exact List.mem_append_left _ ht
  · exact tells_readBound _
  · exact tells_readBound _
  · exact tells_readConditional h hp
  · exact (tells_readBranches hp).keyword fun _ => rfl
  · split
    · exact (hp.schema.weaken).keyword fun _ => rfl
    · exact .quiet rfl
    · exact .quiet rfl
  · exact (hp.schema.weaken).keyword fun _ => rfl
  · exact (hp.schema.weaken).keyword fun _ => rfl
  · exact .quiet rfl

theorem tells_readMember (h : parts.Honest allowed) {member : String × Part} (hm : member ∈ parts) :
    (readMember dialect formats parts member).Tells targetsOfAll given allowed := by
  have hp := h.part member hm
  have hown : ∀ {given}, (readOwn dialect parts member).Tells targetsOfAll given allowed := by
    intro given
    unfold readOwn
    split
    · split
      · exact tells_readAdditionalItems hp
      · exact .quiet rfl
    · exact tells_readRecent h hp (h.ref member hm)
  unfold readMember
  refine (tells_readShared h hp member.1).bind fun shared => ?_
  refine hown.bind fun own => .pure fun t ht => ?_
  rw [targetsOfAll_eq, List.flatMap_append] at ht
  rw [targetsOfAll_eq, targetsOfAll_eq]
  rcases List.mem_append.mp ht with ht | ht
  · exact List.mem_append_right _ (List.mem_append_left _ ht)
  · exact List.mem_append_left _ ht

theorem tells_readKeywords (h : parts.Honest allowed) :
    (readKeywords dialect formats parts).Tells targetsOfAll given allowed := by
  have hmembers : (Reading.sequence (parts.map (readMember dialect formats parts))).Tells
      (·.flatMap targetsOfAll) given allowed := by
    refine .sequence fun x hx => ?_
    obtain ⟨member, hm, rfl⟩ := List.mem_map.mp hx
    exact tells_readMember h hm
  refine hmembers.map fun kss t ht => ?_
  simp only [targetsOfAll_eq, List.mem_flatMap, List.mem_flatten] at ht ⊢
  obtain ⟨k, ⟨ks, hks, hk⟩, ht⟩ := ht
  exact ⟨ks, hks, k, hk, ht⟩

end

/-! ## Schemas -/

mutual

/-- **Reading a schema tells its references**, and none but those of the text. -/
theorem tells_read (dialect : Dialect) (formats : Bool) {allowed : List String} : (v : Json) →
    (∀ t ∈ refs v, t ∈ allowed) → (read dialect formats v).Tells targets [] allowed
  | .bool true, _ => by
    unfold read
    exact .quiet rfl
  | .bool false, _ => by
    unfold read
    exact .quiet rfl
  | .object members, h => by
    unfold read
    split
    · next target hr =>
      refine (tells_readReference fun t ht => ?_).map fun _ _ ht => ht
      subst ht
      exact h t (mem_refs_of_ref (Assoc.mem_of_get? hr))
    · exact (tells_readKeywords (honest_readParts _ formats members h)).map fun _ _ ht => ht
  | .null, _ => by
    unfold read
    exact .expected rfl
  | .number _, _ => by
    unfold read
    exact .expected rfl
  | .string _, _ => by
    unfold read
    exact .expected rfl
  | .array _, _ => by
    unfold read
    exact .expected rfl

theorem honest_readParts (dialect : Dialect) (formats : Bool) {allowed : List String} :
    (members : List (String × Json)) → (∀ t ∈ refsOfMembers members, t ∈ allowed) →
      (readParts dialect formats members).Honest allowed
  | [], _ => ⟨List.forall_mem_nil _, List.forall_mem_nil _⟩
  | (k, v) :: rest, h => by
    have hv : ∀ t ∈ refs v, t ∈ allowed := fun t ht =>
      h t (List.mem_append_left _ (List.mem_append_right _ ht))
    have hrest := honest_readParts dialect formats rest fun t ht => h t (List.mem_append_right _ ht)
    unfold readParts
    refine ⟨fun e he => ?_, fun e he hk t ht => ?_⟩
    · rcases List.mem_cons.mp he with rfl | he
      · refine ⟨?_, ?_, ?_⟩
        · simp only
          split
          · exact tells_read dialect formats v hv
          · exact .quiet rfl
        · simp only
          split
          · next vs =>
            split
            · exact tells_readAll dialect formats vs hv
            · exact List.forall_mem_nil _
          · exact List.forall_mem_nil _
        · simp only
          split
          · next ms =>
            split
            · exact tells_readFields dialect formats ms hv
            · exact List.forall_mem_nil _
          · exact List.forall_mem_nil _
      · exact hrest.part e he
    · rcases List.mem_cons.mp he with rfl | he
      · simp only at hk ht
        subst hk ht
        exact h t (mem_refs_of_ref List.mem_cons_self)
      · exact hrest.ref e he hk t ht

theorem tells_readAll (dialect : Dialect) (formats : Bool) {allowed : List String} :
    (vs : List Json) → (∀ t ∈ refsOfItems vs, t ∈ allowed) →
      ∀ x ∈ readAll dialect formats vs, x.Tells targets [] allowed
  | [], _ => List.forall_mem_nil _
  | v :: vs, h => by
    intro x hx
    rcases List.mem_cons.mp hx with rfl | hx
    · exact tells_read dialect formats v fun t ht => h t (List.mem_append_left _ ht)
    · exact tells_readAll dialect formats vs (fun t ht => h t (List.mem_append_right _ ht)) x hx

theorem tells_readFields (dialect : Dialect) (formats : Bool) {allowed : List String} :
    (members : List (String × Json)) → (∀ t ∈ refsOfMembers members, t ∈ allowed) →
      ∀ f ∈ readFields dialect formats members, f.2.2.Tells targets [] allowed
  | [], _ => List.forall_mem_nil _
  | (k, v) :: rest, h => by
    intro f hf
    rcases List.mem_cons.mp hf with rfl | hf
    · exact tells_read dialect formats v fun t ht =>
        h t (List.mem_append_left _ (List.mem_append_right _ ht))
    · exact tells_readFields dialect formats rest
        (fun t ht => h t (List.mem_append_right _ ht)) f hf

end

/-! ## What reading a text tells -/

/-- The references that reading a text tells. -/
theorem reference_mem_events {dialect : Dialect} {formats : Bool} {v : Json} {t : String}
    (h : t ∈ targets (read dialect formats v).result) :
    .reference t ∈ (read dialect formats v).events :=
  ((tells_read dialect formats v fun _ ht => ht).told t h).resolve_left (by simp)

theorem mem_refs_of_reference {dialect : Dialect} {formats : Bool} {v : Json} {t : String}
    (h : .reference t ∈ (read dialect formats v).events) : t ∈ refs v :=
  (tells_read dialect formats v fun _ ht => ht).allowed t h

end Schema

end ApiContract
