import ApiContract.Proofs.Request.Declared
import ApiContract.Proofs.Schema.Plain
import ApiContract.Proofs.Schema.Within
/-!
# The keywords of a schema

A keyword of a member is a keyword of the schema: what the schema accepts is accepted by the keyword,
and what the keyword refers to is referred to by the schema. Nullable schemas are made plain before
they are read, and this leaves all members in place but the kinds and the listed values; no kind is
added to these but null.
-/

namespace ApiContract

namespace Schema

open Verdict

section

variable {dialect : Dialect} {formats : Bool}

/-! ## Keywords of a member -/

/-- Whether a keyword is one of those of a schema. -/
def HasKeyword (s : Schema) (k : Keyword) : Prop := ∃ ks, s = .node ks ∧ k ∈ ks

theorem HasKeyword.accepted {s : Schema} {k : Keyword} (h : HasKeyword s k) {m : Meaning}
    {p : Place} {v : Json} (ha : (judge m p v s).accepted = true) :
    ∃ covered, (judgeKeyword m p v covered k).accepted = true := by
  obtain ⟨ks, rfl, hk⟩ := h
  exact accepted_judgeAll ha k hk

theorem HasKeyword.targets {s : Schema} {k : Keyword} (h : HasKeyword s k) {t : String}
    (ht : t ∈ targetsOfKeyword k) : t ∈ targets s := by
  obtain ⟨ks, rfl, hk⟩ := h
  exact mem_targets_of_node hk ht

/-- The keywords of a member are keywords of the schema. -/
theorem hasKeyword_of_member {members : Assoc Json}
    (hself : dialect = .draft4 → members.get? "$ref" = none) {word : String} {raw : Json}
    (hmember : members.get? word = some raw) {k : Keyword}
    (hk : k ∈ (readMember dialect formats (readParts dialect formats members)
      (word, partOf dialect formats word raw)).result) :
    HasKeyword (read dialect formats (.object members)).result k := by
  refine ⟨(readKeywords dialect formats (readParts dialect formats members)).result, ?_, ?_⟩
  · rw [read_of_members hself]
    rfl
  · rw [readKeywords_eq, readParts_eq_map]
    rw [readParts_eq_map] at hk
    exact List.mem_flatMap.mpr ⟨_, List.mem_map.mpr ⟨_, Assoc.mem_of_get? hmember, rfl⟩, hk⟩

theorem hasKeyword_type {members : Assoc Json}
    (hself : dialect = .draft4 → members.get? "$ref" = none) {kinds : Json}
    (hmember : members.get? "type" = some kinds) :
    HasKeyword (read dialect formats (.object members)).result (.kind (readKinds kinds).result) := by
  refine hasKeyword_of_member hself hmember ?_
  have hshared : readShared dialect formats (readParts dialect formats members)
      (partOf dialect formats "type" kinds) "type" =
      (readKinds kinds >>= fun kinds => pure [.kind kinds] : Reading (List Keyword)) := rfl
  show _ ∈ (readShared dialect formats _ (partOf dialect formats "type" kinds) "type").result ++ _
  rw [hshared]
  exact List.mem_append_left _ (List.mem_singleton.mpr rfl)

/-- The schema of the items applies to all of them, unless there is a tuple. -/
theorem hasKeyword_items {members : Assoc Json}
    (hself : dialect = .draft4 → members.get? "$ref" = none) {each : Json}
    (hmember : members.get? "items" = some each) (hshape : Shaped each)
    (htuple : dialect = .draft2020 → members.get? "prefixItems" = none) :
    HasKeyword (read dialect formats (.object members)).result
      (.items 0 (read dialect formats each).result) := by
  refine hasKeyword_of_member hself hmember ?_
  have hitems : (readItems dialect (readParts dialect formats members)
      (partOf dialect formats "items" each)).result = [.items 0 (read dialect formats each).result] := by
    cases dialect with
    | draft4 => rcases hshape with ⟨own, rfl⟩ | ⟨b, rfl⟩ <;> rfl
    | draft2020 =>
      have hnone : Parts.raw? (readParts .draft2020 formats members) "prefixItems" = none := by
        rw [Parts.raw?, readParts_eq_map, Assoc.get?_mapValues, htuple rfl]
        rfl
      rcases hshape with ⟨own, rfl⟩ | ⟨b, rfl⟩ <;> simp only [readItems, partOf, hnone] <;> rfl
  show _ ∈ (readItems dialect _ (partOf dialect formats "items" each)).result ++ _
  rw [hitems]
  exact List.mem_append_left _ (List.mem_singleton.mpr rfl)

theorem hasKeyword_reference {members : Assoc Json} {target : String}
    (hmember : members.get? "$ref" = some (.string target)) :
    HasKeyword (read dialect formats (.object members)).result (.reference target) := by
  cases dialect with
  | draft4 =>
    refine ⟨[.reference target], ?_, List.mem_cons_self⟩
    unfold read
    rw [hmember]
    rfl
  | draft2020 =>
    have hself : Dialect.draft2020 = .draft4 → members.get? "$ref" = none := by
      intro hdialect
      cases hdialect
    exact hasKeyword_of_member hself hmember (List.mem_singleton.mpr rfl)

/-! ## Items -/

theorem exists_mem_itemsOf {items : List Json} {v : Json} (h : v ∈ items) :
    ∃ i, (v, i) ∈ itemsOf (.array items) := by
  obtain ⟨i, hi, rfl⟩ := List.mem_iff_getElem.mp h
  exact ⟨i, List.mem_zipIdx_iff_getElem?.mpr (List.getElem?_eq_getElem hi)⟩

theorem depth_lt_of_mem_array {items : List Json} {v : Json} (h : v ∈ items) :
    depth v < depth (.array items) := by
  obtain ⟨i, hi⟩ := exists_mem_itemsOf h
  exact depth_lt_of_mem_items hi

/-- Each item of an array is judged by the schema of the items. -/
theorem accepted_of_mem_items {m : Meaning} {p : Place} {items : List Json} {covered : Coverage}
    {each : Schema} (h : (judgeKeyword m p (.array items) covered (.items 0 each)).accepted = true)
    {v : Json} (hv : v ∈ items) : ∃ p', (judge m.inside p' v each).accepted = true := by
  obtain ⟨i, hi⟩ := exists_mem_itemsOf hv
  rw [judgeKeyword, accepted_join, List.forall_mem_map] at h
  have haccepted := h _ hi
  rw [accepted_append, Bool.and_eq_true] at haccepted
  exact ⟨_, haccepted.1⟩

/-! ## Nullable schemas made plain -/

theorem get?_widen {members : Assoc Json} {key : String} (ht : key ≠ "type") (he : key ≠ "enum") :
    (widen members).get? key = members.get? key := by
  unfold widen
  split
  · rw [Assoc.get?_modify, if_neg (Ne.symm he), Assoc.get?_modify, if_neg (Ne.symm ht)]
  · rfl

theorem get?_normalizeMembers (members : Assoc Json) (key : String) :
    Assoc.get? (normalizeMembers members) key = (members.get? key).map normalize := by
  rw [normalizeMembers_eq_map]
  exact Assoc.get?_mapValues members (fun _ => normalize) key

/-- What stands in an object that is made plain, besides its kinds and values. -/
theorem get?_normalized {members : Assoc Json} {key : String} (ht : key ≠ "type")
    (he : key ≠ "enum") :
    (widen (normalizeMembers members)).get? key = (members.get? key).map normalize := by
  rw [get?_widen ht he, get?_normalizeMembers]

theorem get?_normalized_type (members : Assoc Json) :
    (widen (normalizeMembers members)).get? "type" = (members.get? "type").map normalize ∨
      (widen (normalizeMembers members)).get? "type" =
        (members.get? "type").map (widenKinds ∘ normalize) := by
  unfold widen
  split
  · refine Or.inr ?_
    rw [Assoc.get?_modify, if_neg (by decide), Assoc.get?_modify, if_pos rfl,
      get?_normalizeMembers, Option.map_map]
  · exact Or.inl (get?_normalizeMembers members "type")

theorem eq_string_of_normalize {v : Json} {s : String} (h : normalize v = .string s) :
    v = .string s := by
  cases v <;> simp_all [normalize]

theorem normalizeItems_eq_map (items : List Json) : normalizeItems items = items.map normalize := by
  induction items with
  | nil => rfl
  | cons v vs ih => rw [normalizeItems, ih, List.map_cons]

theorem shaped_normalize {v : Json} (h : Shaped v) : Shaped (normalize v) := by
  rcases h with ⟨members, rfl⟩ | ⟨b, rfl⟩
  · exact Or.inl ⟨_, by rw [normalize]⟩
  · exact Or.inr ⟨b, rfl⟩

/-! ## Texts -/

/-- Whether an argument of `type` names texts. -/
def NamesTexts (kinds : Json) : Prop :=
  kinds = .string "string" ∨ ∃ names, kinds = .array names ∧ Json.string "string" ∈ names

theorem eq_string_of_ofName? {name : String} (h : Kind.ofName? name = some .string) :
    name = "string" := by
  have hfound := List.find?_some h
  exact (beq_iff_eq.mp hfound).symm

theorem namesTexts_of_readKinds {kinds : Json} (h : Kind.string ∈ (readKinds kinds).result) :
    NamesTexts kinds := by
  have hname : ∀ name, Kind.string ∈ (readKind name).result → name = "string" := by
    intro name hmem
    unfold readKind at hmem
    split at hmem
    · next kind hkind =>
      obtain rfl : Kind.string = kind := List.mem_singleton.mp hmem
      exact eq_string_of_ofName? hkind
    · exact absurd hmem List.not_mem_nil
  have hseveral : ∀ v, Kind.string ∈ (readKindOfSeveral v).result → v = .string "string" := by
    intro v hmem
    unfold readKindOfSeveral at hmem
    split at hmem
    · split at hmem
      · next kind hkind =>
        obtain rfl : Kind.string = kind := List.mem_singleton.mp hmem
        rw [eq_string_of_ofName? hkind]
      · exact absurd hmem List.not_mem_nil
    · exact absurd hmem List.not_mem_nil
  unfold readKinds at h
  split at h
  · next name => exact Or.inl (congrArg _ (hname name h))
  · next name => exact Or.inr ⟨_, rfl, by rw [hname name h]; exact List.mem_cons_self⟩
  · exact absurd h List.not_mem_nil
  · next vs _ _ =>
    obtain ⟨ks, hks, hmem⟩ := List.mem_flatten.mp h
    obtain ⟨_, hreading, rfl⟩ := List.mem_map.mp hks
    obtain ⟨v, hv, rfl⟩ := List.mem_map.mp hreading
    exact Or.inr ⟨vs, rfl, hseveral v hmem ▸ hv⟩
  · exact absurd h List.not_mem_nil

/-- Making a schema plain does not name texts where it did not. -/
theorem namesTexts_of_normalize {kinds : Json} (h : NamesTexts (normalize kinds)) :
    NamesTexts kinds := by
  rcases h with h | ⟨names, h, hmem⟩
  · exact Or.inl (eq_string_of_normalize h)
  · cases kinds with
    | array items =>
      rw [normalize, Json.array.injEq] at h
      rw [← h, normalizeItems_eq_map] at hmem
      obtain ⟨v, hv, hs⟩ := List.mem_map.mp hmem
      exact Or.inr ⟨items, rfl, eq_string_of_normalize hs ▸ hv⟩
    | _ => simp [normalize] at h

theorem namesTexts_of_widenKinds {kinds : Json} (h : NamesTexts (widenKinds kinds)) :
    NamesTexts kinds := by
  cases kinds with
  | string name =>
    rcases h with h | ⟨names, h, hmem⟩
    · cases h
    · obtain rfl := Json.array.inj h
      rcases List.mem_cons.mp hmem with hs | hs
      · exact Or.inl hs.symm
      · simp at hs
  | array names =>
    simp only [widenKinds] at h
    split at h
    · exact h
    · rcases h with h | ⟨names', h, hmem⟩
      · cases h
      · obtain rfl := Json.array.inj h
        rcases List.mem_append.mp hmem with hs | hs
        · exact Or.inr ⟨names, rfl, hs⟩
        · simp at hs
  | _ => exact h

end

end Schema

/-! ## Keywords of a schema as it is written -/

namespace Compiler

open Schema

variable {x : Compiler}

/-- Making a schema plain leaves its reference. -/
theorem exists_normalize_reference {schema : Json} {t : String}
    (h : Contract.referenceOf? schema = some t) : ∃ members : Assoc Json,
      Schema.normalize schema = .object members ∧ members.get? "$ref" = some (.string t) := by
  have hmember := Json.bind_asString?_eq_some.mp h
  cases schema with
  | object members =>
    refine ⟨_, by rw [Schema.normalize], ?_⟩
    rw [get?_normalized (by decide) (by decide)]
    exact congrArg (Option.map Schema.normalize) hmember
  | _ => cases hmember

theorem hasKeyword_referenceOf {schema : Json} {t : String}
    (h : Contract.referenceOf? schema = some t) : HasKeyword (x.reading schema) (.reference t) := by
  obtain ⟨members, hmembers, hmember⟩ := exists_normalize_reference h
  rw [reading, hmembers]
  exact hasKeyword_reference hmember

/-- In the older dialect a reference stands for the whole object. -/
theorem reading_referenceOf {schema : Json} {t : String} (hdialect : x.dialect = .draft4)
    (h : Contract.referenceOf? schema = some t) : x.reading schema = .node [.reference t] := by
  obtain ⟨members, hmembers, hmember⟩ := exists_normalize_reference h
  have hread : Schema.read .draft4 x.formats (.object members) =
      ⟨.node [.reference t], [.reference t]⟩ := by
    unfold Schema.read
    rw [hmember]
    rfl
  rw [reading, hmembers, hdialect, hread]

/-- A schema with kinds is read to ask for some, and for texts only if it declares them. -/
theorem exists_hasKeyword_type {schema : Json}
    (hself : x.dialect = .draft4 → schema.member? "$ref" = none)
    (h : (schema.member? "type").isSome = true) :
    ∃ kinds, HasKeyword (x.reading schema) (.kind kinds) ∧
      (Kind.string ∈ kinds → Synthesis.declaresKind schema "string" = true) := by
  cases schema with
  | object members =>
    obtain ⟨written, hwritten⟩ := Option.isSome_iff_exists.mp h
    have hget : Assoc.get? members "type" = some written := hwritten
    have hself' : x.dialect = .draft4 →
        (widen (normalizeMembers members)).get? "$ref" = none := by
      intro hdialect
      rw [get?_normalized (by decide) (by decide)]
      exact congrArg (Option.map Schema.normalize) (hself hdialect)
    have hdeclares : NamesTexts written →
        Synthesis.declaresKind (.object members) "string" = true := by
      unfold Synthesis.declaresKind
      rw [hwritten]
      rintro (rfl | ⟨names, rfl, hmem⟩)
      · rfl
      · exact List.contains_iff_mem.mpr hmem
    rcases get?_normalized_type members with htype | htype
    · rw [hget, Option.map_some] at htype
      exact ⟨_, hasKeyword_type hself' htype, fun hs =>
        hdeclares (namesTexts_of_normalize (namesTexts_of_readKinds hs))⟩
    · rw [hget, Option.map_some] at htype
      exact ⟨_, hasKeyword_type hself' htype, fun hs => hdeclares
        (namesTexts_of_normalize (namesTexts_of_widenKinds (namesTexts_of_readKinds hs)))⟩
  | _ => simp [Json.member?, Json.asObject?] at h

theorem hasKeyword_items {schema each : Json}
    (hself : x.dialect = .draft4 → schema.member? "$ref" = none)
    (htuple : x.dialect = .draft2020 → schema.member? "prefixItems" = none)
    (h : schema.member? "items" = some each) (hshape : Shaped each) :
    HasKeyword (x.reading schema) (.items 0 (x.reading each)) := by
  cases schema with
  | object members =>
    have hnone : ∀ {word}, word ≠ "type" → word ≠ "enum" →
        Json.member? (.object members) word = none →
          (widen (normalizeMembers members)).get? word = none := by
      intro word ht he hw
      rw [get?_normalized ht he]
      exact congrArg (Option.map Schema.normalize) hw
    rw [reading, Schema.normalize]
    refine Schema.hasKeyword_items (fun hd => hnone (by decide) (by decide) (hself hd)) ?_
      (shaped_normalize hshape) (fun hd => hnone (by decide) (by decide) (htuple hd))
    rw [get?_normalized (by decide) (by decide)]
    exact congrArg (Option.map Schema.normalize) h
  | _ => simp [Json.member?, Json.asObject?] at h

end Compiler

end ApiContract
