import ApiContract.Proofs.Contract.Ordered
import ApiContract.Proofs.Yaml.Keys
/-!
# What conversion keeps of a tree

Conversion writes the entries of a mapping in their order, each under the text of its key, and of two
under one text the later stays. So nothing of a tree is lost exactly where no text key of a mapping spells
a number or a flag that is a key of it too.
-/

namespace ApiContract

namespace Yaml

namespace Tree

variable {entries : List (Tree × Tree)} {written : List (String × Json)}

/-! ## Keeping all of a tree -/

mutual

/-- Whether a value holds all of a tree: each item of a sequence in its place, and of a mapping each entry
in a member of its own, under the text of its key, and no member besides. -/
def Keeps : Tree → Json → Prop
  | .sequence items, v => ∃ vs, v = .array vs ∧ KeepItems items vs
  | .mapping entries, v =>
    ∃ members written, v = .object members ∧ members.Perm written ∧ KeepEntries entries written
  | .tagged _ content, v => Keeps content v
  | t, v => t.toJson = .ok v

def KeepItems : List Tree → List Json → Prop
  | [], [] => True
  | t :: ts, v :: vs => Keeps t v ∧ KeepItems ts vs
  | _, _ => False

def KeepEntries : List (Tree × Tree) → List (String × Json) → Prop
  | [], [] => True
  | (k, t) :: rest, (key, v) :: more => keyText? k = some key ∧ Keeps t v ∧ KeepEntries rest more
  | _, _ => False

end

/-! ## Texts that are keys too -/

/-- Whether no text key of a mapping spells a key of another kind. -/
def NoneSpelled (entries : List (Tree × Tree)) : Prop :=
  ∀ e ∈ entries, ∀ e' ∈ entries, e.1.isText = true → e'.1.isText = false →
    keyText? e.1 ≠ keyText? e'.1

instance (entries : List (Tree × Tree)) : Decidable (NoneSpelled entries) :=
  inferInstanceAs (Decidable (∀ e ∈ entries, _))

mutual

/-- Whether in no mapping of a tree a text key spells a key of another kind. -/
def keysApart : Tree → Bool
  | .sequence items => areApart items
  | .mapping entries => decide (NoneSpelled entries) && haveApart entries
  | .tagged _ content => keysApart content
  | _ => true

def areApart : List Tree → Bool
  | [] => true
  | t :: ts => keysApart t && areApart ts

def haveApart : List (Tree × Tree) → Bool
  | [] => true
  | (_, t) :: rest => keysApart t && haveApart rest

end

theorem keysApart_mapping_iff :
    (Tree.mapping entries).keysApart = true ↔ NoneSpelled entries ∧ haveApart entries = true := by
  rw [keysApart, Bool.and_eq_true, decide_eq_true_eq]

/-- Where each entry has a text, the texts are different exactly where none spells a key of another
kind. -/
theorem nodup_keys_iff (hwf : (Tree.mapping entries).isWellFormed = true)
    (h : entries.map (fun e => keyText? e.1) = (Assoc.keys written).map some) :
    (Assoc.keys written).Nodup ↔ NoneSpelled entries := by
  obtain ⟨hdiffer, hparts⟩ := isWellFormed_mapping_iff.mp hwf
  rw [← List.nodup_map_iff (Option.some_injective _), ← h]
  constructor
  · intro hnodup e he e' he' ht ht' heq
    have hsame := List.inj_on_of_nodup_map hnodup he he' heq
    rw [hsame, ht'] at ht
    cases ht
  · intro hnone
    refine List.pairwise_map.mpr (hdiffer.imp_of_mem fun {e e'} he he' hne heq => ?_)
    obtain ⟨s, -, hs⟩ : ∃ s ∈ Assoc.keys written, some s = keyText? e.1 :=
      List.mem_map.mp (h ▸ List.mem_map_of_mem he)
    have hsame : e.1.same e'.1 = true := by
      by_cases htext : e.1.isText = e'.1.isText
      · exact same_of_keyText?_eq (hparts e he).1 (hparts e' he').1 htext hs.symm
          (heq.symm.trans hs.symm)
      · -- one of them is a text, and it does not spell the other
        cases ht : e.1.isText with
        | false => exact absurd heq.symm (hnone e' he' e he (by simpa [ht] using htext) ht)
        | true => exact absurd heq (hnone e he e' he' ht (by simpa [ht] using htext))
    rw [hsame] at hne
    cases hne

/-! ## Conversion -/

/-- Whether members are what the entries of a mapping are written as, in their order. -/
def WrittenAs (entries : List (Tree × Tree)) (written : List (String × Json)) : Prop :=
  List.Forall₂ (fun e m => keyText? e.1 = some m.1 ∧ e.2.toJson = .ok m.2) entries written

theorem WrittenAs.texts_eq (h : WrittenAs entries written) :
    entries.map (fun e => keyText? e.1) = (Assoc.keys written).map some := by
  induction h with
  | nil => rfl
  | cons h _ ih => exact congrArg₂ List.cons h.1 ih

theorem KeepEntries.texts_eq : {entries : List (Tree × Tree)} → {written : List (String × Json)} →
    KeepEntries entries written →
    entries.map (fun e => keyText? e.1) = (Assoc.keys written).map some
  | [], [], _ => rfl
  | [], _ :: _, h => h.elim
  | _ :: _, [], h => h.elim
  | (_, _) :: _, (_, _) :: _, h => congrArg₂ List.cons h.1 (KeepEntries.texts_eq h.2.2)

/-- Entries are put in one after the other. -/
theorem entriesToJson_eq_ok_iff {members after : Assoc Json} :
    entriesToJson members entries = .ok after ↔
      ∃ written, WrittenAs entries written ∧ after = members.insertAll written := by
  induction entries generalizing members with
  | nil =>
    constructor
    · intro h
      cases h
      exact ⟨[], .nil, rfl⟩
    · rintro ⟨written, hwritten, rfl⟩
      cases hwritten
      rfl
  | cons e rest ih =>
    obtain ⟨k, t⟩ := e
    unfold entriesToJson
    constructor
    · intro h
      split at h
      · cases h
      · next key hkey =>
        obtain ⟨w, hw, h⟩ := Except.bind_eq_ok_iff.mp h
        obtain ⟨written, hwritten, rfl⟩ := ih.mp h
        exact ⟨(key, w) :: written, .cons ⟨hkey, hw⟩ hwritten, rfl⟩
    · rintro ⟨written, hwritten, rfl⟩
      obtain _ | ⟨⟨hkey, hw⟩, hrest⟩ := hwritten
      simp only [hkey]
      exact Except.bind_eq_ok_iff.mpr ⟨_, hw, ih.mpr ⟨_, hrest, rfl⟩⟩

theorem toJson_mapping_iff {v : Json} :
    (Tree.mapping entries).toJson = .ok v ↔
      ∃ written, WrittenAs entries written ∧ v = .object (Assoc.ofList written) := by
  rw [toJson]
  constructor
  · intro h
    obtain ⟨members, hmembers, h⟩ := Except.bind_eq_ok_iff.mp h
    obtain ⟨written, hwritten, rfl⟩ := entriesToJson_eq_ok_iff.mp hmembers
    cases h
    exact ⟨written, hwritten, rfl⟩
  · rintro ⟨written, hwritten, rfl⟩
    exact Except.bind_eq_ok_iff.mpr ⟨_, entriesToJson_eq_ok_iff.mpr ⟨written, hwritten, rfl⟩, rfl⟩

/-! ## All is kept -/

mutual

/-- What is converted keeps all of a tree in which no text spells another key. -/
theorem keeps_of_keysApart : (t : Tree) → (v : Json) → t.isWellFormed = true → t.keysApart = true →
    t.toJson = .ok v → t.Keeps v
  | .sequence items, v, hwf, hapart, h => by
    obtain ⟨vs, hvs, h⟩ := Except.bind_eq_ok_iff.mp h
    cases h
    exact ⟨vs, rfl, keepItems_of_areApart items vs hwf hapart hvs⟩
  | .mapping entries, v, hwf, hapart, h => by
    obtain ⟨written, hwritten, rfl⟩ := toJson_mapping_iff.mp h
    obtain ⟨hnone, hapart⟩ := keysApart_mapping_iff.mp hapart
    -- all are written under different texts, so none replaces another
    have hnodup := (nodup_keys_iff hwf hwritten.texts_eq).mpr hnone
    refine ⟨_, written, rfl, Assoc.perm_ofList hnodup, ?_⟩
    exact keepEntries_of_haveApart entries written (isWellFormed_mapping_iff.mp hwf).2 hapart hwritten
  | .tagged _ content, v, hwf, hapart, h => keeps_of_keysApart content v hwf hapart h
  | .null, v, _, _, h => h
  | .bool _, v, _, _, h => h
  | .int _, v, _, _, h => h
  | .real _, v, _, _, h => h
  | .infinity _, v, _, _, h => h
  | .notANumber, v, _, _, h => h
  | .text _, v, _, _, h => h

theorem keepItems_of_areApart : (items : List Tree) → (vs : List Json) → areWellFormed items = true →
    areApart items = true → itemsToJson items = .ok vs → KeepItems items vs
  | [], vs, _, _, h => by
    cases h
    trivial
  | t :: ts, vs, hwf, hapart, h => by
    obtain ⟨w, hw, h⟩ := Except.bind_eq_ok_iff.mp h
    obtain ⟨ws, hws, h⟩ := Except.bind_eq_ok_iff.mp h
    cases h
    obtain ⟨hwft, hwfts⟩ := Bool.and_eq_true_iff.mp hwf
    obtain ⟨hapartt, hapartts⟩ := Bool.and_eq_true_iff.mp hapart
    exact ⟨keeps_of_keysApart t w hwft hapartt hw, keepItems_of_areApart ts ws hwfts hapartts hws⟩

theorem keepEntries_of_haveApart : (entries : List (Tree × Tree)) → (written : List (String × Json)) →
    (∀ e ∈ entries, e.1.isWellFormed = true ∧ e.2.isWellFormed = true) →
    haveApart entries = true → WrittenAs entries written → KeepEntries entries written
  | [], written, _, _, h => by
    cases h
    trivial
  | (k, t) :: rest, written, hwf, hapart, h => by
    obtain _ | ⟨⟨hkey, hw⟩, hrest⟩ := h
    obtain ⟨hwft, hwfrest⟩ := List.forall_mem_cons.mp hwf
    obtain ⟨hapartt, hapartrest⟩ := Bool.and_eq_true_iff.mp hapart
    exact ⟨hkey, keeps_of_keysApart t _ hwft.2 hapartt hw,
      keepEntries_of_haveApart rest _ hwfrest hapartrest hrest⟩

end

mutual

/-- No text spells another key in a tree of which all is kept. -/
theorem keysApart_of_keeps : (t : Tree) → (v : Json) → t.isWellFormed = true → v.isOrdered = true →
    t.Keeps v → t.keysApart = true
  | .sequence items, v, hwf, hv, h => by
    obtain ⟨vs, rfl, h⟩ := h
    exact areApart_of_keepItems items vs hwf (Json.isOrdered_array_iff.mp hv) h
  | .mapping entries, v, hwf, hv, h => by
    obtain ⟨members, written, rfl, hperm, h⟩ := h
    obtain ⟨hascending, hmembers⟩ := Json.isOrdered_object_iff.mp hv
    -- a map has each key once, and these are the texts that were written
    have hnodup : (Assoc.keys written).Nodup := (hperm.map _).nodup_iff.mp hascending.nodup
    refine keysApart_mapping_iff.mpr ⟨(nodup_keys_iff hwf h.texts_eq).mp hnodup, ?_⟩
    exact haveApart_of_keepEntries entries written (isWellFormed_mapping_iff.mp hwf).2
      (fun m hm => hmembers m (hperm.mem_iff.mpr hm)) h
  | .tagged _ content, v, hwf, hv, h => keysApart_of_keeps content v hwf hv h
  | .null, _, _, _, _ => rfl
  | .bool _, _, _, _, _ => rfl
  | .int _, _, _, _, _ => rfl
  | .real _, _, _, _, _ => rfl
  | .infinity _, _, _, _, _ => rfl
  | .notANumber, _, _, _, _ => rfl
  | .text _, _, _, _, _ => rfl

theorem areApart_of_keepItems : (items : List Tree) → (vs : List Json) → areWellFormed items = true →
    (∀ v ∈ vs, v.isOrdered = true) → KeepItems items vs → areApart items = true
  | [], _, _, _, _ => rfl
  | t :: ts, [], _, _, h => h.elim
  | t :: ts, v :: vs, hwf, hvs, h => by
    obtain ⟨hwft, hwfts⟩ := Bool.and_eq_true_iff.mp hwf
    obtain ⟨hv, hvs⟩ := List.forall_mem_cons.mp hvs
    exact Bool.and_eq_true_iff.mpr
      ⟨keysApart_of_keeps t v hwft hv h.1, areApart_of_keepItems ts vs hwfts hvs h.2⟩

theorem haveApart_of_keepEntries : (entries : List (Tree × Tree)) → (written : List (String × Json)) →
    (∀ e ∈ entries, e.1.isWellFormed = true ∧ e.2.isWellFormed = true) →
    (∀ m ∈ written, m.2.isOrdered = true) → KeepEntries entries written → haveApart entries = true
  | [], _, _, _, _ => rfl
  | (k, t) :: rest, [], _, _, h => h.elim
  | (k, t) :: rest, (key, v) :: more, hwf, hordered, h => by
    obtain ⟨hwft, hwfrest⟩ := List.forall_mem_cons.mp hwf
    obtain ⟨hv, hmore⟩ := List.forall_mem_cons.mp hordered
    exact Bool.and_eq_true_iff.mpr ⟨keysApart_of_keeps t v hwft.2 hv h.2.1,
      haveApart_of_keepEntries rest more hwfrest hmore h.2.2⟩

end

mutual

/-- What keeps all of a tree is its conversion. -/
theorem toJson_of_keeps : (t : Tree) → (v : Json) → v.isOrdered = true → t.Keeps v → t.toJson = .ok v
  | .sequence items, v, hv, h => by
    obtain ⟨vs, rfl, h⟩ := h
    exact Except.bind_eq_ok_iff.mpr
      ⟨vs, itemsToJson_of_keepItems items vs (Json.isOrdered_array_iff.mp hv) h, rfl⟩
  | .mapping entries, v, hv, h => by
    obtain ⟨members, written, rfl, hperm, h⟩ := h
    obtain ⟨hascending, hmembers⟩ := Json.isOrdered_object_iff.mp hv
    have hnodup : (Assoc.keys written).Nodup := (hperm.map _).nodup_iff.mp hascending.nodup
    have heq : members = Assoc.ofList written := hascending.eq_of_perm (Assoc.ascending_ofList _)
      (hperm.trans (Assoc.perm_ofList hnodup).symm)
    have hwritten := writtenAs_of_keepEntries entries written
      (fun m hm => hmembers m (hperm.mem_iff.mpr hm)) h
    exact toJson_mapping_iff.mpr ⟨written, hwritten, congrArg Json.object heq⟩
  | .tagged _ content, v, hv, h => toJson_of_keeps content v hv h
  | .null, _, _, h => h
  | .bool _, _, _, h => h
  | .int _, _, _, h => h
  | .real _, _, _, h => h
  | .infinity _, _, _, h => h
  | .notANumber, _, _, h => h
  | .text _, _, _, h => h

theorem itemsToJson_of_keepItems : (items : List Tree) → (vs : List Json) →
    (∀ v ∈ vs, v.isOrdered = true) → KeepItems items vs → itemsToJson items = .ok vs
  | [], [], _, _ => rfl
  | [], _ :: _, _, h => h.elim
  | _ :: _, [], _, h => h.elim
  | t :: ts, v :: vs, hvs, h => by
    obtain ⟨hv, hvs⟩ := List.forall_mem_cons.mp hvs
    exact Except.bind_eq_ok_iff.mpr ⟨v, toJson_of_keeps t v hv h.1, Except.bind_eq_ok_iff.mpr
      ⟨vs, itemsToJson_of_keepItems ts vs hvs h.2, rfl⟩⟩

theorem writtenAs_of_keepEntries : (entries : List (Tree × Tree)) →
    (written : List (String × Json)) → (∀ m ∈ written, m.2.isOrdered = true) →
    KeepEntries entries written → WrittenAs entries written
  | [], [], _, _ => .nil
  | [], _ :: _, _, h => h.elim
  | (_, _) :: _, [], _, h => h.elim
  | (_, t) :: rest, (_, v) :: more, hordered, h => by
    obtain ⟨hv, hmore⟩ := List.forall_mem_cons.mp hordered
    exact .cons ⟨h.1, toJson_of_keeps t v hv h.2.1⟩ (writtenAs_of_keepEntries rest more hmore h.2.2)

end

/-- A mapping of which all is kept has as many members as entries. -/
theorem Keeps.length_eq {members : Assoc Json}
    (h : (Tree.mapping entries).Keeps (.object members)) : members.length = entries.length := by
  obtain ⟨members', written, hmembers, hperm, h⟩ := h
  cases hmembers
  have hlength := congrArg List.length h.texts_eq
  simp only [Assoc.keys, List.length_map] at hlength
  rw [hperm.length_eq, hlength]

/-- **Conversion keeps all of a tree exactly where no text key of a mapping in it spells a number or a flag
that is a key of this mapping too.** -/
theorem keeps_iff_keysApart {t : Tree} {v : Json} (hwf : t.isWellFormed = true)
    (h : t.toJson = .ok v) : t.Keeps v ↔ t.keysApart = true :=
  ⟨keysApart_of_keeps t v hwf (isOrdered_of_toJson t v h), fun hapart =>
    keeps_of_keysApart t v hwf hapart h⟩

/-- Responses under a number and under a text. -/
def responses (first second : Tree) : Tree :=
  .mapping [(first, .mapping [(.text "description", .text "a")]),
    (second, .mapping [(.text "description", .text "b")])]

theorem keeps_iff_keysApart_responses :
    ∃ v, (responses (.int 200) (.text "404")).toJson = .ok v ∧
      (responses (.int 200) (.text "404")).Keeps v :=
  ⟨_, rfl, (keeps_iff_keysApart (by decide) rfl).mpr (by decide)⟩

/-- Of the responses under `200` and `'200'` one is lost. -/
theorem not_keeps_responses :
    (responses (.int 200) (.text "200")).isWellFormed = true ∧
      (responses (.int 200) (.text "200")).toJson =
        .ok (.object [("200", .object [("description", .string "b")])]) ∧
      ¬ (responses (.int 200) (.text "200")).Keeps
        (.object [("200", .object [("description", .string "b")])]) := by
  refine ⟨by decide, rfl, fun h => ?_⟩
  have hlength : 1 = 2 := h.length_eq
  omega

end Tree

end Yaml

/-! ## Contracts -/

/-- **A contract that is loaded from a text holds all of the text's tree exactly where no text key in it
spells a key of another kind.** -/
theorem Contract.keeps_iff_of_ofText {text : String} {c : Contract} (h : ofText text = .ok c) :
    ∃ t, Yaml.read? text = some t ∧ (t.Keeps c.document ↔ t.keysApart = true) := by
  unfold ofText at h
  split at h
  · cases h
  · next t ht =>
    have hwf := Yaml.isWellFormed_of_read? ht
    split at h
    · next v hv =>
      rw [document_of_ofJson h]
      exact ⟨t, ht, Yaml.Tree.keysApart_of_keeps t v hwf (Yaml.Tree.isOrdered_of_toJson t v hv),
        fun hapart => Yaml.Tree.keeps_of_keysApart t v hwf hapart hv⟩
    · cases h

end ApiContract
