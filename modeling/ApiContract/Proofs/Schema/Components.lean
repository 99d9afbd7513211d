import ApiContract.Proofs.Schema.Linking
import ApiContract.Proofs.Schema.Metaschema
/-!
# Components in the root of a document

Reading passes over the member `components`, so putting components into the root of a schema changes
nothing but what references lead to.
-/

namespace ApiContract

/-! ## Maps with one more key -/

namespace Assoc

variable {β γ : Type}

/-- Putting in a value and changing every value commute. -/
theorem map_insert (m : Assoc β) (key : String) (value : β) (f : String → β → γ) :
    (insert m key value).map (fun e => (e.1, f e.1 e.2)) =
      insert (m.map fun e => (e.1, f e.1 e.2)) key (f key value) := by
  induction m with
  | nil => rfl
  | cons e m ih =>
    obtain ⟨k, v⟩ := e
    simp only [insert, List.map_cons]
    split
    · rfl
    · split
      · rfl
      · rw [← ih]
        rfl

/-- Entries under a key that count for nothing may be put in. -/
theorem flatMap_insert {m : Assoc β} {key : String} (value : β) {f : String × β → List γ}
    (h : ∀ v, f (key, v) = []) : (insert m key value).flatMap f = m.flatMap f := by
  induction m with
  | nil => simp [insert, h]
  | cons e m ih =>
    obtain ⟨k, v⟩ := e
    unfold insert
    split
    · simp [h]
    · split
      · next hk => subst hk; simp [h]
      · simp [ih]

end Assoc

namespace Schema

open Reading

variable {dialect : Dialect} {formats : Bool}

/-! ## Reading beside other members -/

section

variable {parts parts' : Parts} {name : String}

/-- The words of the members that keywords look for beside them. -/
def besideWords : List String :=
  ["additionalProperties", "else", "exclusiveMaximum", "exclusiveMinimum", "items", "maxContains",
    "minContains", "patternProperties", "prefixItems", "properties", "then"]

theorem ne_of_beside (hname : name ∉ besideWords) {word : String} (hw : word ∈ besideWords) :
    word ≠ name := fun h => hname (h ▸ hw)

theorem get?_congr (h : SameBut name parts parts') (hname : name ∉ besideWords) {word : String}
    (hw : word ∈ besideWords) : parts.get? word = parts'.get? word :=
  h word (ne_of_beside hname hw)

theorem raw?_congr (h : SameBut name parts parts') (hname : name ∉ besideWords) {word : String}
    (hw : word ∈ besideWords) : parts.raw? word = parts'.raw? word := by
  rw [Parts.raw?, Parts.raw?, get?_congr h hname hw]

theorem readAdditional_congr (h : SameBut name parts parts') (hname : name ∉ besideWords)
    (part : Part) : readAdditional parts part = readAdditional parts' part := by
  unfold readAdditional readPatternsBeside readDeclaredBeside
  rw [get?_congr h hname (by decide : "patternProperties" ∈ besideWords),
    get?_congr h hname (by decide : "properties" ∈ besideWords)]

theorem takesIn_congr (h : SameBut name parts parts') (hname : name ∉ besideWords) :
    takesIn parts = takesIn parts' := by
  unfold takesIn
  rw [raw?_congr h hname (by decide)]

theorem readItems_congr (h : SameBut name parts parts') (hname : name ∉ besideWords)
    (part : Part) : readItems dialect parts part = readItems dialect parts' part := by
  unfold readItems
  rw [raw?_congr h hname (by decide)]

theorem readAdditionalItems_congr (h : SameBut name parts parts') (hname : name ∉ besideWords)
    (part : Part) : readAdditionalItems parts part = readAdditionalItems parts' part := by
  unfold readAdditionalItems
  rw [raw?_congr h hname (by decide)]

theorem readConditional_congr (h : SameBut name parts parts') (hname : name ∉ besideWords)
    (part : Part) : readConditional parts part = readConditional parts' part := by
  unfold readConditional
  rw [get?_congr h hname (by decide : "then" ∈ besideWords),
    get?_congr h hname (by decide : "else" ∈ besideWords)]

theorem readInclusive_congr (h : SameBut name parts parts') (hname : name ∉ besideWords)
    (inclusive : Bound) {exclusive : Bound} (hw : exclusive.word ∈ besideWords) (part : Part) :
    readInclusive dialect inclusive exclusive parts part =
      readInclusive dialect inclusive exclusive parts' part := by
  unfold readInclusive
  rw [raw?_congr h hname hw]

theorem readBesideCount_congr (h : SameBut name parts parts') (hname : name ∉ besideWords)
    {word : String} (hw : word ∈ besideWords) :
    readBesideCount parts word = readBesideCount parts' word := by
  unfold readBesideCount
  rw [raw?_congr h hname hw]

/-- A member is read alike beside the same other members. -/
theorem readMember_congr (h : SameBut name parts parts') (hname : name ∉ besideWords)
    (member : String × Part) :
    readMember dialect formats parts member = readMember dialect formats parts' member := by
  have hshared : readShared dialect formats parts member.2 member.1 =
      readShared dialect formats parts' member.2 member.1 := by
    unfold readShared
    rw [readInclusive_congr h hname .maximum (by decide : Bound.exclusiveMaximum.word ∈ _),
      readInclusive_congr h hname .minimum (by decide : Bound.exclusiveMinimum.word ∈ _)]
    simp only [readAdditional_congr h hname, takesIn_congr h hname, readItems_congr h hname]
  have hrecent : readRecent parts member.2 member.1 = readRecent parts' member.2 member.1 := by
    unfold readRecent
    rw [readBesideCount_congr h hname (by decide), readBesideCount_congr h hname (by decide)]
    simp only [readConditional_congr h hname]
  unfold readMember readOwn
  rw [hshared, hrecent, readAdditionalItems_congr h hname]

/-- Reading passes over `components`. -/
theorem readMember_components (parts : Parts) (part : Part) :
    readMember dialect formats parts ("components", part) = ⟨[], []⟩ := by
  cases dialect <;> rfl

end

/-! ## Members one by one -/

/-- A member with the schemas that it holds. -/
def partOf (dialect : Dialect) (formats : Bool) (k : String) (v : Json) : Part :=
  let role := roleOf dialect k
  { raw := v
    schema := if role = .schema || role = .either then read dialect formats v else pure .always
    list := match v with
      | .array vs => if role = .list || role = .either then readAll dialect formats vs else []
      | _ => []
    fields := match v with
      | .object ms => if role = .fields then readFields dialect formats ms else []
      | _ => [] }

theorem readParts_eq_map (members : List (String × Json)) :
    readParts dialect formats members =
      members.map fun e => (e.1, partOf dialect formats e.1 e.2) := by
  induction members with
  | nil => rfl
  | cons e rest ih =>
    obtain ⟨k, v⟩ := e
    rw [List.map_cons, ← ih]
    cases v <;> rfl

theorem readKeywords_eq (parts : Parts) :
    readKeywords dialect formats parts =
      ⟨parts.flatMap fun e => (readMember dialect formats parts e).result,
        parts.flatMap fun e => (readMember dialect formats parts e).events⟩ := by
  show Reading.mk (List.flatten ((parts.map _).map _)) ((parts.map _).flatMap _ ++ []) = _
  rw [List.append_nil, List.map_map, List.flatMap_map]
  rfl

/-- **Components in a schema are not read.** -/
theorem read_insert_components (members : Assoc Json) (components : Json) :
    read dialect formats (.object (members.insert "components" components)) =
      read dialect formats (.object members) := by
  have hparts : SameBut "components"
      (readParts dialect formats (members.insert "components" components))
      (readParts dialect formats members) := by
    intro k hk
    rw [readParts_eq_map, readParts_eq_map, Assoc.get?_mapValues, Assoc.get?_mapValues,
      Assoc.get?_insert_of_ne _ _ (Ne.symm hk)]
  have hkeywords : readKeywords dialect formats
      (readParts dialect formats (members.insert "components" components)) =
        readKeywords dialect formats (readParts dialect formats members) := by
    rw [readKeywords_eq, readKeywords_eq]
    simp only [readMember_congr hparts (by decide)]
    rw [readParts_eq_map (members.insert "components" components), Assoc.map_insert,
      ← readParts_eq_map, Assoc.flatMap_insert _ fun v => by rw [readMember_components],
      Assoc.flatMap_insert _ fun v => by rw [readMember_components]]
  unfold read
  rw [Assoc.get?_insert_of_ne _ _ (by decide), hkeywords]

end Schema

end ApiContract
