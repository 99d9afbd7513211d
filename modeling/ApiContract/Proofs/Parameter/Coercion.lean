import ApiContract.Coercion
import ApiContract.Proofs.Numeral.Decimal
import ApiContract.Proofs.Request.Declared
/-!
# Coercing the items of an array

An array of texts is coerced text by text, by the kinds of its item schema: the schema and the one
of its items are each read where their reference leads. A text stays a text where that kind is
declared, and never becomes another text. The decimal text of a whole number of 64 bits becomes that
number where integers, or numbers, are declared.
-/

namespace ApiContract

namespace Coercion

/-! ## Texts -/

/-- Whether a whole number fits 64 bits with a sign. -/
def Fits (n : Int) : Prop := -pow2 63 ≤ n ∧ n < pow2 63

instance (n : Int) : Decidable (Fits n) := inferInstanceAs (Decidable (_ ∧ _))

theorem integer?_toString {n : Int} (h : Fits n) :
    integer? (toString n).toList = some (Json.int n) := by
  unfold integer?
  have hfits : (-(pow2 63 : Int) ≤ n && n < (pow2 63 : Int)) = true := by simpa [Fits] using h
  rw [Decimal.readInt?_toString, Option.bind_eq_bind, Option.bind_some, if_pos hfits]

/-- What coercion makes of a text under the kinds that are declared, if any are. -/
def ofText (kinds? : Option (List String)) (s : String) : Json :=
  (kinds?.bind (scalar? s)).getD (.string s)

/-- Coercion makes no text of a text. -/
theorem scalar?_ne_string (s t : String) (kinds : List String) :
    scalar? s kinds ≠ some (.string t) := by
  have hint : ∀ cs, integer? cs ≠ some (.string t) := by
    intro cs h
    obtain ⟨n, -, h⟩ := Option.bind_eq_some_iff.mp h
    split at h <;> simp [Json.int] at h
  have hdouble : ∀ cs, double? cs ≠ some (.string t) := by
    intro cs h
    obtain ⟨d, -, h⟩ := Option.bind_eq_some_iff.mp h
    obtain ⟨x, -, h⟩ := Option.bind_eq_some_iff.mp h
    simp at h
  intro h
  unfold scalar? at h
  split at h
  · cases h
  · obtain ⟨kind, -, h⟩ := List.exists_of_findSome?_eq_some h
    unfold toKind? at h
    split at h
    · exact hint _ h
    · split at h
      · rcases Option.or_eq_some_iff.mp h with h | ⟨-, h⟩
        · exact hint _ h
        · exact hdouble _ h
      · split at h
        · split at h
          · simp at h
          · split at h <;> simp at h
        · split at h <;> simp at h

/-- A text stays exactly where it does not convert. -/
theorem ofText_eq_string_iff {kinds? : Option (List String)} {s : String} :
    ofText kinds? s = .string s ↔ kinds?.bind (scalar? s) = none := by
  unfold ofText
  cases h : kinds?.bind (scalar? s) with
  | none => simp
  | some v =>
    obtain ⟨kinds, -, hv⟩ := Option.bind_eq_some_iff.mp h
    refine ⟨fun heq => ?_, nofun⟩
    rw [Option.getD_some] at heq
    exact absurd (heq ▸ hv) (scalar?_ne_string s s kinds)

theorem ofText_of_string {kinds : List String} (h : kinds.contains "string" = true) (s : String) :
    ofText (some kinds) s = .string s := by
  rw [ofText_eq_string_iff, Option.bind_some, scalar?, if_pos h]

/-! ## Whole numbers -/

/-- Whether kinds make a number of the text of a whole number. -/
def ConvertsIntegers (kinds : List String) : Prop :=
  "string" ∉ kinds ∧ ("integer" ∈ kinds ∨ "number" ∈ kinds)

instance (kinds : List String) : Decidable (ConvertsIntegers kinds) :=
  inferInstanceAs (Decidable (_ ∧ _))

/-- The text of a whole number is no text of another kind. -/
theorem toKind?_toString {n : Int} (h : Fits n) (kind : String) :
    toKind? (toString n) kind =
      if kind = "integer" ∨ kind = "number" then some (Json.int n) else none := by
  have hfail : ∀ s : String, Decimal.readInt? s.toList = none → toString n ≠ s := by
    rintro s hs rfl
    rw [Decimal.readInt?_toString] at hs
    cases hs
  have hempty : (toString n).isEmpty = false := by
    cases he : (toString n).isEmpty with
    | false => rfl
    | true => exact absurd (String.isEmpty_iff.mp he) (hfail "" (by decide))
  unfold toKind?
  by_cases hi : kind = "integer"
  · rw [if_pos hi, if_pos (Or.inl hi), integer?_toString h]
  · rw [if_neg hi]
    by_cases hn : kind = "number"
    · rw [if_pos hn, if_pos (Or.inr hn), integer?_toString h, Option.some_or]
    · rw [if_neg hn, if_neg (not_or.mpr ⟨hi, hn⟩), if_neg (hfail "true" (by decide)),
        if_neg (hfail "false" (by decide)), hempty]
      simp

theorem findSome?_toKind?_toString {n : Int} (h : Fits n) (kinds : List String) :
    kinds.findSome? (toKind? (toString n)) =
      if "integer" ∈ kinds ∨ "number" ∈ kinds then some (Json.int n) else none := by
  induction kinds with
  | nil => rfl
  | cons kind kinds ih =>
    rw [List.findSome?_cons, toKind?_toString h, ih]
    by_cases hkind : kind = "integer" ∨ kind = "number"
    · have hmem : "integer" ∈ kind :: kinds ∨ "number" ∈ kind :: kinds := by
        rcases hkind with rfl | rfl <;> simp
      rw [if_pos hkind, if_pos hmem]
    · rw [if_neg hkind]
      obtain ⟨hi, hn⟩ := not_or.mp hkind
      simp [Ne.symm hi, Ne.symm hn]

/-- **The text of a whole number becomes that number exactly where the kinds say so.** -/
theorem ofText_toString_eq_int_iff {kinds? : Option (List String)} {n : Int} (h : Fits n) :
    ofText kinds? (toString n) = Json.int n ↔
      ∃ kinds, kinds? = some kinds ∧ ConvertsIntegers kinds := by
  unfold ofText ConvertsIntegers
  cases kinds? with
  | none => simp [Json.int]
  | some kinds =>
    simp only [Option.some.injEq, exists_eq_left', Option.bind_some, scalar?,
      List.contains_iff_mem, findSome?_toKind?_toString h]
    by_cases hs : "string" ∈ kinds
    · simp [hs, Json.int]
    · by_cases hkinds : "integer" ∈ kinds ∨ "number" ∈ kinds
      · simp [hs, hkinds]
      · simp [hs, hkinds, Json.int]

/-! ## Arrays of texts -/

/-- The schema by which the items of an array are coerced, if there is one. -/
def itemSchema? (c : Contract) (schema : Json) : Option Json := do
  let declared ← (c.resolve schema).toOption
  let each ← itemsOf? declared (kindsOf declared)
  (c.resolve each).toOption

/-- The kinds by which the items of an array are coerced, if there are any. -/
def itemKinds? (c : Contract) (schema : Json) : Option (List String) :=
  (itemSchema? c schema).map kindsOf

theorem values_eq_map (c : Contract) (items : List Json) (schema : Json) :
    values c items schema = items.map (value c · schema) := by
  induction items with
  | nil => rfl
  | cons v vs ih => rw [values, ih, List.map_cons]

theorem value_string (c : Contract) (s : String) (schema : Json) :
    value c (.string s) schema = ofText ((c.resolve schema).toOption.map kindsOf) s := by
  unfold value
  cases c.resolve schema <;> rfl

/-- **An array of texts is coerced text by text.** -/
theorem value_texts (c : Contract) (ss : List String) (schema : Json) :
    value c (.array (ss.map .string)) schema =
      .array (ss.map (ofText (itemKinds? c schema))) := by
  unfold value itemKinds? itemSchema?
  cases c.resolve schema with
  | error f => rfl
  | ok declared =>
    simp only [Except.toOption, Option.bind_eq_bind, Option.bind_some]
    cases itemsOf? declared (kindsOf declared) with
    | none => rfl
    | some each =>
      simp only [Option.bind_some, values_eq_map, List.map_map, Json.array.injEq]
      exact List.map_congr_left fun s _ => value_string c s each

theorem value_texts_eq_iff (c : Contract) (ss : List String) (schema : Json) :
    value c (.array (ss.map .string)) schema = .array (ss.map .string) ↔
      ∀ s ∈ ss, (itemKinds? c schema).bind (scalar? s) = none := by
  rw [value_texts, Json.array.injEq, List.map_inj_left]
  simp only [ofText_eq_string_iff]

/-- Texts of whole numbers become those numbers exactly where the kinds of the items say so. -/
theorem value_texts_eq_ints_iff (c : Contract) {ns : List Int} (hne : ns ≠ [])
    (hfits : ∀ n ∈ ns, Fits n) (schema : Json) :
    value c (.array ((ns.map toString).map .string)) schema = .array (ns.map Json.int) ↔
      ∃ kinds, itemKinds? c schema = some kinds ∧ ConvertsIntegers kinds := by
  rw [value_texts, Json.array.injEq, List.map_map, List.map_inj_left]
  constructor
  · intro h
    obtain ⟨n, hn⟩ := List.exists_mem_of_ne_nil ns hne
    exact (ofText_toString_eq_int_iff (hfits n hn)).mp (h n hn)
  · intro h n hn
    exact (ofText_toString_eq_int_iff (hfits n hn)).mpr h

/-- Texts that are not coerced are no numbers. -/
theorem texts_ne_ints {ns : List Int} (hne : ns ≠ []) :
    Json.array ((ns.map toString).map .string) ≠ .array (ns.map Json.int) := by
  cases ns with
  | nil => exact absurd rfl hne
  | cons n ns => simp [Json.int]

/-! ## Schemas without references -/

/-- The kinds of a schema are those that it declares, and null if it is nullable. -/
theorem mem_kindsOf_iff {schema : Json} {kind : String} :
    kind ∈ kindsOf schema ↔ Synthesis.declaresKind schema kind = true ∨
      kind = "null" ∧ schema.member? "nullable" = some (.bool true) := by
  have hnullable : ∀ declared : List String,
      kind ∈ (if schema.member? "nullable" = some (.bool true) then declared ++ ["null"]
        else declared) ↔
      kind ∈ declared ∨ kind = "null" ∧ schema.member? "nullable" = some (.bool true) := by
    intro declared
    by_cases hnull : schema.member? "nullable" = some (.bool true) <;> simp [hnull]
  unfold kindsOf Synthesis.declaresKind
  refine (hnullable _).trans (or_congr_left ?_)
  cases schema.member? "type" with
  | none => simp
  | some v =>
    cases v with
    | string name => exact List.mem_singleton.trans (eq_comm.trans beq_iff_eq.symm)
    | array names => simp [List.mem_filterMap, Json.asString?_eq_some]
    | _ => simp

/-- Whether the items of an array schema are of a kind, with no reference at the schema or at that
of the items. -/
def ItemsAre (schema : Json) (kind : String) : Prop :=
  Contract.referenceOf? schema = none ∧ ∃ each, schema.member? "items" = some each ∧
    Contract.referenceOf? each = none ∧ Synthesis.declaresKind each kind = true

/-- Such items are coerced by the schema that is written. -/
theorem exists_itemKinds?_of_itemsAre {c : Contract} {schema : Json} {kind : String}
    (harray : Synthesis.declaresKind schema "array" = true) (h : ItemsAre schema kind) :
    ∃ kinds, itemKinds? c schema = some kinds ∧ kind ∈ kinds ∧
      ∀ other, other ≠ "null" → other ∈ kinds → ItemsAre schema other := by
  obtain ⟨hs, each, heach, hi, hkind⟩ := h
  have hcontains : (kindsOf schema).contains "array" = true :=
    List.contains_iff_mem.mpr (mem_kindsOf_iff.mpr (Or.inl harray))
  refine ⟨kindsOf each, ?_, mem_kindsOf_iff.mpr (Or.inl hkind), fun other hnull hother => ?_⟩
  · unfold itemKinds? itemSchema? Contract.resolve itemsOf?
    rw [hs]
    simp only [Except.toOption, Option.bind_eq_bind, Option.bind_some, hcontains, if_true, heach,
      hi, Option.map_some]
  · rcases mem_kindsOf_iff.mp hother with hdeclared | ⟨hnull', -⟩
    · exact ⟨hs, each, heach, hi, hdeclared⟩
    · exact absurd hnull' hnull

/-- Items that may be texts are not converted. -/
theorem bind_scalar?_of_itemsAre_string {c : Contract} {schema : Json}
    (harray : Synthesis.declaresKind schema "array" = true) (h : ItemsAre schema "string")
    (s : String) : (itemKinds? c schema).bind (scalar? s) = none := by
  obtain ⟨kinds, hkinds, hmem, -⟩ := exists_itemKinds?_of_itemsAre (c := c) harray h
  rw [hkinds, ← ofText_eq_string_iff, ofText_of_string (List.contains_iff_mem.mpr hmem)]

/-- Items that may be integers but no texts are. -/
theorem convertsIntegers_of_itemsAre {c : Contract} {schema : Json}
    (harray : Synthesis.declaresKind schema "array" = true) (h : ItemsAre schema "integer")
    (hno : ¬ ItemsAre schema "string") :
    ∃ kinds, itemKinds? c schema = some kinds ∧ ConvertsIntegers kinds := by
  obtain ⟨kinds, hkinds, hmem, hother⟩ := exists_itemKinds?_of_itemsAre (c := c) harray h
  exact ⟨kinds, hkinds, fun hstring => hno (hother "string" (by decide) hstring), Or.inl hmem⟩

end Coercion

end ApiContract
