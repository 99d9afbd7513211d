import ApiContract.Proofs.Parameter.Coercion
import ApiContract.Proofs.Schema.Keywords
/-!
# What coercion does to the leaves of a value

Coercion goes through arrays alone, by the schemas of their items, and changes texts alone: a text
becomes what it spells in a kind that the schema at its position declares. Everything else stays, and
coercing again finds nothing to change. The way ends where the value ends, even if the schemas of
items refer to one another in a circle.
-/

namespace ApiContract

namespace Coercion

open Schema

/-! ## Positions -/

/-- The part of a value that indices lead to, from array to array. -/
def at? : Json → List Nat → Option Json
  | v, [] => some v
  | v, i :: path => ((v.asArray?.getD [])[i]?).bind (at? · path)

/-- Whether a schema declares a kind; a nullable one also declares null. -/
def Declares (schema : Json) (kind : Kind) : Prop :=
  Synthesis.declaresKind schema kind.name = true ∨
    kind = .null ∧ schema.member? "nullable" = some (.bool true)

/-- Whether a schema, once its reference is resolved, declares arrays and has a schema for their
items. -/
def HasItems (c : Contract) (schema each : Json) : Prop :=
  ∃ declared, c.resolve schema = .ok declared ∧ Declares declared .array ∧
    declared.member? "items" = some each

/-- Whether a schema stands at a position, its reference resolved: on the way to it each schema has
one for the items. -/
inductive StandsAt (c : Contract) : Json → List Nat → Json → Prop
  | here {schema declared : Json} (h : c.resolve schema = .ok declared) :
      StandsAt c schema [] declared
  | item {schema each declared : Json} {path : List Nat} (i : Nat) (hitems : HasItems c schema each)
      (h : StandsAt c each path declared) : StandsAt c schema (i :: path) declared

/-! ## What may become of a part -/

/-- Whether a text becomes a value under a schema: the schema declares no texts, but a kind that the
value is of, and the text spells the value in that kind. -/
structure Converts (declared : Json) (s : String) (v : Json) : Prop where
  untexted : ¬ Declares declared .string
  spelled : ∃ kind, Declares declared kind ∧ kind.has .draft4 v = true ∧
    toKind? s kind.name = some v

/-- What coercion makes of the part at a position: of an array, one with as many items; of a text, a
value that it converts to if there is one; and everything else stays. -/
inductive Coerced (c : Contract) (schema : Json) (path : List Nat) : Json → Json → Prop
  | array {items items' : List Json} (h : items.length = items'.length) :
      Coerced c schema path (.array items) (.array items')
  | converted {declared v : Json} {s : String} (hstands : StandsAt c schema path declared)
      (h : Converts declared s v) : Coerced c schema path (.string s) v
  | kept {v : Json} (h : ∀ s declared, v = .string s → StandsAt c schema path declared →
      ∀ w, ¬ Converts declared s w) : Coerced c schema path v v

/-- Whether a call for a value and a schema makes another call: for an item and its schema. -/
inductive Calls (c : Contract) : Json × Json → Json × Json → Prop
  | item {items : List Json} {v schema each : Json} (hmem : v ∈ items)
      (hitems : HasItems c schema each) : Calls c (.array items, schema) (v, each)

/-! ## Kinds -/

theorem declares_iff {schema : Json} {kind : Kind} :
    Declares schema kind ↔ kind.name ∈ kindsOf schema := by
  rw [mem_kindsOf_iff]
  refine or_congr_right (and_congr_left fun _ => ?_)
  cases kind <;> simp [Kind.name]

theorem hasItems_iff {c : Contract} {schema each : Json} :
    HasItems c schema each ↔
      ∃ declared, c.resolve schema = .ok declared ∧
        itemsOf? declared (kindsOf declared) = some each := by
  unfold HasItems itemsOf?
  simp only [declares_iff, List.contains_iff_mem, Kind.name, Option.ite_none_right_eq_some]

/-- What a text spells is of a kind, the one that is asked for. -/
theorem exists_kind_of_toKind? {s name : String} {v : Json} (h : toKind? s name = some v) :
    ∃ kind : Kind, kind.name = name ∧ kind.has .draft4 v = true := by
  have hint : ∀ {cs}, integer? cs = some v → Kind.integer.has .draft4 v = true := by
    intro cs h
    obtain ⟨n, -, h⟩ := Option.bind_eq_some_iff.mp h
    split at h
    · obtain rfl := Option.some.inj h
      rfl
    · cases h
  have hnumber : ∀ {v : Json}, Kind.integer.has .draft4 v = true →
      Kind.number.has .draft4 v = true := by
    intro v hv
    cases v <;> simp [Kind.has] at hv ⊢
  unfold toKind? at h
  split at h
  · next hname => exact ⟨.integer, hname.symm, hint h⟩
  · split at h
    · next hname =>
      refine ⟨.number, hname.symm, ?_⟩
      rcases Option.or_eq_some_iff.mp h with h | ⟨-, h⟩
      · exact hnumber (hint h)
      · obtain ⟨d, -, h⟩ := Option.bind_eq_some_iff.mp h
        obtain ⟨x, -, h⟩ := Option.bind_eq_some_iff.mp h
        obtain rfl := Option.some.inj h
        rfl
    · split at h
      · next hname =>
        refine ⟨.boolean, hname.symm, ?_⟩
        split at h
        · obtain rfl := Option.some.inj h
          rfl
        · split at h
          · obtain rfl := Option.some.inj h
            rfl
          · cases h
      · split at h
        · next hname =>
          obtain rfl := Option.some.inj h
          exact ⟨.null, (by simpa using hname : name = "null" ∧ _).1.symm, rfl⟩
        · cases h

/-- **What is made of a text, and when.** -/
theorem converts_of_scalar? {declared v : Json} {s : String}
    (h : scalar? s (kindsOf declared) = some v) : Converts declared s v := by
  unfold scalar? at h
  split at h
  · cases h
  · next hstring =>
    obtain ⟨name, hname, hv⟩ := List.exists_of_findSome?_eq_some h
    obtain ⟨kind, rfl, hhas⟩ := exists_kind_of_toKind? hv
    refine ⟨fun hdeclares => hstring ?_, kind, declares_iff.mpr hname, hhas, hv⟩
    exact List.contains_iff_mem.mpr (declares_iff.mp hdeclares)

theorem not_converts_of_scalar? {declared : Json} {s : String}
    (h : scalar? s (kindsOf declared) = none) (v : Json) : ¬ Converts declared s v := by
  rintro ⟨hstring, kind, hkind, -, hv⟩
  have hno : ¬ (kindsOf declared).contains "string" = true := fun hmem =>
    hstring (declares_iff.mpr (List.contains_iff_mem.mp hmem))
  rw [scalar?, if_neg hno, List.findSome?_eq_none_iff] at h
  rw [h _ (declares_iff.mp hkind)] at hv
  cases hv

/-! ## Coercing a value -/

section

variable {c : Contract} {schema each : Json}

/-- An array is coerced item by item where there is a schema for the items. -/
theorem value_array (h : HasItems c schema each) (items : List Json) :
    value c (.array items) schema = .array (items.map (value c · each)) := by
  obtain ⟨declared, hresolve, hitems⟩ := hasItems_iff.mp h
  rw [value, hresolve]
  simp only [hitems, values_eq_map]

theorem value_array_eq_self (h : ∀ each, ¬ HasItems c schema each) (items : List Json) :
    value c (.array items) schema = .array items := by
  unfold value
  cases hresolve : c.resolve schema with
  | error f => rfl
  | ok declared =>
    cases hitems : itemsOf? declared (kindsOf declared) with
    | none => simp only [hitems]
    | some each => exact absurd (hasItems_iff.mpr ⟨declared, hresolve, hitems⟩) (h each)

theorem value_eq_self_of_leaf {v : Json} (hstring : v.asString? = none)
    (harray : v.asArray? = none) : value c v schema = v := by
  unfold value
  cases c.resolve schema with
  | error f => rfl
  | ok declared =>
    cases v with
    | string s => cases hstring
    | array items => cases harray
    | _ => rfl

/-- A text becomes what it converts to, or stays. -/
theorem coerced_text (c : Contract) (schema : Json) (s : String) :
    Coerced c schema [] (.string s) (value c (.string s) schema) := by
  rw [value_string]
  cases hresolve : c.resolve schema with
  | error f =>
    refine .kept fun s' declared _ hstands => ?_
    cases hstands with
    | here h =>
      rw [hresolve] at h
      cases h
  | ok declared =>
    show Coerced c schema [] _ ((scalar? s (kindsOf declared)).getD (.string s))
    cases hs : scalar? s (kindsOf declared) with
    | some v => exact .converted (.here hresolve) (converts_of_scalar? hs)
    | none =>
      refine .kept fun s' declared' hs' hstands => ?_
      obtain rfl := Json.string.inj hs'
      cases hstands with
      | here h =>
        obtain rfl := Except.ok.inj (hresolve.symm.trans h)
        exact not_converts_of_scalar? hs

/-- A text converts to no text and to no array. -/
theorem Converts.isLeaf {declared v : Json} {s : String} (h : Converts declared s v) :
    v.asString? = none ∧ v.asArray? = none := by
  obtain ⟨hstring, kind, hkind, hhas, hv⟩ := h
  cases v with
  | string s' => cases kind <;> first | exact absurd hkind hstring | cases hhas
  | array items => cases kind <;> first | cases hv | cases hhas
  | _ => exact ⟨rfl, rfl⟩

theorem Coerced.eq_or_isLeaf {path : List Nat} {v : Json} {s : String}
    (h : Coerced c schema path (.string s) v) :
    v = .string s ∨ v.asString? = none ∧ v.asArray? = none := by
  cases h with
  | kept _ => exact Or.inl rfl
  | converted _ h => exact Or.inr h.isLeaf

/-- Where no schema stands nothing changes. -/
theorem coerced_self {path : List Nat} (h : ∀ declared, ¬ StandsAt c schema path declared)
    (v : Json) : Coerced c schema path v v :=
  .kept fun _ declared _ hstands => absurd hstands (h declared)

/-- An item is coerced in its array as it is by the schema of the items. -/
theorem Coerced.item {path : List Nat} {v w : Json} (hitems : HasItems c schema each)
    (h : Coerced c each path v w) (i : Nat) : Coerced c schema (i :: path) v w := by
  cases h with
  | array h => exact .array h
  | converted hstands h => exact .converted (.item i hitems hstands) h
  | kept h =>
    refine .kept fun s declared hv hstands => ?_
    cases hstands with
    | item _ hitems' hstands =>
      obtain ⟨declared', hresolve, -, heach⟩ := hitems
      obtain ⟨declared'', hresolve', -, heach'⟩ := hitems'
      obtain rfl := Except.ok.inj (hresolve.symm.trans hresolve')
      obtain rfl := Option.some.inj (heach.symm.trans heach')
      exact h s declared hv hstands

theorem rel_item {path : List Nat} {v? w? : Option Json} (hitems : HasItems c schema each)
    (h : Option.Rel (Coerced c each path) v? w?) (i : Nat) :
    Option.Rel (Coerced c schema (i :: path)) v? w? := by
  cases h with
  | none => exact .none
  | some h => exact .some (h.item hitems i)

theorem at?_cons_of_leaf {v : Json} (h : v.asArray? = none) (i : Nat) (path : List Nat) :
    at? v (i :: path) = none := by
  rw [at?, h]
  rfl

/-- **At every position of a value stands what its schema makes of the part there.** -/
theorem coerced_value (c : Contract) (v schema : Json) (path : List Nat) :
    Option.Rel (Coerced c schema path) (at? v path) (at? (value c v schema) path) := by
  induction path generalizing v schema with
  | nil =>
    refine .some ?_
    cases v with
    | string s => exact coerced_text c schema s
    | array items =>
      by_cases hitems : ∃ each, HasItems c schema each
      · obtain ⟨each, hitems⟩ := hitems
        rw [value_array hitems]
        exact .array (List.length_map _).symm
      · rw [value_array_eq_self (not_exists.mp hitems)]
        exact .array rfl
    | _ =>
      rw [value_eq_self_of_leaf rfl rfl]
      exact .kept nofun
  | cons i path ih =>
    cases v with
    | string s =>
      have harray : (value c (.string s) schema).asArray? = none := by
        rcases (coerced_text c schema s).eq_or_isLeaf with h | h
        · rw [h]
          rfl
        · exact h.2
      rw [at?_cons_of_leaf rfl, at?_cons_of_leaf harray]
      exact .none
    | array items =>
      by_cases hitems : ∃ each, HasItems c schema each
      · obtain ⟨each, hitems⟩ := hitems
        rw [value_array hitems]
        simp only [at?, Json.asArray?, Option.getD_some, List.getElem?_map]
        cases items[i]? with
        | none => exact .none
        | some v =>
          exact rel_item hitems (ih v each) i
      · rw [value_array_eq_self (not_exists.mp hitems)]
        have hnone : ∀ declared, ¬ StandsAt c schema (i :: path) declared := by
          rintro declared (_ | ⟨-, hitems', -⟩)
          exact hitems ⟨_, hitems'⟩
        cases at? (.array items) (i :: path) with
        | none => exact .none
        | some v => exact .some (coerced_self hnone v)
    | _ =>
      rw [value_eq_self_of_leaf rfl rfl, at?_cons_of_leaf rfl]
      exact .none

end

/-! ## Coercing again -/

theorem value_value_of_leaf {c : Contract} {v schema : Json} (hstring : v.asString? = none)
    (harray : v.asArray? = none) : value c (value c v schema) schema = value c v schema := by
  rw [value_eq_self_of_leaf hstring harray, value_eq_self_of_leaf hstring harray]

mutual

/-- What a value becomes is not coerced any further. -/
theorem value_value (c : Contract) : (v schema : Json) →
    value c (value c v schema) schema = value c v schema
  | .string s, schema => by
    rcases (coerced_text c schema s).eq_or_isLeaf with h | h
    · rw [h, h]
    · exact value_eq_self_of_leaf h.1 h.2
  | .array items, schema => by
    by_cases hitems : ∃ each, HasItems c schema each
    · obtain ⟨each, hitems⟩ := hitems
      rw [value_array hitems, value_array hitems, map_value_value]
    · rw [value_array_eq_self (not_exists.mp hitems), value_array_eq_self (not_exists.mp hitems)]
  | .null, _ | .bool _, _ | .number _, _ | .object _, _ => value_value_of_leaf rfl rfl

theorem map_value_value (c : Contract) : (items : List Json) → (each : Json) →
    (items.map (value c · each)).map (value c · each) = items.map (value c · each)
  | [], _ => rfl
  | v :: vs, each => by
    simp only [List.map_cons, value_value c v each, map_value_value c vs each]

end

/-! ## How deep calls nest -/

/-- **Calls nest no deeper than the value**, whatever schemas they come by. -/
theorem length_le_depth {c : Contract} {v schema : Json} {calls : List (Json × Json)}
    (h : List.IsChain (Calls c) ((v, schema) :: calls)) : calls.length ≤ depth v := by
  induction calls generalizing v schema with
  | nil => exact Nat.zero_le _
  | cons call calls ih =>
    obtain ⟨hcall, hcalls⟩ := List.isChain_cons_cons.mp h
    cases hcall with
    | item hmem _ => exact Nat.lt_of_le_of_lt (ih hcalls) (depth_lt_of_mem_array hmem)

/--
**Coercion touches convertible texts and nothing else.** It comes to an end, also where the schemas
of items lead back to themselves: its calls nest no deeper than the value. At each position an array
keeps its length, a text stays unless a schema stands there under which it converts, and every other
value stays. To coerce the result again changes nothing.
-/
theorem value_touches_leaves (c : Contract) (v schema : Json) :
    (∀ calls, List.IsChain (Calls c) ((v, schema) :: calls) → calls.length ≤ depth v) ∧
      (∀ path, Option.Rel (Coerced c schema path) (at? v path) (at? (value c v schema) path)) ∧
      value c (value c v schema) schema = value c v schema :=
  ⟨fun _ => length_le_depth, coerced_value c v schema, value_value c v schema⟩

/-! ## A schema of items that leads back to itself -/

/-- A reference to a schema of integers, and of arrays of what it refers to. -/
def toTree : Json := .object [("$ref", .string "#/components/schemas/Tree")]

def treeSchema : Json := .object [
  ("items", toTree),
  ("type", .array [.string "array", .string "integer"])]

def growing : Contract where
  root := [
    ("components", .object [("schemas", .object [("Tree", treeSchema)])]),
    ("openapi", .string "3.1.0")]
  version := "3.1.0"

/-- An array of a text that converts, an array of one that does and one that does not, and an
object. -/
def texts : Json :=
  .array [.string "1", .array [.string "-2", .string "x"], .object [("n", .string "3")]]

theorem hasItems_toTree : HasItems growing toTree toTree :=
  ⟨treeSchema, by decide, Or.inl (by decide), rfl⟩

/-- The deepest calls, and a text that became an integer. -/
theorem value_touches_leaves_tree :
    value growing texts toTree =
        .array [.int 1, .array [.int (-2), .string "x"], .object [("n", .string "3")]] ∧
      (List.IsChain (Calls growing) [(texts, toTree),
        (.array [.string "-2", .string "x"], toTree), (.string "x", toTree)] ∧ 2 ≤ depth texts) ∧
      Option.Rel (Coerced growing toTree [1, 0]) (some (.string "-2")) (some (.int (-2))) := by
  have hvalue : value growing texts toTree =
      .array [.int 1, .array [.int (-2), .string "x"], .object [("n", .string "3")]] := by decide
  have hchain : List.IsChain (Calls growing) [(texts, toTree),
      (.array [.string "-2", .string "x"], toTree), (.string "x", toTree)] :=
    .cons_cons (.item (by decide) hasItems_toTree)
      (.cons_cons (.item (by decide) hasItems_toTree) (.singleton _))
  obtain ⟨hdepth, htouched, -⟩ := value_touches_leaves growing texts toTree
  have hplace := htouched [1, 0]
  rw [hvalue] at hplace
  exact ⟨hvalue, ⟨hchain, hdepth _ hchain⟩, hplace⟩

end Coercion

end ApiContract
