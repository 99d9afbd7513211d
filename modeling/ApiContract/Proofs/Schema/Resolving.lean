import ApiContract.Proofs.Schema.Keywords
import ApiContract.Proofs.Schema.Restating
import ApiContract.Proofs.Url.Escaping
import Mathlib.Data.List.Induction
/-!
# Two readings of a reference

A reference into the components is followed in the contract as a pointer, and in a compiled schema as
the fragment of an address: with its escapes undone, with a rule of its own for the indices of
arrays, and in components that are made plain. The two lead to the same part exactly when all this
makes no difference to the keys on the way.
-/

namespace ApiContract

/-! ## Following keys -/

namespace Pointer

/-- The part of a value that keys lead to, one after the other. -/
def walk? (v : Json) (keys : List (List Char)) : Option Json := keys.foldlM child? v

@[simp] theorem walk?_nil (v : Json) : walk? v [] = some v := rfl

theorem walk?_cons (v : Json) (key : List Char) (keys : List (List Char)) :
    walk? v (key :: keys) = (child? v key).bind (walk? · keys) := List.foldlM_cons

theorem walk?_append (v : Json) (keys keys' : List (List Char)) :
    walk? v (keys ++ keys') = (walk? v keys).bind (walk? · keys') := List.foldlM_append

theorem walk?_concat (v : Json) (keys : List (List Char)) (key : List Char) :
    walk? v (keys ++ [key]) = (walk? v keys).bind (child? · key) := by
  rw [walk?_append]
  refine congrArg _ (funext fun w => ?_)
  rw [walk?_cons]
  exact Option.bind_fun_some (child? w key)

theorem find?_slash (v : Json) (cs : List Char) :
    find? v ('/' :: cs) = walk? v ((Text.splitOn '/' cs).map unescape) :=
  List.foldlM_map.symm

/-- The object with a single member, and so on inside of it, down to a value. -/
def nest (keys : List (List Char)) (v : Json) : Json :=
  keys.foldr (fun key w => .object [(String.ofList key, w)]) v

theorem child?_single (key key' : List Char) (v : Json) :
    child? (.object [(String.ofList key, v)]) key' = if key = key' then some v else none := by
  simp only [child?, Assoc.get?_cons, Assoc.get?_nil, String.ofList_inj]

theorem walk?_nest (keys keys' : List (List Char)) (v : Json) :
    walk? (nest keys v) (keys ++ keys') = walk? v keys' := by
  induction keys with
  | nil => rfl
  | cons key keys ih =>
    rw [List.cons_append, walk?_cons]
    show (child? (.object [(String.ofList key, nest keys v)]) key).bind _ = _
    rw [child?_single, if_pos rfl]
    exact ih

end Pointer

namespace Schema

open Pointer (child? walk? nest index? unescape)

/-- The part under a segment of a reference, if there is one. -/
def step? (v : Json) (segment : List Char) : Option Json :=
  match v with
  | .array items => (referenceIndex? segment).bind (items[·]?)
  | _ => v.member? (String.ofList (unescape segment))

theorem toOption_referenceStep (pointer : String) (v : Json) (segment : List Char) :
    (referenceStep pointer v segment).toOption = step? v segment := by
  cases v <;> simp only [referenceStep, step?]
  case array items =>
    cases referenceIndex? segment with
    | none => rfl
    | some n =>
      simp only [Option.bind_some]
      cases items[n]? <;> rfl
  all_goals cases Json.member? _ (String.ofList (unescape segment)) <;> rfl

/-- The part that the segments of a reference lead to. -/
def follow? (v : Json) (segments : List (List Char)) : Option Json := segments.foldlM step? v

theorem follow?_cons (v : Json) (segment : List Char) (segments : List (List Char)) :
    follow? v (segment :: segments) = (step? v segment).bind (follow? · segments) :=
  List.foldlM_cons

theorem toOption_foldlM (pointer : String) (v : Json) (segments : List (List Char)) :
    (segments.foldlM (referenceStep pointer) v).toOption = follow? v segments := by
  induction segments generalizing v with
  | nil => rfl
  | cons segment segments ih =>
    rw [List.foldlM_cons, follow?_cons, ← toOption_referenceStep pointer]
    cases referenceStep pointer v segment with
    | error f => rfl
    | ok w => exact ih w

/-- Where both rules for indices say the same, a segment leads where its key does. -/
theorem step?_eq_child? {segment : List Char}
    (h : index? (unescape segment) = referenceIndex? segment) (v : Json) :
    step? v segment = child? v (unescape segment) := by
  cases v <;> simp [step?, child?, Json.member?, Json.asObject?, h]

theorem follow?_eq_walk? {segments : List (List Char)}
    (h : ∀ s ∈ segments, index? (unescape s) = referenceIndex? s) (v : Json) :
    follow? v segments = walk? v (segments.map unescape) := by
  induction segments generalizing v with
  | nil => rfl
  | cons s segments ih =>
    rw [List.forall_mem_cons] at h
    rw [follow?_cons, List.map_cons, Pointer.walk?_cons, step?_eq_child? h.1]
    exact congrArg _ (funext (ih h.2))

/-! ## Components made plain -/

/-- Whether a value is another one made plain, where the other stands under a key: kinds and listed
values may be widened besides. -/
inductive PlainUnder (key : List Char) (v : Json) : Json → Prop where
  | plain : PlainUnder key v (normalize v)
  | kinds (h : key = "type".toList) : PlainUnder key v (widenKinds (normalize v))
  | values (h : key = "enum".toList) : PlainUnder key v (widenValues (normalize v))

/-- A schema is only made plain. -/
theorem PlainUnder.eq_of_shaped {key : List Char} {v w : Json} (h : PlainUnder key v w)
    (hv : Shaped v) : w = normalize v := by
  rcases hv with ⟨members, rfl⟩ | ⟨b, rfl⟩ <;> cases h <;> rfl

/-- Nothing is widened but kinds and values. -/
theorem PlainUnder.eq_normalize {key : List Char} {v w : Json} (h : PlainUnder key v w)
    (ht : key ≠ "type".toList) (he : key ≠ "enum".toList) : w = normalize v := by
  cases h with
  | plain => rfl
  | kinds h => exact absurd h ht
  | values h => exact absurd h he

/-- An object is made plain member by member. -/
theorem exists_plain_members (members : Assoc Json) :
    ∃ f : String × Json → String × Json, widen (normalizeMembers members) = members.map f ∧
      ∀ e, (f e).1 = e.1 ∧ PlainUnder e.1.toList e.2 (f e).2 := by
  rw [normalizeMembers_eq_map]
  unfold widen
  split
  · simp only [Assoc.modify, List.map_map]
    refine ⟨_, rfl, fun e => ?_⟩
    simp only [Function.comp]
    by_cases ht : e.1 = "type"
    · rw [if_pos ht, if_neg (by simp [ht])]
      exact ⟨rfl, .kinds (by rw [ht])⟩
    · rw [if_neg ht]
      dsimp only
      split
      · next he => exact ⟨rfl, .values (by rw [he])⟩
      · exact ⟨rfl, .plain⟩
  · exact ⟨_, rfl, fun e => ⟨rfl, .plain⟩⟩

/-- A part of a value made plain is the part made plain. -/
theorem child?_normalize (v : Json) (key : List Char) :
    Option.Rel (PlainUnder key) (child? v key) (child? (normalize v) key) := by
  cases v with
  | object members =>
    simp only [normalize, child?]
    have hplain := get?_normalizeMembers members (String.ofList key)
    unfold widen
    split
    · rw [Assoc.get?_modify, Assoc.get?_modify, hplain]
      cases Assoc.get? members (String.ofList key) with
      | none => split <;> split <;> exact .none
      | some w =>
        simp only [Option.map_some]
        split
        · next he =>
          rw [if_neg (by rw [← he]; decide)]
          exact .some (.values (String.ofList_injective (by rw [← he]; rfl)))
        · split
          · next ht => exact .some (.kinds (String.ofList_injective (by rw [← ht]; rfl)))
          · exact .some .plain
    · rw [hplain]
      cases Assoc.get? members (String.ofList key) with
      | none => exact .none
      | some w => exact .some .plain
  | array items =>
    simp only [normalize, child?, normalizeItems_eq_map]
    cases index? key with
    | none => exact .none
    | some n =>
      simp only [Option.bind_some, List.getElem?_map]
      cases items[n]? with
      | none => exact .none
      | some w => exact .some .plain
  | _ => exact .none

/-- Whether the last of some keys may name what widening adds: an index into kinds or values. -/
def namesAddition : List (List Char) → Bool
  | [word, index] =>
    (word == "type".toList || word == "enum".toList) && (index? index).isSome
  | _ :: keys => namesAddition keys
  | [] => false

theorem namesAddition_append (keys : List (List Char)) (word index : List Char) :
    namesAddition (keys ++ [word, index]) =
      ((word == "type".toList || word == "enum".toList) && (index? index).isSome) := by
  induction keys with
  | nil => rfl
  | cons key keys ih =>
    rw [List.cons_append, ← ih]
    cases keys with
    | nil => rfl
    | cons key' keys => cases keys <;> rfl

theorem exists_of_namesAddition {keys : List (List Char)} (h : namesAddition keys = true) :
    ∃ front word index n, keys = front ++ [word, index] ∧
      (word = "type".toList ∨ word = "enum".toList) ∧ index? index = some n := by
  fun_induction namesAddition keys with
  | case1 word index =>
    simp only [Bool.and_eq_true, Bool.or_eq_true, beq_iff_eq] at h
    obtain ⟨n, hn⟩ := Option.isSome_iff_exists.mp h.2
    exact ⟨[], word, index, n, rfl, h.1, hn⟩
  | case2 key keys _ ih =>
    obtain ⟨front, word, index, n, rfl, hword, hn⟩ := ih h
    exact ⟨key :: front, word, index, n, rfl, hword, hn⟩
  | case3 => cases h

/-- Whether a key finds nothing in a value, and in what it was made plain to a part that holds no
others: one that widening added. -/
structure FindsAddition (key : List Char) (v w : Json) : Prop where
  missing : child? v key = none
  added : ∃ leaf, child? w key = some leaf ∧ ∀ key, child? leaf key = none
  index : (index? key).isSome = true

/-- An item of an array that was made plain and has one more. -/
theorem child?_concat (items : List Json) {leaf : Json} (hleaf : ∀ key, child? leaf key = none)
    (key : List Char) :
    Option.Rel (PlainUnder key) (child? (.array items) key)
        (child? (.array (items.map normalize ++ [leaf])) key) ∨
      FindsAddition key (.array items) (.array (items.map normalize ++ [leaf])) := by
  cases hkey : index? key with
  | none =>
    simp only [child?, hkey]
    exact Or.inl .none
  | some n =>
    rcases Nat.lt_trichotomy n items.length with hn | rfl | hn
    · simp only [child?, hkey, Option.bind_some]
      rw [List.getElem?_append_left (by simpa using hn), List.getElem?_map,
        List.getElem?_eq_getElem hn]
      exact Or.inl (.some .plain)
    · exact Or.inr ⟨by simp [child?, hkey], ⟨leaf, by simp [child?, hkey], hleaf⟩, by simp [hkey]⟩
    · simp only [child?, hkey, Option.bind_some]
      rw [List.getElem?_eq_none (by omega), List.getElem?_eq_none (by simp; omega)]
      exact Or.inl .none

/-- **What is below a value is below it made plain**, and besides there is only what is added to
kinds and listed values. -/
theorem PlainUnder.child? {key : List Char} {v w : Json} (h : PlainUnder key v w)
    (key' : List Char) :
    Option.Rel (PlainUnder key') (child? v key') (child? w key') ∨
      FindsAddition key' v w ∧ (key = "type".toList ∨ key = "enum".toList) := by
  have hplain := child?_normalize v key'
  cases h with
  | plain => exact Or.inl hplain
  | kinds hkey =>
    cases v with
    | string name =>
      -- one kind is made a list of two
      cases hn : index? key' with
      | none => exact Or.inl (by simp only [normalize, widenKinds, Pointer.child?, hn]; exact .none)
      | some n =>
        have hadds : ∀ leaf : Json, Pointer.child? (widenKinds (.string name)) key' = some leaf →
            (∀ key, Pointer.child? leaf key = none) → FindsAddition key' (.string name)
              (widenKinds (.string name)) := fun leaf hchild hleaf =>
          ⟨rfl, ⟨leaf, hchild, hleaf⟩, by rw [hn]; rfl⟩
        rcases n with _ | _ | n
        · exact Or.inr ⟨hadds (.string name) (by simp [widenKinds, Pointer.child?, hn])
            fun _ => rfl, Or.inl hkey⟩
        · exact Or.inr ⟨hadds (.string "null") (by simp [widenKinds, Pointer.child?, hn])
            fun _ => rfl, Or.inl hkey⟩
        · exact Or.inl (by simp only [normalize, widenKinds, Pointer.child?, hn]; exact .none)
    | array items =>
      simp only [normalize, widenKinds, normalizeItems_eq_map] at hplain ⊢
      split
      · exact Or.inl hplain
      · exact (child?_concat items (fun _ => rfl) key').imp_right (⟨·, Or.inl hkey⟩)
    | _ => exact Or.inl hplain
  | values hkey =>
    cases v with
    | array items =>
      simp only [normalize, widenValues, normalizeItems_eq_map] at hplain ⊢
      split
      · exact Or.inl hplain
      · exact (child?_concat items (fun _ => rfl) key').imp_right (⟨·, Or.inr hkey⟩)
    | _ => exact Or.inl hplain

/-- **Keys lead to the same part of a value and of the value made plain**, unless the last of them
names what widening adds. -/
theorem walk?_normalize (v : Json) (keys : List (List Char)) (h : namesAddition keys = false) :
    Option.Rel (PlainUnder (keys.getLastD [])) (walk? v keys) (walk? (normalize v) keys) := by
  -- what widening adds is no object or array, so it ends the way
  suffices hrun : Option.Rel (PlainUnder (keys.getLastD [])) (walk? v keys)
      (walk? (normalize v) keys) ∨ walk? v keys = none ∧
        (∃ leaf, walk? (normalize v) keys = some leaf ∧ ∀ key, Pointer.child? leaf key = none) ∧
          namesAddition keys = true by
    exact hrun.resolve_right fun hadd => by simp [h] at hadd
  clear h
  induction keys using List.reverseRecOn with
  | nil => exact Or.inl (.some .plain)
  | append_singleton keys key ih =>
    rw [Pointer.walk?_concat, Pointer.walk?_concat, List.getLastD_concat]
    rcases ih with hrel | ⟨hv, ⟨leaf, hw, hleaf⟩, -⟩
    · generalize walk? v keys = a at hrel
      generalize walk? (normalize v) keys = b at hrel
      cases hrel with
      | none => exact Or.inl .none
      | some hplain =>
        rcases hplain.child? key with hrel | ⟨hadds, hkey⟩
        · exact Or.inl hrel
        · refine Or.inr ⟨hadds.missing, hadds.added, ?_⟩
          rcases keys.eq_nil_or_concat' with rfl | ⟨front, word, rfl⟩
          · rcases hkey with hkey | hkey <;> exact absurd hkey (by decide)
          · rw [List.getLastD_concat] at hkey
            rw [List.append_assoc, List.singleton_append, namesAddition_append, hadds.index]
            rcases hkey with rfl | rfl <;> rfl
    · rw [hv, hw]
      exact Or.inl (by rw [Option.bind_some, hleaf]; exact .none)

/-! ## What a compiled reference leads to -/

/-- A reference into the components, by what stands behind them. -/
def intoComponents (rest : String) : String := "#/components/" ++ rest

/-- The keys that lead on from the components, as the contract reads a reference. -/
def writtenKeys (rest : String) : List (List Char) := (Text.splitOn '/' rest.toList).map unescape

/-- The segments that lead on from the components, as a compiled schema reads a reference. -/
def decodedSegments? (rest : String) : Option (List (List Char)) :=
  (Utf8.decode? (Percent.decode (Utf8.encode rest.toList))).map (Text.splitOn '/')

theorem toList_intoComponents (rest : String) :
    (intoComponents rest).toList = '#' :: '/' :: ("components".toList ++ '/' :: rest.toList) := by
  rw [intoComponents, String.toList_append]
  rfl

theorem toOption_resolveReference (c : Contract) (rest : String) :
    (c.resolveReference (intoComponents rest)).toOption =
      c.components?.bind (walk? · (writtenKeys rest)) := by
  have hfind : Pointer.find? c.document ('/' :: ("components".toList ++ '/' :: rest.toList)) =
      c.components?.bind (walk? · (writtenKeys rest)) := by
    rw [Pointer.find?_slash, Text.splitOn_append_cons (by decide), List.map_cons,
      Pointer.walk?_cons]
    rfl
  simp only [Contract.resolveReference, toList_intoComponents, hfind]
  cases c.components?.bind (walk? · (writtenKeys rest)) <;> rfl

/-- A text without escapes is left when the escapes behind it are undone. -/
theorem decode?_append {front : List Char} (h : '%' ∉ front) (cs : List Char) :
    Utf8.decode? (Percent.decode (Utf8.encode (front ++ cs))) =
      (Utf8.decode? (Percent.decode (Utf8.encode cs))).map (front ++ ·) := by
  have hbytes : 37 ∉ Utf8.encode front := by
    simp only [Utf8.encode, List.mem_flatMap, not_exists, not_and]
    exact fun c hc => Utf8.not_mem_encodeChar fun heq => h (heq ▸ hc)
  rw [Utf8.encode_append, Percent.decode_append_of_not_mem hbytes]
  clear hbytes h
  generalize Percent.decode (Utf8.encode cs) = bs
  induction front with
  | nil => exact Option.map_id'.symm
  | cons c front ih =>
    rw [Utf8.encode_cons, List.append_assoc, Utf8.decode?, Utf8.read_encodeChar, List.mapM_cons]
    show ((Utf8.decode? (Utf8.encode front ++ bs)).bind fun ds => some (c :: ds)) = _
    rw [ih]
    cases Utf8.decode? bs <;> rfl

/-- Where a reference leads when it is compiled as a schema. -/
def compiledTarget (x : Compiler) (target : String) : Except Fault Json :=
  resolveReference (x.document (reference target)) target

theorem toOption_compiledTarget (c : Contract) (formats : Bool) (rest : String) :
    (compiledTarget (.ofContract c formats) (intoComponents rest)).toOption =
      c.components?.bind fun v => (decodedSegments? rest).bind (follow? (normalize v)) := by
  have hfollow : ∀ root : Json, (resolveReference root (intoComponents rest)).toOption =
      (decodedSegments? rest).bind fun segments =>
        (root.member? "components").bind (follow? · segments) := by
    intro root
    unfold resolveReference
    rw [toList_intoComponents]
    simp only [resolveFragment]
    rw [show "components".toList ++ '/' :: rest.toList = "components/".toList ++ rest.toList from rfl,
      decode?_append (by decide), decodedSegments?]
    cases Utf8.decode? (Percent.decode (Utf8.encode rest.toList)) with
    | none => rfl
    | some decoded =>
      simp only [Option.map_some, Option.bind_some]
      rw [toOption_foldlM, show "components/".toList ++ decoded = "components".toList ++ '/' :: decoded
        from rfl, Text.splitOn_append_cons (by decide), follow?_cons]
      cases root <;> rfl
  rw [compiledTarget, hfollow, Compiler.document, normalize_reference]
  cases hc : c.components? with
  | none =>
    simp only [Compiler.ofContract, hc, Option.map_none, reference]
    cases decodedSegments? rest <;> rfl
  | some v =>
    simp only [Compiler.ofContract, hc, Option.map_some, reference]
    cases decodedSegments? rest <;> rfl

/-- A reference that compiles means the part that it leads to. -/
theorem exists_compiledTarget {x : Compiler} {target route : String} {c : Compiled}
    (h : x.compile (reference target) route = .ok c) :
    ∃ w, compiledTarget x target = .ok w ∧
      c.definitions.get? target = some (read x.dialect x.formats w).result := by
  have hl := Compiler.linked_of_compile h
  have hentered := hl.entered target (by
    rw [Compiler.document_eq, read_withComponents, normalize_reference, read_reference]
    exact List.mem_cons_self)
  obtain ⟨s, hs⟩ := Option.isSome_iff_exists.mp hentered
  obtain ⟨w, hw, -, rfl, -⟩ := hl.settled target s hs
  exact ⟨w, hw, hs⟩

/-! ## References that are read alike -/

/-- Whether a reference into the components is followed alike in the contract and in a schema that is
compiled from it: both lead nowhere, or to one part and to that part made plain. -/
structure ResolvedAlike (c : Contract) (formats : Bool) (rest : String) : Prop where
  defined : (∃ v, c.resolveReference (intoComponents rest) = .ok v) ↔
    ∃ w, compiledTarget (.ofContract c formats) (intoComponents rest) = .ok w
  same : ∀ v w, c.resolveReference (intoComponents rest) = .ok v →
    compiledTarget (.ofContract c formats) (intoComponents rest) = .ok w →
      PlainUnder ((writtenKeys rest).getLastD []) v w

theorem resolvedAlike_iff {c : Contract} {formats : Bool} {rest : String} :
    ResolvedAlike c formats rest ↔ Option.Rel (PlainUnder ((writtenKeys rest).getLastD []))
      (c.components?.bind (walk? · (writtenKeys rest)))
      (c.components?.bind fun v => (decodedSegments? rest).bind (follow? (normalize v))) := by
  rw [← toOption_resolveReference, ← toOption_compiledTarget c formats]
  constructor
  · rintro ⟨hdefined, hsame⟩
    cases hv : c.resolveReference (intoComponents rest) <;>
      cases hw : compiledTarget (.ofContract c formats) (intoComponents rest) <;>
        simp only [hv, hw, Except.ok.injEq, reduceCtorEq, exists_false, exists_eq', iff_true,
          iff_false, not_true_eq_false] at hdefined
    · exact .none
    · exact .some (hsame _ _ hv hw)
  · intro h
    refine ⟨?_, fun v w hv hw => ?_⟩
    · cases hv : c.resolveReference (intoComponents rest) <;>
        cases hw : compiledTarget (.ofContract c formats) (intoComponents rest) <;>
          rw [hv, hw] at h <;> simp only [Except.ok.injEq, reduceCtorEq, exists_false, exists_eq'] <;>
            cases h
    · rw [hv, hw] at h
      cases h with
      | some h => exact h

/-- Whether nothing in a reference is read in two ways: undoing the escapes leaves the keys, a segment
is an index by both rules or by neither, and the last key does not name what widening may add. -/
def ReadAlike (rest : String) : Prop :=
  ∃ segments ∈ decodedSegments? rest, segments.map unescape = writtenKeys rest ∧
    (∀ s ∈ segments, index? (unescape s) = referenceIndex? s) ∧
      namesAddition (writtenKeys rest) = false

instance (rest : String) : Decidable (ReadAlike rest) :=
  decidable_of_iff ((decodedSegments? rest).any fun segments =>
    decide (segments.map unescape = writtenKeys rest ∧
      (∀ s ∈ segments, index? (unescape s) = referenceIndex? s) ∧
        namesAddition (writtenKeys rest) = false)) (by
    unfold ReadAlike
    cases decodedSegments? rest <;> simp)

/-- What is read in one way leads to one part. -/
theorem resolvedAlike_of_readAlike {rest : String} (h : ReadAlike rest) (c : Contract)
    (formats : Bool) : ResolvedAlike c formats rest := by
  obtain ⟨segments, hsegments, hkeys, hindices, haddition⟩ := h
  rw [resolvedAlike_iff, Option.mem_def.mp hsegments]
  cases c.components? with
  | none => exact .none
  | some v =>
    simp only [Option.bind_some]
    rw [follow?_eq_walk? hindices, hkeys]
    exact walk?_normalize v _ haddition

/-! ## References that are not -/

open Pointer (walk?_nest)

/-- A contract of some components. -/
def holding (components : Json) : Contract where
  root := [("components", components), ("openapi", .string "3.0.3")]
  version := "3.0.3"

theorem eq_bool_of_normalize {v : Json} {b : Bool} (h : normalize v = .bool b) : v = .bool b := by
  cases v <;> simp_all [normalize]

theorem normalize_nest (keys : List (List Char)) {v : Json} (hv : v ≠ .bool true) :
    normalize (nest keys v) = nest keys (normalize v) ∧ nest keys v ≠ .bool true := by
  induction keys with
  | nil => exact ⟨rfl, hv⟩
  | cons key keys ih =>
    have hmembers : widen [(String.ofList key, normalize (nest keys v))] =
        [(String.ofList key, normalize (nest keys v))] := by
      refine if_neg ?_
      rw [Assoc.get?_cons, Assoc.get?_nil]
      split
      · exact fun h => ih.2 (eq_bool_of_normalize (Option.some.inj h))
      · exact nofun
    refine ⟨?_, nofun⟩
    show Json.object (widen [(String.ofList key, normalize (nest keys v))]) = _
    rw [hmembers, ih.1]
    rfl

theorem step?_single (key segment : List Char) (v : Json) :
    step? (.object [(String.ofList key, v)]) segment =
      if key = unescape segment then some v else none :=
  Pointer.child?_single key (unescape segment) v

/-- The segments that lead down a nest spell its keys. -/
theorem map_unescape_of_follow?_nest {keys segments : List (List Char)}
    (h : follow? (nest keys (.bool false)) segments = some (.bool false)) :
    segments.map unescape = keys := by
  induction keys generalizing segments with
  | nil =>
    cases segments with
    | nil => rfl
    | cons s segments =>
      rw [follow?_cons] at h
      cases h
  | cons key keys ih =>
    cases segments with
    | nil => cases h
    | cons s segments =>
      rw [follow?_cons] at h
      change (step? (.object [(String.ofList key, nest keys _)]) s).bind _ = _ at h
      rw [step?_single] at h
      split at h
      · next hkey => rw [List.map_cons, ih h, hkey]
      · cases h

theorem follow?_nest (segments segments' : List (List Char)) (v : Json) :
    follow? (nest (segments.map unescape) v) (segments ++ segments') = follow? v segments' := by
  induction segments with
  | nil => rfl
  | cons s segments ih =>
    rw [List.cons_append, follow?_cons]
    show (step? (.object [(String.ofList (unescape s), nest (segments.map unescape) v)]) s).bind _ = _
    rw [step?_single, if_pos rfl]
    exact ih

/-- Where all contracts agree on a reference, the parts agree that it leads to in given components. -/
theorem rel_of_resolvedAlike {rest : String}
    (h : ∀ c formats, ResolvedAlike c formats rest) (components : Json) :
    Option.Rel (PlainUnder ((writtenKeys rest).getLastD []))
      (walk? components (writtenKeys rest))
      ((decodedSegments? rest).bind (follow? (normalize components))) :=
  resolvedAlike_iff.mp (h (holding components) true)

/-- A flag at the end of a way is found as it is. -/
theorem eq_some_of_rel {key : List Char} {b : Bool} {w : Option Json}
    (h : Option.Rel (PlainUnder key) (some (.bool b)) w) : w = some (.bool b) := by
  cases h with
  | some h => rw [h.eq_of_shaped (Or.inr ⟨b, rfl⟩)]; rfl

/-- What leads to the end of each nest is decoded to the keys as they are written. -/
theorem exists_decoded {rest : String} (h : ∀ c formats, ResolvedAlike c formats rest) :
    ∃ segments, decodedSegments? rest = some segments ∧ segments.map unescape = writtenKeys rest := by
  have hrel := rel_of_resolvedAlike h (nest (writtenKeys rest) (.bool false))
  have hwalk := walk?_nest (writtenKeys rest) [] (.bool false)
  rw [List.append_nil] at hwalk
  rw [hwalk, (normalize_nest _ (by decide)).1] at hrel
  obtain ⟨segments, hsegments, hfollow⟩ := Option.bind_eq_some_iff.mp (eq_some_of_rel hrel)
  exact ⟨segments, hsegments, map_unescape_of_follow?_nest hfollow⟩

/-- An array with a value at an index, and nothing behind it. -/
def holdingAt (n : Nat) (v : Json) : Json := .array (List.replicate n .null ++ [v])

theorem normalize_holdingAt (n : Nat) (v : Json) :
    normalize (holdingAt n v) = holdingAt n (normalize v) := by
  simp [holdingAt, normalize, normalizeItems_eq_map]

theorem child?_holdingAt {key : List Char} {n : Nat} (h : index? key = some n) (v : Json) :
    child? (holdingAt n v) key = some v := by
  simp [holdingAt, child?, h]

theorem step?_holdingAt {s : List Char} {n : Nat} (h : referenceIndex? s = some n) (v : Json) :
    step? (holdingAt n v) s = some v := by
  simp [holdingAt, step?, h]

/-- A segment that leads on from an array with one value of interest is its index. -/
theorem referenceIndex?_of_follow? {n : Nat} {v : Json} {s : List Char}
    {segments : List (List Char)} {b : Bool}
    (h : follow? (holdingAt n v) (s :: segments) = some (.bool b)) :
    referenceIndex? s = some n := by
  rw [follow?_cons] at h
  obtain ⟨w, hw, h⟩ := Option.bind_eq_some_iff.mp h
  simp only [holdingAt, step?] at hw
  obtain ⟨m, hm, hw⟩ := Option.bind_eq_some_iff.mp hw
  rcases Nat.lt_trichotomy m n with hlt | rfl | hgt
  · rw [List.getElem?_append_left (by simpa using hlt), List.getElem?_replicate, if_pos hlt] at hw
    obtain rfl := Option.some.inj hw
    cases segments with
    | nil => cases h
    | cons s segments => rw [follow?_cons] at h; cases h
  · exact hm
  · rw [List.getElem?_eq_none (by simp; omega)] at hw
    cases hw

/-- Where all contracts agree on a reference, a segment is an index by both rules or by neither. -/
theorem index?_eq_of_resolvedAlike {rest : String} (h : ∀ c formats, ResolvedAlike c formats rest)
    {front back : List (List Char)} {s : List Char}
    (hsegments : decodedSegments? rest = some (front ++ s :: back))
    (hkeys : (front ++ s :: back).map unescape = writtenKeys rest) :
    index? (unescape s) = referenceIndex? s := by
  -- components where the segment meets an array, and the way ends behind one of its indices
  let way := nest (back.map unescape) (.bool false)
  have hwalk : walk? way (back.map unescape) = some (.bool false) := by
    have hend := walk?_nest (back.map unescape) [] (.bool false)
    rwa [List.append_nil] at hend
  have hfollow : follow? way back = some (.bool false) := by
    have hend := follow?_nest back [] (.bool false)
    rwa [List.append_nil] at hend
  have hrel : ∀ n, ∃ key, Option.Rel (PlainUnder key)
      (walk? (holdingAt n way) (unescape s :: back.map unescape))
      (follow? (holdingAt n way) (s :: back)) := by
    intro n
    have hrel := rel_of_resolvedAlike h (nest (front.map unescape) (holdingAt n way))
    rw [(normalize_nest _ (by simp [holdingAt])).1, normalize_holdingAt,
      (normalize_nest _ (by decide)).1, hsegments, Option.bind_some, follow?_nest, ← hkeys,
      List.map_append, List.map_cons, walk?_nest] at hrel
    exact ⟨_, hrel⟩
  cases hn : index? (unescape s) with
  | some n =>
    obtain ⟨key, hfound⟩ := hrel n
    rw [Pointer.walk?_cons, child?_holdingAt hn, Option.bind_some, hwalk] at hfound
    exact (referenceIndex?_of_follow? (eq_some_of_rel hfound)).symm
  | none =>
    cases hm : referenceIndex? s with
    | none => rfl
    | some m =>
      obtain ⟨key, hfound⟩ := hrel m
      rw [Pointer.walk?_cons, holdingAt, child?, hn, ← holdingAt, follow?_cons,
        step?_holdingAt hm, Option.bind_some, hfollow] at hfound
      cases hfound

/-- A nullable schema with so many kinds, or so many listed values. -/
def nullableOf (word : String) (n : Nat) : Json :=
  .object (Assoc.insert [("nullable", .bool true)] word (.array (List.replicate n (.bool true))))

theorem nullableOf_type (n : Nat) : nullableOf "type" n =
    .object [("nullable", .bool true), ("type", .array (List.replicate n (.bool true)))] := rfl

theorem nullableOf_enum (n : Nat) : nullableOf "enum" n =
    .object [("enum", .array (List.replicate n (.bool true))), ("nullable", .bool true)] := rfl

theorem widened_nullableOf {word index : List Char} {n : Nat}
    (hword : word = "type".toList ∨ word = "enum".toList) (hn : index? index = some n) :
    walk? (nullableOf (String.ofList word) n) [word, index] = none ∧
      ∃ w, walk? (normalize (nullableOf (String.ofList word) n)) [word, index] = some w := by
  rcases hword with rfl | rfl <;> rw [String.ofList_toList]
  · refine ⟨?_, .string "null", ?_⟩
    · simp [nullableOf_type, Pointer.walk?_cons, child?, Assoc.get?_cons, hn]
    · simp [nullableOf_type, Pointer.walk?_cons, child?, Assoc.get?_cons, hn, normalize,
        normalizeMembers, normalizeItems_eq_map, widen, Assoc.modify, widenKinds]
  · refine ⟨?_, .null, ?_⟩
    · simp [nullableOf_enum, Pointer.walk?_cons, child?, Assoc.get?_cons, hn]
    · simp [nullableOf_enum, Pointer.walk?_cons, child?, Assoc.get?_cons, hn, normalize,
        normalizeMembers, normalizeItems_eq_map, widen, Assoc.modify, widenValues]

/-- Where all contracts agree on a reference, it does not name what widening may add. -/
theorem namesAddition_of_resolvedAlike {rest : String}
    (h : ∀ c formats, ResolvedAlike c formats rest) {segments : List (List Char)}
    (hsegments : decodedSegments? rest = some segments)
    (hkeys : segments.map unescape = writtenKeys rest)
    (hindices : ∀ s ∈ segments, index? (unescape s) = referenceIndex? s) :
    namesAddition (writtenKeys rest) = false := by
  rw [← Bool.not_eq_true]
  intro haddition
  obtain ⟨front, word, index, n, hfront, hword, hn⟩ := exists_of_namesAddition haddition
  obtain ⟨hnone, w, hw⟩ := widened_nullableOf hword hn
  have hrel := rel_of_resolvedAlike h (nest front (nullableOf (String.ofList word) n))
  rw [(normalize_nest _ (by simp [nullableOf])).1, hsegments, Option.bind_some,
    follow?_eq_walk? hindices, hkeys, hfront, walk?_nest, walk?_nest, hnone, hw] at hrel
  cases hrel

/-- **The references into the components on which all contracts agree** with the schemas that are
compiled from them are those that are read in one way. -/
theorem resolvedAlike_iff_readAlike (rest : String) :
    (∀ c formats, ResolvedAlike c formats rest) ↔ ReadAlike rest := by
  refine ⟨fun h => ?_, resolvedAlike_of_readAlike⟩
  obtain ⟨segments, hsegments, hkeys⟩ := exists_decoded h
  have hindices : ∀ s ∈ segments, index? (unescape s) = referenceIndex? s := by
    intro s hs
    obtain ⟨front, back, rfl⟩ := List.append_of_mem hs
    exact index?_eq_of_resolvedAlike h hsegments hkeys
  exact ⟨segments, hsegments, hkeys, hindices,
    namesAddition_of_resolvedAlike h hsegments hkeys hindices⟩

example : ReadAlike "schemas/Pet" ∧ ReadAlike "schemas/a~1b" ∧ ReadAlike "schemas/Pet/allOf/0" ∧
    ¬ ReadAlike "schemas/a%20b" ∧ ¬ ReadAlike "schemas/Pet/allOf/+1" ∧
      ¬ ReadAlike "schemas/Pet/enum/2" := by decide +kernel

/-- An escape is undone in a schema, and not in the contract: the one compiles, the other dangles. -/
theorem not_resolvedAlike_escaped :
    let c := holding (.object [("schemas", .object [("a b", .object [("type", .string "object")])])])
    c.resolveReference (intoComponents "schemas/a%20b") = .error (.contractShape
        "#/components/schemas/a%20b" (.danglingReference "#/components/schemas/a%20b")) ∧
      (∃ s, (Compiler.ofContract c true).compile
        (reference (intoComponents "schemas/a%20b")) "/a" = .ok s) ∧
      ¬ ResolvedAlike c true "schemas/a%20b" := by
  intro c
  have hdangling : c.resolveReference (intoComponents "schemas/a%20b") = .error (.contractShape
      "#/components/schemas/a%20b" (.danglingReference "#/components/schemas/a%20b")) := by
    decide +kernel
  have hcompiled : ((Compiler.ofContract c true).compile
      (reference (intoComponents "schemas/a%20b")) "/a").toOption.isSome = true := by
    decide +kernel
  obtain ⟨s, hs⟩ := Option.isSome_iff_exists.mp hcompiled
  have hs := Except.toOption_eq_some_iff.mp hs
  obtain ⟨w, hw, -⟩ := exists_compiledTarget hs
  refine ⟨hdangling, ⟨s, hs⟩, fun h => ?_⟩
  obtain ⟨v, hv⟩ := h.defined.mpr ⟨w, hw⟩
  rw [hdangling] at hv
  cases hv

end Schema

end ApiContract
