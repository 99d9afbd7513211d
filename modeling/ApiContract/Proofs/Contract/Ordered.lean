import ApiContract.Contract.Loading
import ApiContract.Proofs.Failing
import ApiContract.Proofs.Json.Ordered
/-!
# What is read is ordered

Reading a text, JSON or YAML, puts every member in its place, so a contract that is loaded is
ordered.
-/

namespace ApiContract

/-! ## Reading YAML -/

namespace Yaml.Tree

mutual

/-- What is read from a tree is ordered. -/
theorem isOrdered_of_toJson : (t : Tree) → (v : Json) → t.toJson = .ok v → v.isOrdered = true
  | .sequence items, v, h => by
    obtain ⟨vs, hvs, h⟩ := Except.bind_eq_ok_iff.mp h
    obtain rfl := Except.ok.inj h
    exact Json.isOrdered_array_iff.mpr (isOrdered_of_itemsToJson items vs hvs)
  | .mapping entries, v, h => by
    obtain ⟨members, hmembers, h⟩ := Except.bind_eq_ok_iff.mp h
    obtain rfl := Except.ok.inj h
    exact isOrdered_of_entriesToJson entries [] members rfl hmembers
  | .tagged _ content, v, h => isOrdered_of_toJson content v h
  | .null, v, h => by obtain rfl := Except.ok.inj h; rfl
  | .bool _, v, h => by obtain rfl := Except.ok.inj h; rfl
  | .int _, v, h => by obtain rfl := Except.ok.inj h; rfl
  | .real _, v, h => by obtain rfl := Except.ok.inj h; rfl
  | .infinity _, v, h => by obtain rfl := Except.ok.inj h; rfl
  | .notANumber, v, h => by obtain rfl := Except.ok.inj h; rfl
  | .text _, v, h => by obtain rfl := Except.ok.inj h; rfl

theorem isOrdered_of_itemsToJson : (items : List Tree) → (vs : List Json) →
    itemsToJson items = .ok vs → ∀ v ∈ vs, v.isOrdered = true
  | [], vs, h => by
    obtain rfl := Except.ok.inj h
    exact fun _ hv => absurd hv List.not_mem_nil
  | t :: ts, vs, h => by
    obtain ⟨w, hw, h⟩ := Except.bind_eq_ok_iff.mp h
    obtain ⟨ws, hws, h⟩ := Except.bind_eq_ok_iff.mp h
    obtain rfl := Except.ok.inj h
    exact List.forall_mem_cons.mpr
      ⟨isOrdered_of_toJson t w hw, isOrdered_of_itemsToJson ts ws hws⟩

/-- Each entry is put in where the order wants it. -/
theorem isOrdered_of_entriesToJson : (entries : List (Tree × Tree)) → (members after : Assoc Json) →
    (Json.object members).isOrdered = true → entriesToJson members entries = .ok after →
    (Json.object after).isOrdered = true
  | [], members, after, hmembers, h => by
    obtain rfl := Except.ok.inj h
    exact hmembers
  | (k, t) :: rest, members, after, hmembers, h => by
    unfold entriesToJson at h
    split at h
    · cases h
    · next key hkey =>
      obtain ⟨w, hw, h⟩ := Except.bind_eq_ok_iff.mp h
      exact isOrdered_of_entriesToJson rest _ after
        (Json.isOrdered_insert hmembers (isOrdered_of_toJson t w hw)) h

end

end Yaml.Tree

/-! ## Reading JSON -/

namespace Json

/-- Whether the value of a token is ordered, if it has one. -/
def Token.IsOrdered : Token → Prop
  | .scalar v => v.isOrdered = true
  | _ => True

namespace Lexer

theorem isOrdered_of_readWord? {rev : List Char} {v : Json} (h : readWord? rev = some v) :
    (Token.scalar v).IsOrdered := by
  unfold readWord? at h
  simp only at h
  split at h
  · cases h; rfl
  split at h
  · cases h; rfl
  split at h
  · cases h; rfl
  · obtain ⟨n, -, rfl⟩ := Option.map_eq_some_iff.mp h
    rfl

theorem isOrdered_of_mark? {c : Char} {t : Token} (h : mark? c = some t) : t.IsOrdered := by
  unfold mark? at h
  repeat' split at h
  all_goals cases h
  all_goals trivial

/-- Tokens that come between others are ordered. -/
theorem isOrdered_stepBetween {tokens : List Token} (h : ∀ t ∈ tokens, t.IsOrdered) (c : Char) :
    ∀ t ∈ (stepBetween tokens c).tokens, t.IsOrdered := by
  unfold stepBetween
  split
  · exact h
  split
  · exact h
  split
  · next t ht => exact List.forall_mem_cons.mpr ⟨isOrdered_of_mark? ht, h⟩
  · exact h

theorem tokens_finishUnit {tokens : List Token} {rev : List Char} {high : Option Nat} {value : Nat}
    {s : State} (h : finishUnit tokens rev high value = some s) : s.tokens = tokens := by
  unfold finishUnit at h
  repeat' split at h
  all_goals cases h
  all_goals rfl

/-- A character adds no token that is not ordered. -/
theorem isOrdered_step {s s' : State} {c : Char} (h : step s c = some s')
    (hs : ∀ t ∈ s.tokens, t.IsOrdered) : ∀ t ∈ s'.tokens, t.IsOrdered := by
  obtain ⟨tokens, mode⟩ := s
  unfold step at h
  cases mode with
  | between => exact Option.some.inj h ▸ isOrdered_stepBetween hs c
  | word rev =>
    simp only at h
    split at h
    · obtain ⟨v, hv, rfl⟩ := Option.map_eq_some_iff.mp h
      exact isOrdered_stepBetween
        (List.forall_mem_cons.mpr ⟨isOrdered_of_readWord? hv, hs⟩) c
    · cases h
      exact hs
  | quoted rev =>
    simp only at h
    split at h
    · cases h
      exact List.forall_mem_cons.mpr ⟨trivial, hs⟩
    · repeat' split at h
      all_goals cases h
      all_goals exact hs
  | escape rev =>
    simp only at h
    split at h
    · cases h
      exact hs
    · obtain ⟨d, -, rfl⟩ := Option.map_eq_some_iff.mp h
      exact hs
  | unit rev high left value =>
    obtain ⟨d, -, h⟩ := Option.bind_eq_some_iff.mp h
    simp only at h
    split at h
    · rw [tokens_finishUnit h]
      exact hs
    · cases h
      exact hs
  | awaitLow rev high started =>
    simp only at h
    repeat' split at h
    all_goals cases h
    all_goals exact hs

theorem isOrdered_foldlM {text : List Char} {s s' : State} (h : text.foldlM step s = some s')
    (hs : ∀ t ∈ s.tokens, t.IsOrdered) : ∀ t ∈ s'.tokens, t.IsOrdered := by
  induction text generalizing s with
  | nil => exact Option.some.inj h ▸ hs
  | cons c cs ih =>
    rw [List.foldlM_cons] at h
    obtain ⟨s₁, h₁, h⟩ := Option.bind_eq_some_iff.mp h
    exact ih h (isOrdered_step h₁ hs)

theorem isOrdered_tokens? {text : List Char} {tokens : List Token}
    (h : tokens? text = some tokens) : ∀ t ∈ tokens, t.IsOrdered := by
  obtain ⟨s, hs, h⟩ := Option.bind_eq_some_iff.mp h
  have htokens := isOrdered_foldlM hs fun _ ht => absurd ht List.not_mem_nil
  split at h
  · cases h
    exact fun t ht => htokens t (List.mem_reverse.mp ht)
  · obtain ⟨v, hv, rfl⟩ := Option.map_eq_some_iff.mp h
    intro t ht
    rcases List.mem_cons.mp (List.mem_reverse.mp ht) with rfl | ht
    · exact isOrdered_of_readWord? hv
    · exact htokens t ht
  · cases h

end Lexer

namespace Parser

/-- Whether what an open container holds is ordered. -/
def Frame.IsOrdered : Frame → Prop
  | .array rev => ∀ v ∈ rev, v.isOrdered = true
  | .object members _ => (Json.object members).isOrdered = true

/-- Whether all that was read so far is ordered. -/
structure State.IsOrdered (s : State) : Prop where
  frames : ∀ f ∈ s.frames, f.IsOrdered
  value : ∀ v, s.expect = .nothing v → v.isOrdered = true

theorem isOrdered_deliver {frames : List Frame} (h : ∀ f ∈ frames, f.IsOrdered) {v : Json}
    (hv : v.isOrdered = true) : (deliver frames v).IsOrdered := by
  unfold deliver
  split
  · exact ⟨h, fun w hw => by cases hw; exact hv⟩
  · next rev rest =>
    obtain ⟨hrev, hrest⟩ := List.forall_mem_cons.mp h
    exact ⟨List.forall_mem_cons.mpr ⟨List.forall_mem_cons.mpr ⟨hv, hrev⟩, hrest⟩, nofun⟩
  · next members key rest =>
    obtain ⟨hmembers, hrest⟩ := List.forall_mem_cons.mp h
    exact ⟨List.forall_mem_cons.mpr ⟨isOrdered_insert hmembers hv, hrest⟩, nofun⟩

theorem isOrdered_startValue {frames : List Frame} (h : ∀ f ∈ frames, f.IsOrdered) {t : Token}
    (ht : t.IsOrdered) {s : State} (hs : startValue frames t = some s) : s.IsOrdered := by
  unfold startValue push at hs
  split at hs
  · cases hs
    exact isOrdered_deliver h ht
  · cases hs
    exact isOrdered_deliver h rfl
  · split at hs <;> cases hs
    exact ⟨List.forall_mem_cons.mpr ⟨fun _ hv => absurd hv List.not_mem_nil, h⟩, nofun⟩
  · split at hs <;> cases hs
    exact ⟨List.forall_mem_cons.mpr ⟨rfl, h⟩, nofun⟩
  · cases hs

theorem isOrdered_closeArray {frames : List Frame} (h : ∀ f ∈ frames, f.IsOrdered) {s : State}
    (hs : closeArray frames = some s) : s.IsOrdered := by
  unfold closeArray at hs
  split at hs <;> cases hs
  obtain ⟨hrev, hrest⟩ := List.forall_mem_cons.mp h
  exact isOrdered_deliver hrest
    (isOrdered_array_iff.mpr fun v hv => hrev v (List.mem_reverse.mp hv))

theorem isOrdered_closeObject {frames : List Frame} (h : ∀ f ∈ frames, f.IsOrdered) {s : State}
    (hs : closeObject frames = some s) : s.IsOrdered := by
  unfold closeObject at hs
  split at hs <;> cases hs
  obtain ⟨hmembers, hrest⟩ := List.forall_mem_cons.mp h
  exact isOrdered_deliver hrest hmembers

theorem isOrdered_startMember {frames : List Frame} (h : ∀ f ∈ frames, f.IsOrdered) {t : Token}
    {s : State} (hs : startMember frames t = some s) : s.IsOrdered := by
  unfold startMember at hs
  split at hs <;> cases hs
  obtain ⟨hmembers, hrest⟩ := List.forall_mem_cons.mp h
  exact ⟨List.forall_mem_cons.mpr ⟨hmembers, hrest⟩, nofun⟩

/-- **A token keeps what is read in order.** -/
theorem isOrdered_step {s s' : State} {t : Token} (h : step s t = some s') (hs : s.IsOrdered)
    (ht : t.IsOrdered) : s'.IsOrdered := by
  unfold step at h
  split at h
  · exact isOrdered_startValue hs.frames ht h
  · exact isOrdered_closeArray hs.frames h
  · exact isOrdered_startValue hs.frames ht h
  · exact isOrdered_closeArray hs.frames h
  · exact isOrdered_closeObject hs.frames h
  · split at h <;> cases h <;> exact ⟨hs.frames, nofun⟩
  · exact isOrdered_closeObject hs.frames h
  · exact isOrdered_startMember hs.frames h
  · exact isOrdered_startMember hs.frames h
  · cases h
    exact ⟨hs.frames, nofun⟩
  · cases h

theorem isOrdered_foldlM {tokens : List Token} (ht : ∀ t ∈ tokens, t.IsOrdered) {s s' : State}
    (h : tokens.foldlM step s = some s') (hs : s.IsOrdered) : s'.IsOrdered := by
  induction tokens generalizing s with
  | nil => exact Option.some.inj h ▸ hs
  | cons t ts ih =>
    obtain ⟨htoken, hrest⟩ := List.forall_mem_cons.mp ht
    rw [List.foldlM_cons] at h
    obtain ⟨s₁, h₁, h⟩ := Option.bind_eq_some_iff.mp h
    exact ih hrest h (isOrdered_step h₁ hs htoken)

end Parser

/-- What is read from a text is ordered. -/
theorem isOrdered_of_parse? {text : String} {v : Json} (h : parse? text = some v) :
    v.isOrdered = true := by
  obtain ⟨tokens, htokens, h⟩ := Option.bind_eq_some_iff.mp h
  obtain ⟨s, hs, h⟩ := Option.bind_eq_some_iff.mp h
  have hordered := Parser.isOrdered_foldlM (Lexer.isOrdered_tokens? htokens) hs
    ⟨fun _ hf => absurd hf List.not_mem_nil, nofun⟩
  split at h
  · next w hw => exact Option.some.inj h ▸ hordered.value w hw
  · cases h

end Json

/-! ## Contracts -/

namespace Contract

theorem document_of_ofJson {v : Json} {c : Contract} (h : ofJson v = .ok c) : c.document = v := by
  unfold ofJson at h
  split at h
  · split at h
    · cases h
    · split at h
      · obtain rfl := Except.ok.inj h
        rfl
      · cases h
  · cases h

/-- A contract that is read from a text is ordered. -/
theorem isOrdered_of_ofText {text : String} {c : Contract} (h : ofText text = .ok c) :
    c.document.isOrdered = true := by
  unfold ofText at h
  split at h
  · cases h
  · next tree _ =>
    split at h
    · next v hv => exact document_of_ofJson h ▸ Yaml.Tree.isOrdered_of_toJson tree v hv
    · cases h

/-- **A contract that is loaded from a file is ordered.** -/
theorem isOrdered_of_ofFile {path : String} {content : Option String} {c : Contract}
    (h : ofFile path content = .ok c) : c.document.isOrdered = true := by
  unfold ofFile at h
  split at h
  · cases h
  · next text =>
    split at h
    · split at h
      · cases h
      · next v hv =>
        rw [document_of_ofJson (Except.eq_ok_of_mapError h)]
        exact Json.isOrdered_of_parse? hv
    · exact isOrdered_of_ofText (Except.eq_ok_of_mapError h)

end Contract

end ApiContract
