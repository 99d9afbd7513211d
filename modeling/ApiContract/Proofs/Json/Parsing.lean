import ApiContract.Json.Parser
/-!
# The size of a parsed text

A JSON text that stands for a string is longer than the string: there are the two quotes, and an
escape is never shorter than the character it stands for. So decoding a text over and over comes to
an end.

Each character that the lexer takes adds at most one to the weight of what it holds; the parser then
delivers a string only from a token of that weight.
-/

namespace ApiContract

namespace Json

/-- What a token weighs: a string with its quotes, and nothing else. -/
def Token.weight : Token → Nat
  | .text s => s.length + 2
  | .scalar (.string s) => s.length + 2
  | _ => 0

/-- What several tokens weigh together. -/
def Token.total : List Token → Nat
  | [] => 0
  | t :: ts => t.weight + total ts

@[simp] theorem Token.total_cons (t : Token) (ts : List Token) :
    total (t :: ts) = t.weight + total ts := rfl

theorem Token.total_append (ts us : List Token) : total (ts ++ us) = total ts + total us := by
  induction ts with
  | nil => simp [total]
  | cons t ts ih => simp [ih, Nat.add_assoc]

theorem Token.total_reverse (ts : List Token) : total ts.reverse = total ts := by
  induction ts with
  | nil => rfl
  | cons t ts ih => simp [total_append, total, ih, Nat.add_comm]

namespace Lexer

/-- What a mode weighs: the characters read so far, with the quote or escape before them. -/
def Mode.weight : Mode → Nat
  | .quoted rev => rev.length + 1
  | .escape rev | .unit rev _ _ _ | .awaitLow rev _ _ => rev.length + 2
  | .between | .word _ => 0

def State.weight (s : State) : Nat := Token.total s.tokens + s.mode.weight

/-- A word is no string. -/
theorem weight_of_readWord? {rev : List Char} {v : Json} (h : readWord? rev = some v) :
    (Token.scalar v).weight = 0 := by
  unfold readWord? at h
  simp only at h
  split at h
  · cases h; rfl
  split at h
  · cases h; rfl
  split at h
  · cases h; rfl
  · obtain ⟨n, _, rfl⟩ := Option.map_eq_some_iff.mp h
    rfl

theorem weight_of_mark? {c : Char} {t : Token} (h : mark? c = some t) : t.weight = 0 := by
  unfold mark? at h
  repeat' split at h
  all_goals cases h
  all_goals rfl

theorem weight_stepBetween (tokens : List Token) (c : Char) :
    (stepBetween tokens c).weight ≤ Token.total tokens + 1 := by
  unfold stepBetween
  split
  · simp [State.weight, Mode.weight]
  split
  · simp [State.weight, Mode.weight]
  split
  · next t ht => simp [State.weight, Mode.weight, weight_of_mark? ht]
  · simp [State.weight, Mode.weight]

theorem weight_finishUnit {tokens : List Token} {rev : List Char} {high : Option Nat} {value : Nat}
    {s : State} (h : finishUnit tokens rev high value = some s) :
    s.weight ≤ Token.total tokens + rev.length + 2 := by
  unfold finishUnit at h
  repeat' split at h
  all_goals cases h
  all_goals simp [State.weight, Mode.weight, Nat.add_assoc]

/-- A character adds at most one. -/
theorem weight_step {s s' : State} {c : Char} (h : step s c = some s') :
    s'.weight ≤ s.weight + 1 := by
  obtain ⟨tokens, mode⟩ := s
  unfold step at h
  cases mode with
  | between =>
    simp only [Option.some.injEq] at h
    subst h
    exact weight_stepBetween tokens c
  | word rev =>
    simp only at h
    split at h
    · obtain ⟨v, hv, rfl⟩ := Option.map_eq_some_iff.mp h
      have hb := weight_stepBetween (.scalar v :: tokens) c
      simpa [State.weight, Mode.weight, weight_of_readWord? hv] using hb
    · cases h
      simp [State.weight, Mode.weight]
  | quoted rev =>
    simp only at h
    repeat' split at h
    all_goals cases h
    all_goals simp [State.weight, Mode.weight, Token.weight]; try omega
  | escape rev =>
    simp only at h
    split at h
    · cases h
      simp [State.weight, Mode.weight]
    · obtain ⟨d, _, rfl⟩ := Option.map_eq_some_iff.mp h
      simp [State.weight, Mode.weight]
  | unit rev high left value =>
    simp only [Option.bind_eq_bind, Option.bind_eq_some_iff] at h
    obtain ⟨d, _, h⟩ := h
    split at h
    · have hf := weight_finishUnit h
      simp only [State.weight, Mode.weight] at hf ⊢
      omega
    · cases h
      simp [State.weight, Mode.weight]
  | awaitLow rev high started =>
    simp only at h
    repeat' split at h
    all_goals cases h
    all_goals simp [State.weight, Mode.weight]

theorem weight_foldlM {text : List Char} {s s' : State} (h : text.foldlM step s = some s') :
    s'.weight ≤ s.weight + text.length := by
  induction text generalizing s with
  | nil => cases h; simp
  | cons c cs ih =>
    simp only [List.foldlM_cons, Option.bind_eq_bind, Option.bind_eq_some_iff] at h
    obtain ⟨m, hm, h⟩ := h
    have h1 := weight_step hm
    have h2 := ih h
    simp only [List.length_cons]
    omega

/-- All tokens of a text together weigh no more than the text is long. -/
theorem weight_tokens? {text : List Char} {tokens : List Token} (h : tokens? text = some tokens) :
    Token.total tokens ≤ text.length := by
  simp only [tokens?, Option.bind_eq_bind, Option.bind_eq_some_iff] at h
  obtain ⟨s, hs, h⟩ := h
  have hw := weight_foldlM hs
  simp only [State.weight, Mode.weight, Token.total, Nat.zero_add] at hw
  split at h
  · cases h
    rw [Token.total_reverse]
    omega
  · next rev hm =>
    obtain ⟨v, hv, rfl⟩ := Option.map_eq_some_iff.mp h
    rw [Token.total_reverse, Token.total_cons, weight_of_readWord? hv]
    omega
  · cases h

end Lexer

namespace Parser

theorem expect_deliver {frames : List Frame} {v w : Json}
    (h : (deliver frames v).expect = .nothing w) : v = w := by
  unfold deliver at h
  split at h <;> simp_all

/-- A string is complete only with the token that it stands for. -/
theorem weight_of_step {st st' : State} {t : Token} {s : String} (h : step st t = some st')
    (hs : st'.expect = .nothing (.string s)) : s.length + 2 ≤ t.weight := by
  have hstart : ∀ frames, startValue frames t = some st' → s.length + 2 ≤ t.weight := by
    intro frames hv
    unfold startValue push at hv
    split at hv
    · cases hv
      cases expect_deliver hs
      exact Nat.le_refl _
    · cases hv
      cases expect_deliver hs
      exact Nat.le_refl _
    all_goals first | cases hv | (split at hv <;> cases hv; simp at hs)
  have harray : ∀ frames, closeArray frames ≠ some st' := by
    intro frames hc
    unfold closeArray at hc
    split at hc <;> cases hc
    cases expect_deliver hs
  have hobject : ∀ frames, closeObject frames ≠ some st' := by
    intro frames hc
    unfold closeObject at hc
    split at hc <;> cases hc
    cases expect_deliver hs
  have hmember : ∀ frames, startMember frames t ≠ some st' := by
    intro frames hm
    unfold startMember at hm
    split at hm <;> cases hm
    simp at hs
  unfold step at h
  split at h
  · exact hstart _ h
  · exact absurd h (harray _)
  · exact hstart _ h
  · exact absurd h (harray _)
  · exact absurd h (hobject _)
  · split at h <;> cases h <;> simp at hs
  · exact absurd h (hobject _)
  · exact absurd h (hmember _)
  · exact absurd h (hmember _)
  · cases h; simp at hs
  · cases h

theorem weight_of_foldlM {tokens : List Token} {st st' : State} {s : String}
    (h : tokens.foldlM step st = some st') (hs : st'.expect = .nothing (.string s)) :
    st.expect = .nothing (.string s) ∨ s.length + 2 ≤ Token.total tokens := by
  induction tokens generalizing st with
  | nil => cases h; exact Or.inl hs
  | cons t ts ih =>
    simp only [List.foldlM_cons, Option.bind_eq_bind, Option.bind_eq_some_iff] at h
    obtain ⟨m, hm, h⟩ := h
    simp only [Token.total_cons]
    rcases ih h with hm' | hw
    · have := weight_of_step hm hm'
      exact Or.inr (by omega)
    · exact Or.inr (by omega)

end Parser

/-- **A JSON text is longer than the string it stands for.** -/
theorem length_lt_of_parse? {text s : String} (h : parse? text = some (.string s)) :
    s.length < text.length := by
  simp only [parse?, Option.bind_eq_bind, Option.bind_eq_some_iff] at h
  obtain ⟨tokens, ht, st, hst, h⟩ := h
  split at h
  · next v hv =>
    cases h
    have hw := Lexer.weight_tokens? ht
    rcases Parser.weight_of_foldlM hst hv with h0 | h1
    · cases h0
    · rw [String.length_toList] at hw
      omega
  · cases h

end Json

end ApiContract
