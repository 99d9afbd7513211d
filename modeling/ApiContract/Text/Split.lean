/-!
# Cutting texts

Functions on lists of characters that cut at separators, trim blanks and fold ASCII case. The white
space here is the Unicode property; case is folded for ASCII letters alone.
-/

namespace ApiContract

namespace Text

/-! ## Separators -/

/-- The pieces between the occurrences of a separator; a text without it is one piece. -/
def splitOn (sep : Char) : List Char → List (List Char)
  | [] => [[]]
  | c :: cs =>
    if c = sep then [] :: splitOn sep cs
    else match splitOn sep cs with
      | piece :: pieces => (c :: piece) :: pieces
      | [] => [[c]]

/-- What stands before and after the first separator, if there is one. -/
def splitOnce? (sep : Char) : List Char → Option (List Char × List Char)
  | [] => none
  | c :: cs => if c = sep then some ([], cs) else (splitOnce? sep cs).map fun p => (c :: p.1, p.2)

/-- What stands before the first character of a kind, or the whole text. -/
def before (stop : Char → Bool) (cs : List Char) : List Char := cs.takeWhile fun c => !stop c

/-- Take a text off the front. -/
def strip? : List Char → List Char → Option (List Char)
  | [], cs => some cs
  | _ :: _, [] => none
  | p :: ps, c :: cs => if p = c then strip? ps cs else none

/-- Drop the characters of a kind from the end. -/
def dropEnd (drop : Char → Bool) (cs : List Char) : List Char :=
  (cs.reverse.dropWhile drop).reverse

/-! ## White space -/

/-- The Unicode property White_Space. -/
def isWhite (c : Char) : Bool :=
  let n := c.toNat
  (9 ≤ n && n ≤ 13) || n = 32 || n = 0x85 || n = 0xA0 || n = 0x1680 ||
    (0x2000 ≤ n && n ≤ 0x200A) || n = 0x2028 || n = 0x2029 || n = 0x202F || n = 0x205F || n = 0x3000

/-- Drop white space from both ends. -/
def trim (cs : List Char) : List Char := dropEnd isWhite (cs.dropWhile isWhite)

/-- Drop white space from both ends of a string. -/
def trimString (s : String) : String := String.ofList (trim s.toList)

/-! ## ASCII case -/

def lowerString (s : String) : String := String.ofList (s.toList.map Char.toLower)

def upperString (s : String) : String := String.ofList (s.toList.map Char.toUpper)

/-! ## Small facts -/

theorem splitOn_ne_nil (sep : Char) (cs : List Char) : splitOn sep cs ≠ [] := by
  cases cs with
  | nil => simp [splitOn]
  | cons c cs =>
    unfold splitOn
    split
    · simp
    · split <;> simp

@[simp] theorem splitOn_nil (sep : Char) : splitOn sep [] = [[]] := rfl

theorem splitOn_cons_self (sep : Char) (cs : List Char) :
    splitOn sep (sep :: cs) = [] :: splitOn sep cs := by simp [splitOn]

/-- A text without the separator is one piece. -/
theorem splitOn_of_not_mem {sep : Char} {cs : List Char} (h : sep ∉ cs) :
    splitOn sep cs = [cs] := by
  induction cs with
  | nil => rfl
  | cons c cs ih =>
    simp only [List.mem_cons, not_or] at h
    simp [splitOn, Ne.symm h.1, ih h.2]

/-- Cutting a text that was put together from a piece and the rest gives them back. -/
theorem splitOn_append_cons {sep : Char} {piece : List Char} (h : sep ∉ piece) (rest : List Char) :
    splitOn sep (piece ++ sep :: rest) = piece :: splitOn sep rest := by
  induction piece with
  | nil => simp [splitOn_cons_self]
  | cons c cs ih =>
    simp only [List.mem_cons, not_or] at h
    simp [splitOn, Ne.symm h.1, ih h.2]

/-! ### What stands before a character -/

section Before

variable {c : Char} {front rest cs : List Char}

theorem not_mem_before (c : Char) (cs : List Char) : c ∉ before (· = c) cs := by
  intro hmem
  have hall := List.all_eq_true.mp List.all_takeWhile c hmem
  simp at hall

/-- Nothing stands before a character that a text starts with. -/
theorem before_of_head (h : ∀ d ∈ cs.head?, d = c) : before (· = c) cs = [] := by
  cases cs with
  | nil => rfl
  | cons d cs =>
    obtain rfl := h d rfl
    simp [before]

theorem before_append_of_not_mem (h : c ∉ front) (rest : List Char) :
    before (· = c) (front ++ rest) = front ++ before (· = c) rest := by
  refine List.takeWhile_append_of_pos fun d hd => ?_
  simpa using fun heq : d = c => h (heq ▸ hd)

theorem before_of_not_mem (h : c ∉ cs) : before (· = c) cs = cs := by
  have happend := before_append_of_not_mem h []
  simpa [before] using happend

/-- Behind what stands before a character the text goes on with it, or ends. -/
theorem exists_before_append (c : Char) (cs : List Char) :
    ∃ rest, (∀ d ∈ rest.head?, d = c) ∧ cs = before (· = c) cs ++ rest := by
  induction cs with
  | nil => exact ⟨[], nofun, rfl⟩
  | cons d cs ih =>
    by_cases hd : d = c
    · exact ⟨d :: cs, by simp [hd], by simp [before, hd]⟩
    · obtain ⟨rest, hrest, hcs⟩ := ih
      refine ⟨rest, hrest, ?_⟩
      rw [before, List.takeWhile_cons_of_pos (by simp [hd]), List.cons_append]
      exact congrArg _ hcs

/-- What stands behind a character is not before it. -/
theorem before_append_of_head (front : List Char) (h : ∀ d ∈ rest.head?, d = c) :
    before (· = c) (front ++ rest) = before (· = c) front := by
  induction front with
  | nil => exact before_of_head h
  | cons d front ih =>
    rw [List.cons_append, before, before, List.takeWhile_cons, List.takeWhile_cons]
    split
    · exact congrArg _ ih
    · rfl

end Before

/-! ### What stands behind a character that is kept -/

section Kept

variable {drop : Char → Bool} {c : Char}

theorem dropWhile_append_cons (front : List Char) (hc : drop c = false) (rest : List Char) :
    (front ++ c :: rest).dropWhile drop = front.dropWhile drop ++ c :: rest := by
  induction front with
  | nil => exact List.dropWhile_cons_of_neg (by simp [hc])
  | cons b front ih =>
    rw [List.cons_append, List.dropWhile_cons, List.dropWhile_cons]
    split
    · exact ih
    · rfl

theorem dropEnd_append_cons (front : List Char) (hc : drop c = false) (rest : List Char) :
    dropEnd drop (front ++ c :: rest) = front ++ c :: dropEnd drop rest := by
  unfold dropEnd
  rw [List.reverse_append, List.reverse_cons, List.append_assoc, List.singleton_append,
    dropWhile_append_cons _ hc]
  simp

end Kept

end Text

end ApiContract
