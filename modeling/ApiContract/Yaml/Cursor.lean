import ApiContract.Numeral.Decimal
import ApiContract.Text.Digit
import ApiContract.Text.Split
/-!
# Places in a text

A document is read once from its start to its end. Layout matters, so a cursor knows its line and
its column as well as what is left to read. All ways to end a line are made one before reading
begins, except the two separators of Unicode, which end a line and stay what they are.
-/

namespace ApiContract

namespace Yaml

/-! ## Characters -/

/-- Whether a character may occur in a document. -/
def isAllowed (c : Char) : Bool :=
  let n := c.toNat
  n = 0x09 || n = 0x0A || n = 0x0D || (0x20 ≤ n && n ≤ 0x7E) || n = 0x85 ||
    (0xA0 ≤ n && n ≤ 0xFFFD) || 0x10000 ≤ n

/-- Write a line feed for every carriage return, with its line feed if it has one, and for every
next-line character. -/
def unifyBreaks : List Char → List Char
  | [] => []
  | '\r' :: '\n' :: cs => '\n' :: unifyBreaks cs
  | c :: cs => (if c = '\r' || c = '\u0085' then '\n' else c) :: unifyBreaks cs

/-- A character that ends a line. -/
def isBreak (c : Char) : Bool := c = '\n' || c = '\u2028' || c = '\u2029'

/-- A character that separates words on a line. -/
def isBlank (c : Char) : Bool := c = ' ' || c = '\t'

/-- Whether a word ends here: at a blank, a line end, or the end of the text. -/
def isWordEnd : List Char → Bool
  | [] => true
  | c :: _ => isBlank c || isBreak c

/-- A character of a name. -/
def isNameChar (c : Char) : Bool := c.isAlphanum || c = '_' || c = '-'

/-- Whether a line that starts so separates documents. -/
def isDocumentMark : List Char → Bool
  | '-' :: '-' :: '-' :: cs => isWordEnd cs
  | '.' :: '.' :: '.' :: cs => isWordEnd cs
  | _ => false

/-! ## Places -/

/-- A place: how many characters are before it in the text, how many lines, and how many
characters in its line. -/
structure Mark where
  index : Nat := 0
  line : Nat := 0
  column : Nat := 0
deriving DecidableEq, Repr

namespace Mark

/-- The place behind a character. -/
def next (m : Mark) (c : Char) : Mark :=
  if isBreak c then ⟨m.index + 1, m.line + 1, 0⟩ else ⟨m.index + 1, m.line, m.column + 1⟩

/-- The place behind a piece of text. -/
def behind (m : Mark) (cs : List Char) : Mark := cs.foldl next m

end Mark

/-- A place with the text behind it. -/
structure Cursor where
  mark : Mark
  rest : List Char
deriving DecidableEq, Repr

namespace Cursor

/-- Go on by a number of characters. -/
def skip (x : Cursor) (n : Nat) : Cursor := ⟨x.mark.behind (x.rest.take n), x.rest.drop n⟩

/-- Go on by one character, if it is the given one. -/
def expect? (x : Cursor) (c : Char) : Option Cursor :=
  if x.rest.head? = some c then some (x.skip 1) else none

/-- The characters of a kind, and the place behind them. -/
def takeWhile (x : Cursor) (p : Char → Bool) : List Char × Cursor :=
  let taken := x.rest.takeWhile p
  (taken, x.skip taken.length)

/-- The place behind characters of a kind. -/
def skipWhile (x : Cursor) (p : Char → Bool) : Cursor := (x.takeWhile p).2

/-- Go on to the next line, over blanks and a comment; nothing else may be in the way. -/
def finishLine? (x : Cursor) : Option Cursor :=
  let x := x.skipWhile isBlank
  let x := if x.rest.head? = some '#' then x.skipWhile (!isBreak ·) else x
  match x.rest with
  | [] => some x
  | c :: _ => if isBreak c then some (x.skip 1) else none

end Cursor

end Yaml

end ApiContract
