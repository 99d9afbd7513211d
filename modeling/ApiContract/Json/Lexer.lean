import ApiContract.Json.Basic
import ApiContract.Text.Digit
/-!
# Tokens of a JSON text

The lexer is a machine that takes one character at a time. Between tokens it skips blanks; inside
quotes it undoes the escapes. A text is refused when a quote is not closed, an escape is unknown,
a control character stands inside quotes, or a code unit of a surrogate pair stands alone.
-/

namespace ApiContract

namespace Json

/-- A token: a punctuation mark, a quoted text, or a word outside quotes. -/
inductive Token where
  | openArray
  | closeArray
  | openObject
  | closeObject
  | comma
  | colon
  | text (s : String)
  | scalar (v : Json)
deriving Repr

namespace Lexer

/-- Where the machine stands; texts and words are kept in reverse. -/
inductive Mode where
  | between
  | word (rev : List Char)
  | quoted (rev : List Char)
  | escape (rev : List Char)
  /-- Inside `\uXXXX`: the high surrogate before it, if any, the digits left, the value so far. -/
  | unit (rev : List Char) (high : Option Nat) (left : Nat) (value : Nat)
  /-- After a high surrogate; `started` once the backslash of the low one was seen. -/
  | awaitLow (rev : List Char) (high : Nat) (started : Bool)
deriving Repr

/-- The tokens so far, in reverse, and the mode. -/
structure State where
  tokens : List Token
  mode : Mode

def isBlank (c : Char) : Bool := c = ' ' || c = '\n' || c = '\r' || c = '\t'

/-- The value of a word: a literal name or a number. -/
def readWord? (rev : List Char) : Option Json :=
  let cs := rev.reverse
  if cs = "null".toList then some .null
  else if cs = "true".toList then some (.bool true)
  else if cs = "false".toList then some (.bool false)
  else (Number.read? cs).map .number

/-- A punctuation mark. -/
def mark? (c : Char) : Option Token :=
  if c = '[' then some .openArray
  else if c = ']' then some .closeArray
  else if c = '\x7b' then some .openObject
  else if c = '\x7d' then some .closeObject
  else if c = ',' then some .comma
  else if c = ':' then some .colon
  else none

/-- The character of a one-letter escape. -/
def unescape? (c : Char) : Option Char :=
  if c = '"' || c = '\\' || c = '/' then some c
  else if c = 'n' then some '\n'
  else if c = 't' then some '\t'
  else if c = 'r' then some '\r'
  else if c = 'b' then some '\x08'
  else if c = 'f' then some '\x0c'
  else none

/-- Between tokens: a blank, a mark, a quote, or the start of a word. -/
def stepBetween (tokens : List Token) (c : Char) : State :=
  if isBlank c then ⟨tokens, .between⟩
  else if c = '"' then ⟨tokens, .quoted []⟩
  else match mark? c with
    | some t => ⟨t :: tokens, .between⟩
    | none => ⟨tokens, .word [c]⟩

/-- A completed code unit: a character, or the first half of a pair. -/
def finishUnit (tokens : List Token) (rev : List Char) (high : Option Nat) (value : Nat) :
    Option State :=
  match high with
  | some h =>
    if 0xDC00 ≤ value && value ≤ 0xDFFF then
      some ⟨tokens, .quoted (Char.ofNat (0x10000 + (h - 0xD800) * 0x400 + (value - 0xDC00)) :: rev)⟩
    else none
  | none =>
    if 0xD800 ≤ value && value ≤ 0xDBFF then some ⟨tokens, .awaitLow rev value false⟩
    else if 0xDC00 ≤ value && value ≤ 0xDFFF then none
    else some ⟨tokens, .quoted (Char.ofNat value :: rev)⟩

/-- Take one character. -/
def step (s : State) (c : Char) : Option State :=
  match s.mode with
  | .between => some (stepBetween s.tokens c)
  | .word rev =>
    if isBlank c || c = '"' || (mark? c).isSome then
      (readWord? rev).map fun v => stepBetween (.scalar v :: s.tokens) c
    else some ⟨s.tokens, .word (c :: rev)⟩
  | .quoted rev =>
    if c = '"' then some ⟨.text (String.ofList rev.reverse) :: s.tokens, .between⟩
    else if c = '\\' then some ⟨s.tokens, .escape rev⟩
    else if c.toNat < 32 then none
    else some ⟨s.tokens, .quoted (c :: rev)⟩
  | .escape rev =>
    if c = 'u' then some ⟨s.tokens, .unit rev none 4 0⟩
    else (unescape? c).map fun d => ⟨s.tokens, .quoted (d :: rev)⟩
  | .unit rev high left value => do
    let d ← Text.digit? c
    let value := 16 * value + d
    if left ≤ 1 then finishUnit s.tokens rev high value
    else some ⟨s.tokens, .unit rev high (left - 1) value⟩
  | .awaitLow rev high started =>
    if started then if c = 'u' then some ⟨s.tokens, .unit rev (some high) 4 0⟩ else none
    else if c = '\\' then some ⟨s.tokens, .awaitLow rev high true⟩
    else none

/-- The tokens of a text, or nothing when it is refused. -/
def tokens? (text : List Char) : Option (List Token) := do
  let s ← text.foldlM step ⟨[], .between⟩
  match s.mode with
  | .between => some s.tokens.reverse
  | .word rev => (readWord? rev).map fun v => (Token.scalar v :: s.tokens).reverse
  | _ => none

end Lexer

end Json

end ApiContract
