import ApiContract.Pattern.Basic
import ApiContract.Text.Digit
import ApiContract.Text.Split
/-!
# Reading a pattern

The grammar of patterns: alternatives, groups, repetitions, classes, escapes, anchors, inline
flags, and lookaround. Outside classes an unescaped `]` or brace that closes nothing stands for
itself. A pattern is refused when a group or class is open at the end, a repetition has nothing to
repeat, the bounds of a repetition or range are reversed, or an escape is unknown.

A Unicode property is known by a few general names, and stands for ranges of code points that cover
ASCII, and beyond it the scripts and signs that are most in use; it is no table of the standard. A
property of another name (a script, say) is refused.

`fuel` bounds the nesting and the number of items; it starts above the length of the pattern, and
every step takes a character.
-/

namespace ApiContract

namespace Pattern

/-- The inline flags in force. -/
structure Flags where
  ignoreCase : Bool := false
  multiLine : Bool := false
  dotNewline : Bool := false
  extended : Bool := false
deriving DecidableEq, Repr

namespace Reader

/-! ## Code points -/

/-- A code point in hexadecimal: in braces, or of a fixed number of digits. -/
def codePoint? (width : Nat) : List Char → Option (Char × List Char)
  | '\x7b' :: cs => do
    let (body, rest) ← Text.splitOnce? '\x7d' cs
    let c ← (Text.number? 16 body).bind Text.charOf?
    some (c, rest)
  | cs =>
    if cs.length < width then none
    else (Text.number? 16 (cs.take width)).bind Text.charOf? |>.map fun c => (c, cs.drop width)

/-! ## Classes -/

/-- The ASCII classes that have a name. -/
def namedClass? (name : List Char) : Option CharClass :=
  (table.find? fun e => e.1.toList = name).map (·.2)
where
  table : List (String × CharClass) :=
    [("alnum", .ofRanges [(48, 57), (65, 90), (97, 122)]),
     ("alpha", .ofRanges [(65, 90), (97, 122)]),
     ("ascii", .range 0 127), ("blank", .ofRanges [(9, 9), (32, 32)]),
     ("cntrl", .ofRanges [(0, 31), (127, 127)]), ("digit", .digit), ("graph", .range 33 126),
     ("lower", .range 97 122), ("print", .range 32 126),
     ("punct", .ofRanges [(33, 47), (58, 64), (91, 96), (123, 126)]),
     ("space", .ofRanges [(9, 13), (32, 32)]), ("upper", .range 65 90), ("word", .word),
     ("xdigit", .ofRanges [(48, 57), (65, 70), (97, 102)])]

/-- The letters beyond ASCII: the code points from `ª` on that lie in no block of signs. -/
def foreignLetter : CharClass :=
  .inter (.range 0xAA 0x1EFFF)
    (.compl (.ofRanges [(0xAB, 0xB4), (0xB6, 0xB9), (0xBB, 0xBF), (0xD7, 0xD7), (0xF7, 0xF7),
      (0x2000, 0x2BFF), (0x3000, 0x3004), (0x3007, 0x3030), (0xD800, 0xF8FF), (0xFE00, 0xFE6F),
      (0xFF00, 0xFF20)]))

/-- A Unicode property by its short or long name, in the ranges that stand for it. -/
def property? (name : String) : Option CharClass :=
  match name with
  | "L" | "Letter" | "Alphabetic" | "Alpha" =>
    some (.union (.ofRanges [(65, 90), (97, 122)]) foreignLetter)
  | "Lu" | "Uppercase_Letter" | "Uppercase" =>
    some (.ofRanges [(65, 90), (0xC0, 0xD6), (0xD8, 0xDE), (0x391, 0x3A9), (0x410, 0x42F)])
  | "Ll" | "Lowercase_Letter" | "Lowercase" =>
    some (.ofRanges [(97, 122), (0xB5, 0xB5), (0xDF, 0xF6), (0xF8, 0xFF), (0x3B1, 0x3C9),
      (0x430, 0x44F)])
  | "N" | "Number" | "Nd" | "Decimal_Number" =>
    some (.ofRanges [(48, 57), (0x660, 0x669), (0x6F0, 0x6F9), (0x966, 0x96F), (0xFF10, 0xFF19)])
  | "P" | "Punctuation" =>
    some (.ofRanges [(33, 35), (37, 42), (44, 47), (58, 59), (63, 64), (91, 93), (95, 95),
      (123, 123), (125, 125), (0xA1, 0xA1), (0xA7, 0xA7), (0xAB, 0xAB), (0xB6, 0xB7),
      (0xBB, 0xBB), (0xBF, 0xBF), (0x2010, 0x2027), (0x2030, 0x205E), (0x3001, 0x3003)])
  | "S" | "Symbol" =>
    some (.ofRanges [(36, 36), (43, 43), (60, 62), (94, 94), (96, 96), (124, 124), (126, 126),
      (0xA2, 0xA6), (0xA8, 0xA9), (0xAC, 0xAC), (0xAE, 0xB1), (0xB4, 0xB4), (0xD7, 0xD7),
      (0xF7, 0xF7), (0x20A0, 0x20C0), (0x2100, 0x2BFF)])
  | "Z" | "Separator" | "Zs" | "Space_Separator" =>
    some (.ofRanges [(32, 32), (0xA0, 0xA0), (0x1680, 0x1680), (0x2000, 0x200A), (0x2028, 0x2029),
      (0x202F, 0x202F), (0x205F, 0x205F), (0x3000, 0x3000)])
  | _ => none

/-- A property after `p` or `P`: one letter, or a name in braces that `^` negates. -/
def propertyClass? (negated : Bool) : List Char → Option (CharClass × List Char)
  | '\x7b' :: cs => do
    let (body, rest) ← Text.splitOnce? '\x7d' cs
    let (negated, body) := match body with
      | '^' :: more => (!negated, more)
      | _ => (negated, body)
    let a ← property? (String.ofList body)
    some (if negated then .compl a else a, rest)
  | c :: cs => (property? (String.ofList [c])).map fun a => (if negated then .compl a else a, cs)
  | [] => none

/-- The class of a one-letter escape. -/
def shorthand? (c : Char) : Option CharClass :=
  if c = 'd' then some .digit
  else if c = 'D' then some (.compl .digit)
  else if c = 'w' then some .word
  else if c = 'W' then some (.compl .word)
  else if c = 's' then some .blank
  else if c = 'S' then some (.compl .blank)
  else none

/-- The character of an escape that stands for one. -/
def escapedChar? (c : Char) (cs : List Char) : Option (Char × List Char) :=
  if c = 'n' then some ('\n', cs)
  else if c = 't' then some ('\t', cs)
  else if c = 'r' then some ('\r', cs)
  else if c = 'f' then some ('\x0c', cs)
  else if c = 'v' then some ('\x0b', cs)
  else if c = 'a' then some ('\x07', cs)
  else if c = 'x' then codePoint? 2 cs
  else if c = 'u' then codePoint? 4 cs
  else if c = 'U' then codePoint? 8 cs
  else if c = 'c' then
    match cs with
    | d :: rest => if d.isAlpha then (Text.charOf? (d.toNat % 32)).map fun e => (e, rest) else none
    | [] => none
  else if 128 ≤ c.toNat || c.isAlphanum || c = '<' || c = '>' then none
  else some (c, cs)

/-- One item of a class: a class of its own or a single character. -/
inductive ClassItem where
  | chars (a : CharClass)
  | one (c : Char)

/-- An escape inside a class. -/
def classEscape? : List Char → Option (ClassItem × List Char)
  | [] => none
  | c :: cs =>
    match shorthand? c with
    | some a => some (.chars a, cs)
    | none =>
      if c = 'p' || c = 'P' then (propertyClass? (c = 'P') cs).map fun p => (.chars p.1, p.2)
      else if c = 'b' then some (.one '\x08', cs)
      else (escapedChar? c cs).map fun p => (.one p.1, p.2)

/-- A character of a class that is no bracket. -/
def classChar? : List Char → Option (ClassItem × List Char)
  | '\\' :: cs => classEscape? cs
  | c :: cs => some (.one c, cs)
  | [] => none

/-- An item, or a range when a hyphen and another character follow. -/
def classRange? (cs : List Char) : Option (CharClass × List Char) := do
  let (item, rest) ← classChar? cs
  match item with
  | .chars a => some (a, rest)
  | .one low =>
    match rest with
    | '-' :: ']' :: _ => some (.single low, rest)
    | '-' :: '-' :: _ => some (.single low, rest)
    | '-' :: more =>
      let (top, rest) ← classChar? more
      match top with
      | .chars _ => none
      | .one high => if low ≤ high then some (.range low.toNat high.toNat, rest) else none
    | _ => some (.single low, rest)

/-- How the operand on the right of a set operator joins the one on the left. -/
inductive SetOp where
  | inter
  | diff
  | symDiff

def SetOp.apply : SetOp → CharClass → CharClass → CharClass
  | .inter, a, b => .inter a b
  | .diff, a, b => .inter a (.compl b)
  | .symDiff, a, b => .union (.inter a (.compl b)) (.inter b (.compl a))

/-- The items of a class up to its bracket. `left` is the operand before the last set operator. -/
def classItems? (fuel : Nat) (left : Option (CharClass × SetOp)) (acc : CharClass)
    (cs : List Char) : Option (CharClass × List Char) :=
  match fuel with
  | 0 => none
  | fuel + 1 =>
    let done := match left with
      | some (a, op) => op.apply a acc
      | none => acc
    match cs with
    | [] => none
    | ']' :: rest => some (done, rest)
    | '&' :: '&' :: rest => classItems? fuel (some (done, .inter)) .none rest
    | '-' :: '-' :: rest => classItems? fuel (some (done, .diff)) .none rest
    | '~' :: '~' :: rest => classItems? fuel (some (done, .symDiff)) .none rest
    | '[' :: ':' :: more =>
      match named? more with
      | some (a, rest) => classItems? fuel left (.union acc a) rest
      | none => nested fuel left acc (':' :: more)
    | '[' :: rest => nested fuel left acc rest
    | _ => do
      let (a, rest) ← classRange? cs
      classItems? fuel left (.union acc a) rest
where
  /-- A named class such as `[:alpha:]`, after `[:`. -/
  named? (cs : List Char) : Option (CharClass × List Char) := do
    let (body, rest) ← Text.splitOnce? ':' cs
    let (negated, name) := match body with
      | '^' :: more => (true, more)
      | _ => (false, body)
    let a ← namedClass? name
    match rest with
    | ']' :: rest => some (if negated then .compl a else a, rest)
    | _ => none
  /-- A class inside a class, after its bracket. -/
  nested (fuel : Nat) (left : Option (CharClass × SetOp)) (acc : CharClass) (cs : List Char) :
      Option (CharClass × List Char) :=
    match fuel with
    | 0 => none
    | fuel + 1 =>
      let (negated, body) := match cs with
        | '^' :: more => (true, more)
        | _ => (false, cs)
      let (acc', body) := match body with
        | ']' :: more => (CharClass.single ']', more)
        | _ => (CharClass.none, body)
      match classItems? fuel none acc' body with
      | some (a, rest) => classItems? fuel left (.union acc (if negated then .compl a else a)) rest
      | none => none

/-- The hyphens that a class starts with stand for themselves. -/
def leadingHyphens : List Char → CharClass → CharClass × List Char
  | '-' :: '-' :: cs, acc => (acc, '-' :: '-' :: cs)
  | '-' :: cs, acc => leadingHyphens cs (.union acc (.single '-'))
  | cs, acc => (acc, cs)

/-- A class after its opening bracket. -/
def class? (fuel : Nat) (cs : List Char) : Option (CharClass × List Char) := do
  let (negated, body) := match cs with
    | '^' :: more => (true, more)
    | _ => (false, cs)
  let (acc, body) := leadingHyphens body .none
  let (acc, body) := match body with
    | ']' :: more => if acc = .none then (CharClass.single ']', more) else (acc, body)
    | _ => (acc, body)
  let (a, rest) ← classItems? fuel none acc body
  some (if negated then .compl a else a, rest)

/-! ## Repetitions -/

/-- The bounds of a counted repetition, after its brace. -/
def bounds? (cs : List Char) : Option ((Nat × Option Nat) × List Char) := do
  let (body, rest) ← Text.splitOnce? '\x7d' cs
  match Text.splitOnce? ',' body with
  | none => (Text.number? 10 body).map fun n => ((n, some n), rest)
  | some (low, []) => (Text.number? 10 low).map fun n => ((n, none), rest)
  | some (low, high) => do
    let m ← Text.number? 10 low
    let n ← Text.number? 10 high
    if m ≤ n then some ((m, some n), rest) else none

/-- The repetition that follows an item, if any: its bounds and the rest after them. -/
def repetition? : List Char → Option (Option ((Nat × Option Nat) × List Char))
  | '?' :: cs => some (some ((0, some 1), cs))
  | '*' :: cs => some (some ((0, none), cs))
  | '+' :: cs => some (some ((1, none), cs))
  | '\x7b' :: cs => (bounds? cs).map some
  | _ => some none

/-! ## Flags and groups -/

/-- Set the flags that a list of letters names; after a hyphen they are cleared. -/
def setFlags? : Bool → Flags → List Char → Option Flags
  | _, f, [] => some f
  | true, f, '-' :: cs => setFlags? false f cs
  | on, f, c :: cs =>
    if c = 'i' then setFlags? on { f with ignoreCase := on } cs
    else if c = 'm' then setFlags? on { f with multiLine := on } cs
    else if c = 's' then setFlags? on { f with dotNewline := on } cs
    else if c = 'x' then setFlags? on { f with extended := on } cs
    else if c = 'u' || c = 'U' || c = 'R' then setFlags? on f cs
    else none

/-- A group name: a letter or underscore, then letters, digits and a few signs. -/
def isName (cs : List Char) : Bool :=
  match cs with
  | [] => false
  | c :: rest =>
    (c.isAlpha || c = '_' || 128 ≤ c.toNat) &&
      rest.all fun d => d.isAlphanum || d = '_' || d = '.' || d = '[' || d = ']' || 128 ≤ d.toNat

/-- What an opening parenthesis starts. -/
inductive Opening where
  /-- A group, with its flags and the wrapper of its body. -/
  | group (flags : Flags) (wrap : Pattern → Pattern)
  /-- Flags for the rest of the enclosing group. -/
  | flags (flags : Flags)

/-- The start of a group, after its parenthesis. -/
def opening? (f : Flags) : List Char → Option (Opening × List Char)
  | '?' :: '=' :: cs => some (.group f (.ahead false), cs)
  | '?' :: '!' :: cs => some (.group f (.ahead true), cs)
  | '?' :: '<' :: '=' :: cs => some (.group f (.behind false), cs)
  | '?' :: '<' :: '!' :: cs => some (.group f (.behind true), cs)
  | '?' :: 'P' :: '<' :: cs => named cs
  | '?' :: '<' :: cs => named cs
  | '?' :: cs => do
    let letters := cs.takeWhile fun c => c != ':' && c != ')'
    let set ← setFlags? true f letters
    match cs.drop letters.length with
    | ':' :: rest => some (.group set id, rest)
    | ')' :: rest => if letters.isEmpty then none else some (.flags set, rest)
    | _ => none
  | cs => some (.group f id, cs)
where
  named (cs : List Char) : Option (Opening × List Char) := do
    let (name, rest) ← Text.splitOnce? '>' cs
    if isName name then some (.group f id, rest) else none

/-- An escape outside a class, after its backslash. -/
def escape? (f : Flags) : List Char → Option (Pattern × List Char)
  | [] => none
  | c :: cs =>
    match shorthand? c with
    | some a => some (.one a f.ignoreCase, cs)
    | none =>
      if c = 'p' || c = 'P' then
        (propertyClass? (c = 'P') cs).map fun p => (.one p.1 f.ignoreCase, p.2)
      else if c = 'b' then some (.wordEdge false, cs)
      else if c = 'B' then some (.wordEdge true, cs)
      else if c = 'A' then some (.atStart false, cs)
      else if c = 'z' then some (.atEnd false, cs)
      else (escapedChar? c cs).map fun p => (.one (.single p.1) f.ignoreCase, p.2)

/-- A single character outside a class that opens nothing. -/
def plain (f : Flags) (c : Char) : Pattern :=
  if c = '.' then .one (if f.dotNewline then .compl .none else .compl (.single '\n')) false
  else if c = '^' then .atStart f.multiLine
  else if c = '$' then .atEnd f.multiLine
  else .one (.single c) f.ignoreCase

/-- Put an item and its repetitions after what was read before. -/
def repeated? (fuel : Nat) (item : Pattern) (cs : List Char) : Option (Pattern × List Char) :=
  match fuel with
  | 0 => none
  | fuel + 1 =>
    match repetition? cs with
    | none => none
    | some none => some (item, cs)
    | some (some ((least, most), rest)) =>
      let rest := match rest with
        | '?' :: more => more
        | _ => rest
      repeated? fuel (.rep item least most) rest

mutual

/-- Alternatives up to the end of the group. -/
def alternatives? (fuel : Nat) (f : Flags) (cs : List Char) : Option (Pattern × List Char) :=
  match fuel with
  | 0 => none
  | fuel + 1 =>
    match sequence? fuel f .empty cs with
    | some (a, f', '|' :: rest) => (alternatives? fuel f' rest).map fun p => (.alt a p.1, p.2)
    | some (a, _, rest) => some (a, rest)
    | none => none

/-- Items one after the other, up to a bar, a closing parenthesis or the end; the flags that are
then in force are told as well. -/
def sequence? (fuel : Nat) (f : Flags) (acc : Pattern) (cs : List Char) :
    Option (Pattern × Flags × List Char) :=
  match fuel with
  | 0 => none
  | fuel + 1 =>
    match cs with
    | [] => some (acc, f, [])
    | '|' :: _ => some (acc, f, cs)
    | ')' :: _ => some (acc, f, cs)
    | c :: rest =>
      if f.extended && (c = ' ' || c = '\t' || c = '\n' || c = '\r') then sequence? fuel f acc rest
      else if f.extended && c = '#' then sequence? fuel f acc (rest.dropWhile (· != '\n'))
      else if c = '?' || c = '*' || c = '+' || c = '\x7b' then none
      else if c = '(' then
        match opening? f rest with
        | none => none
        | some (.flags set, rest) => sequence? fuel set acc rest
        | some (.group set wrap, rest) =>
          match alternatives? fuel set rest with
          | some (body, ')' :: rest) => continue? fuel f acc (wrap body) rest
          | _ => none
      else if c = '[' then
        match class? fuel rest with
        | some (a, rest) => continue? fuel f acc (.one a f.ignoreCase) rest
        | none => none
      else if c = '\\' then
        match escape? f rest with
        | some (item, rest) => continue? fuel f acc item rest
        | none => none
      else continue? fuel f acc (plain f c) rest

/-- Go on after an item. -/
def continue? (fuel : Nat) (f : Flags) (acc item : Pattern) (cs : List Char) :
    Option (Pattern × Flags × List Char) :=
  match fuel with
  | 0 => none
  | fuel + 1 =>
    match repeated? (fuel + 1) item cs with
    | some (item, rest) => sequence? fuel f (.seq acc item) rest
    | none => none

end

end Reader

/-- Read a pattern. -/
def read? (text : String) : Option Pattern :=
  let cs := text.toList
  match Reader.alternatives? (4 * cs.length + 4) {} cs with
  | some (a, []) => some a
  | _ => none

end Pattern

end ApiContract
