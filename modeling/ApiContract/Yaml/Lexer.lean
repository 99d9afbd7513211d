import ApiContract.Yaml.Token
/-!
# From text to tokens

Block collections are told from columns. A deeper column than the current indentation starts a
collection, a lesser one ends those that are deeper. A key needs no mark of its own: every place
where one may start is remembered, and when a colon follows on the same line, within 1024
characters, the token for a key is put in at the remembered place. A place at the very indentation
of a mapping can only start a key, so there the colon must follow.
-/

namespace ApiContract

namespace Yaml

/-- A place where a key may start. -/
structure KeyPlace where
  mark : Mark
  /-- How many tokens are before it. -/
  count : Nat
  /-- Whether nothing but a key can start here. -/
  required : Bool
deriving DecidableEq, Repr

namespace KeyPlace

/-- The most characters between the start of a key and its colon. -/
def reach : Nat := 1024

/-- Whether no colon can follow any more. -/
def isStale (x : KeyPlace) (m : Mark) : Bool :=
  x.mark.line < m.line || x.mark.index + reach < m.index

end KeyPlace

/-- A document that is partly read. -/
structure Lexing where
  cursor : Cursor
  /-- The tokens so far, the last one first. -/
  tokens : List Token := []
  /-- How many they are. -/
  count : Nat := 0
  /-- The indentation of the innermost block collection; none has -1. -/
  indent : Int := -1
  /-- The indentations around it. -/
  outerIndents : List Int := []
  /-- Whether a key may start here. -/
  keyAllowed : Bool := true
  /-- The place where a key may have started, in the innermost brackets. -/
  keyPlace : Option KeyPlace := none
  /-- The places in the brackets around them; outside of brackets there are none. -/
  outerKeyPlaces : List (Option KeyPlace) := []
deriving DecidableEq, Repr

namespace Lexing

/-! ## Indentation -/

/-- Whether reading is inside brackets. -/
def inFlow (x : Lexing) : Bool := !x.outerKeyPlaces.isEmpty

def push (x : Lexing) (t : Token) : Lexing :=
  { x with tokens := t :: x.tokens, count := x.count + 1 }

/-- Put a token in, behind the first `n` tokens. -/
def putIn (x : Lexing) (n : Nat) (t : Token) : Lexing :=
  { x with tokens := x.tokens.insertIdx (x.count - n) t, count := x.count + 1 }

/-- Start a block collection if the column is deeper than the indentation, behind the first `n`
tokens. -/
def enterBlock (x : Lexing) (column n : Nat) (start : Token) : Lexing :=
  if !x.inFlow && x.indent < column then
    { x with indent := column, outerIndents := x.indent :: x.outerIndents }.putIn n start
  else x

/-- End block collections: one for each indentation that is deeper than the column. -/
def endBlocks (x : Lexing) (column : Int) : List Int → Lexing
  | [] => x
  | outer :: more =>
    if column < x.indent then
      endBlocks ({ x with indent := outer, outerIndents := more }.push .blockEnd) column more
    else x

/-- End the block collections that are deeper than a column; inside brackets there are none. -/
def leaveBlocks (x : Lexing) (column : Int) : Lexing :=
  if x.inFlow then x else x.endBlocks column x.outerIndents

/-! ## Keys -/

/-- Forget a place, unless a key is required there. -/
def forget? : Option KeyPlace → Option (Option KeyPlace)
  | some place => if place.required then none else some none
  | none => some none

/-- Forget the innermost place. -/
def forgetKey? (x : Lexing) : Option Lexing := do
  return { x with keyPlace := ← forget? x.keyPlace }

/-- Remember that a key may start here. -/
def rememberKey? (x : Lexing) : Option Lexing :=
  if x.keyAllowed then do
    let x ← x.forgetKey?
    let mark := x.cursor.mark
    return { x with keyPlace := some ⟨mark, x.count, !x.inFlow && x.indent == mark.column⟩ }
  else some x

/-- Forget a place if it is stale. -/
def refresh? (m : Mark) (place : Option KeyPlace) : Option (Option KeyPlace) :=
  if (place.map (·.isStale m)).getD false then forget? place else some place

/-- Forget the places that are stale. -/
def refreshKeys? (x : Lexing) : Option Lexing := do
  return { x with
    keyPlace := ← refresh? x.cursor.mark x.keyPlace
    outerKeyPlaces := ← x.outerKeyPlaces.mapM (refresh? x.cursor.mark) }

/-! ## Blanks -/

/-- Go over blanks, comments and line ends. Where a key may start, a tab is no blank; outside of
brackets a key may start on every line. -/
def skipBlanks (inFlow : Bool) (m : Mark) (keyAllowed inComment : Bool) :
    List Char → Mark × Bool × List Char
  | [] => (m, keyAllowed, [])
  | c :: cs =>
    if isBreak c then skipBlanks inFlow (m.next c) (keyAllowed || !inFlow) false cs
    else if inComment || c = ' ' || (c = '\t' && (inFlow || !keyAllowed)) then
      skipBlanks inFlow (m.next c) keyAllowed inComment cs
    else if c = '#' then skipBlanks inFlow (m.next c) keyAllowed true cs
    else (m, keyAllowed, c :: cs)

/-- Go to the next token, and end what ends before it. -/
def advance? (x : Lexing) : Option Lexing := do
  let (mark, keyAllowed, rest) :=
    skipBlanks x.inFlow x.cursor.mark x.keyAllowed false x.cursor.rest
  let x ← refreshKeys? { x with cursor := ⟨mark, rest⟩, keyAllowed }
  return x.leaveBlocks x.cursor.mark.column

/-! ## Tokens -/

/-- Go on behind a token. -/
def goTo (x : Lexing) (cursor : Cursor) (t : Token) : Lexing := { x with cursor }.push t

/-- Read a token of a number of characters. -/
def take (x : Lexing) (n : Nat) (t : Token) : Lexing := x.goTo (x.cursor.skip n) t

/-- End all blocks, as the start of a document or of a directive does. -/
def endAll? (x : Lexing) : Option Lexing := do
  return { ← (x.leaveBlocks (-1)).forgetKey? with keyAllowed := false }

def readDirective? (x : Lexing) : Option Lexing := do
  let x ← x.endAll?
  let (d, cursor) ← x.cursor.readDirective?
  return x.goTo cursor (.directive d)

def readDocumentMark? (x : Lexing) (t : Token) : Option Lexing := do
  return (← x.endAll?).take 3 t

/-- Read an opening bracket. -/
def openFlow? (x : Lexing) (t : Token) : Option Lexing := do
  let x ← x.rememberKey?
  return { x with
    keyPlace := none
    outerKeyPlaces := x.keyPlace :: x.outerKeyPlaces
    keyAllowed := true }.take 1 t

/-- Read a closing bracket. -/
def closeFlow? (x : Lexing) (t : Token) : Option Lexing := do
  let x ← x.forgetKey?
  let x := match x.outerKeyPlaces with
    | place :: places => { x with keyPlace := place, outerKeyPlaces := places }
    | [] => x
  return { x with keyAllowed := false }.take 1 t

/-- Read a comma inside brackets. -/
def readFlowEntry? (x : Lexing) : Option Lexing := do
  return { ← x.forgetKey? with keyAllowed := true }.take 1 .flowEntry

/-- Where a key may start, start a block collection if the column is deep enough. Inside brackets
nothing is done. -/
def enterHere? (x : Lexing) (start : Token) : Option Lexing :=
  if x.inFlow then some x
  else if x.keyAllowed then some (x.enterBlock x.cursor.mark.column x.count start)
  else none

/-- Read the hyphen of an item. -/
def readBlockEntry? (x : Lexing) : Option Lexing := do
  let x ← (← x.enterHere? .blockSequenceStart).forgetKey?
  return { x with keyAllowed := true }.take 1 .blockEntry

/-- Read the question mark of a key. -/
def readKey? (x : Lexing) : Option Lexing := do
  let x ← (← x.enterHere? .blockMappingStart).forgetKey?
  return { x with keyAllowed := !x.inFlow }.take 1 .key

/-- Read the colon of a value. The key before it gets its token now, if it has none. -/
def readValue? (x : Lexing) : Option Lexing :=
  match x.keyPlace with
  | some place =>
    let x := (x.putIn place.count .key).enterBlock place.mark.column place.count
      .blockMappingStart
    some ({ x with keyPlace := none, keyAllowed := false }.take 1 .value)
  | none => do
    let x ← x.enterHere? .blockMappingStart
    return { x with keyAllowed := !x.inFlow }.take 1 .value

/-- Whether the name of an anchor may end here. -/
def endsName (cs : List Char) : Bool :=
  isWordEnd cs || (cs.head?.map "?:,]\x7d%@\x60".toList.contains).getD false

/-- Read a name behind its mark. -/
def readName? (x : Lexing) (token : String → Token) : Option Lexing := do
  let x ← x.rememberKey?
  let (name, cursor) := (x.cursor.skip 1).takeWhile isNameChar
  if name.isEmpty || !endsName cursor.rest then none
  else return { x with keyAllowed := false }.goTo cursor (token (String.ofList name))

def readTag? (x : Lexing) : Option Lexing := do
  let x ← x.rememberKey?
  let (t, cursor) ← x.cursor.readTagName? x.inFlow
  return { x with keyAllowed := false }.goTo cursor (.tag t)

def readQuoted? (x : Lexing) (quote : Char) : Option Lexing := do
  let x ← x.rememberKey?
  let start := x.cursor.skip 1
  let (scalar, rest) ← readQuoted quote ⟨start.mark, [], .nothing⟩ .words start.rest
  return { x with keyAllowed := false }.goTo ⟨scalar.mark, rest⟩ (.scalar false scalar.text)

/-- Read a plain scalar; behind a line end that belongs to it a key may start. -/
def readPlain? (x : Lexing) : Option Lexing := do
  let x ← x.rememberKey?
  let (scalar, rest) ←
    readPlain x.inFlow (x.indent + 1) ⟨x.cursor.mark, [], .nothing⟩ x.cursor.rest
  return { x with keyAllowed := scalar.gap.isBreaks }.goTo ⟨scalar.mark, rest⟩
    (.scalar true scalar.text)

/-- Read the chomping in the head of a block scalar. -/
def readChomping (x : Cursor) : Option Chomping × Cursor :=
  if x.rest.head? = some '+' then (some .keep, x.skip 1)
  else if x.rest.head? = some '-' then (some .strip, x.skip 1)
  else (none, x)

/-- Read the indentation in the head of a block scalar; it is not zero. -/
def readIncrement? (x : Cursor) : Option (Option Nat × Cursor) :=
  match x.rest with
  | c :: _ =>
    if c = '0' then none
    else if c.isDigit then some (some (Decimal.digitValue c), x.skip 1)
    else some (none, x)
  | [] => some (none, x)

/-- Read the head of a block scalar: chomping and indentation in either order. -/
def readBlockHead? (x : Cursor) : Option (Chomping × Option Nat × Cursor) := do
  let (before, x) := readChomping x
  let (increment, x) ← readIncrement? x
  let (behind, x) := if before.isNone && increment.isSome then readChomping x else (none, x)
  return ((before.or behind).getD .clip, increment, ← x.finishLine?)

/-- Read a block scalar. -/
def readBlock? (x : Lexing) (folded : Bool) : Option Lexing := do
  let x ← x.forgetKey?
  let (chomping, increment, start) ← readBlockHead? (x.cursor.skip 1)
  let style : BlockStyle := { folded, chomping, outer := x.indent }
  let indent := increment.map fun n => (max x.indent 0).toNat + n
  let lines := Line.split start.rest
  let (block, column, left) ← Block.read style { indent } lines
  let rest := Line.join left
  let mark : Mark :=
    { index := start.mark.index + (start.rest.length - rest.length)
      line := start.mark.line + (lines.length - left.length)
      column }
  return { x with keyAllowed := true }.goTo ⟨mark, rest⟩
    (.scalar false (String.ofList (block.text style)))

/-- Whether a plain scalar starts here. -/
def startsPlain (inFlow : Bool) (c : Char) (cs : List Char) : Bool :=
  if c = '-' then !(cs.head?.map isBlank).getD false
  else if c = '?' || c = ':' then !inFlow && !isWordEnd cs
  else !"\t,[]\x7b\x7d#&*!|>'\"%@\x60".toList.contains c

/-- Read the token that starts with a character. -/
def readToken? (x : Lexing) (c : Char) (cs : List Char) : Option Lexing :=
  if x.cursor.mark.column = 0 && c = '%' then x.readDirective?
  else if x.cursor.mark.column = 0 && isDocumentMark (c :: cs) then
    x.readDocumentMark? (if c = '-' then .documentStart else .documentEnd)
  else if c = '[' then x.openFlow? .flowSequenceStart
  else if c = '\x7b' then x.openFlow? .flowMappingStart
  else if c = ']' then x.closeFlow? .flowSequenceEnd
  else if c = '\x7d' then x.closeFlow? .flowMappingEnd
  else if c = ',' then x.readFlowEntry?
  else if c = '-' && isWordEnd cs then x.readBlockEntry?
  else if c = '?' && (x.inFlow || isWordEnd cs) then x.readKey?
  else if c = ':' && (x.inFlow || isWordEnd cs) then x.readValue?
  else if c = '*' then x.readName? .alias
  else if c = '&' then x.readName? .anchor
  else if c = '!' then x.readTag?
  else if c = '|' && !x.inFlow then x.readBlock? false
  else if c = '>' && !x.inFlow then x.readBlock? true
  else if c = '\'' || c = '"' then x.readQuoted? c
  else if startsPlain x.inFlow c cs then x.readPlain?
  else none

/-- Read all tokens. `fuel` bounds them; a token has at least one character. -/
def readAll? : Nat → Lexing → Option (List Token)
  | 0, _ => none
  | fuel + 1, x => do
    let x ← x.advance?
    match x.cursor.rest with
    | [] => return (← x.endAll?).tokens.reverse
    | c :: cs => readAll? fuel (← x.readToken? c cs)

end Lexing

/-- The place behind a byte order mark, if the text starts with one. -/
def startOf (cs : List Char) : Cursor :=
  if cs.head? = some '\uFEFF' then (⟨{}, cs⟩ : Cursor).skip 1 else ⟨{}, cs⟩

/-- The tokens of a text. -/
def tokens? (text : String) : Option (List Token) :=
  if text.toList.all isAllowed then
    let cs := unifyBreaks text.toList
    Lexing.readAll? (cs.length + 1) { cursor := startOf cs }
  else none

end Yaml

end ApiContract
