import ApiContract.Yaml.Cursor
/-!
# Texts on several lines

A scalar may go on over line ends. In plain and quoted scalars blanks around a line end do not
count, a single line end becomes a blank, and of several the first is dropped. In block scalars
the lines are kept, or folded where neither neighbour starts with a blank.
-/

namespace ApiContract

namespace Yaml

/-! ## Gaps -/

/-- What stands between two words of a scalar. -/
inductive Gap where
  | nothing
  /-- Blanks, the last one first. -/
  | blanks (reversed : List Char)
  /-- Line ends: the first, unless it was escaped, and the others, the last one first. -/
  | breaks (first : Option Char) (reversed : List Char)
deriving DecidableEq, Repr

namespace Gap

/-- Add a blank or a line end; blanks around a line end do not count. -/
def add (g : Gap) (c : Char) : Gap :=
  if isBreak c then
    match g with
    | breaks first more => breaks first (c :: more)
    | _ => breaks (some c) []
  else match g with
    | nothing => blanks [c]
    | blanks cs => blanks (c :: cs)
    | breaks first more => breaks first more

def isBreaks : Gap → Bool
  | breaks .. => true
  | _ => false

/-- The text that a gap stands for. -/
def fold : Gap → List Char
  | nothing => []
  | blanks cs => cs.reverse
  | breaks (some '\n') [] => [' ']
  | breaks (some '\n') more => more.reverse
  | breaks first more => first.toList ++ more.reverse

end Gap

/-- A scalar so far: where its reading is, its text with the last character first, and the gap
behind that. -/
structure Folded where
  mark : Mark
  reversed : List Char := []
  gap : Gap := .nothing
deriving DecidableEq, Repr

namespace Folded

/-- Go over a blank or a line end. -/
def pass (x : Folded) (c : Char) : Folded :=
  { x with mark := x.mark.next c, gap := x.gap.add c }

/-- Write the gap out. -/
def close (x : Folded) : Folded :=
  { x with reversed := x.gap.fold.reverse ++ x.reversed, gap := .nothing }

/-- Go over a character and write another, or the same. -/
def push (x : Folded) (c written : Char) : Folded :=
  let x := x.close
  { x with mark := x.mark.next c, reversed := written :: x.reversed }

def text (x : Folded) : String := String.ofList x.reversed.reverse

end Folded

/-! ## Plain scalars -/

/-- What stops a plain scalar inside brackets. -/
def isFlowMark (c : Char) : Bool := ",[]\x7b\x7d".toList.contains c

/-- Whether a plain scalar cannot go on at its next character. -/
def endsPlain (inFlow : Bool) (indent : Int) (x : Folded) (cs : List Char) : Bool :=
  (x.mark.column = 0 && isDocumentMark cs) ||
    (x.gap.isBreaks && !inFlow && x.mark.column < indent) ||
    match cs with
    | [] => true
    | c :: rest =>
      (c = '#' && x.gap != .nothing) || (c = ':' && isWordEnd rest) || (inFlow && isFlowMark c)

/-- Read a plain scalar; the lines after its first are indented by at least `indent`. Refused are a
tab in the indentation, and inside brackets a colon before a bracket, comma or question mark. -/
def readPlain (inFlow : Bool) (indent : Int) (x : Folded) :
    List Char → Option (Folded × List Char)
  | [] => some (x, [])
  | c :: cs =>
    if isBlank c || isBreak c then
      if c = '\t' && x.gap.isBreaks && x.mark.column < indent then none
      else readPlain inFlow indent (x.pass c) cs
    else if inFlow && c = ':' && (cs.head?.map fun d => isFlowMark d || d = '?').getD false then
      none
    else if endsPlain inFlow indent x (c :: cs) then some (x, c :: cs)
    else readPlain inFlow indent (x.push c c) cs

/-! ## Quoted scalars -/

/-- What follows a backslash. -/
inductive Escape where
  /-- A character. -/
  | char (c : Char)
  /-- A code point in so many hexadecimal digits. -/
  | digits (count : Nat)
deriving DecidableEq, Repr

/-- The meaning of a character behind a backslash. -/
def escape? (c : Char) : Option Escape :=
  match c with
  | '0' => some (.char '\x00')
  | 'a' => some (.char '\x07')
  | 'b' => some (.char '\x08')
  | 't' | '\t' => some (.char '\t')
  | 'n' => some (.char '\n')
  | 'v' => some (.char '\x0b')
  | 'f' => some (.char '\x0c')
  | 'r' => some (.char '\r')
  | 'e' => some (.char '\x1b')
  | ' ' | '"' | '/' | '\\' => some (.char c)
  | 'N' => some (.char '\u0085')
  | '_' => some (.char '\u00a0')
  | 'L' => some (.char '\u2028')
  | 'P' => some (.char '\u2029')
  | 'x' => some (.digits 2)
  | 'u' => some (.digits 4)
  | 'U' => some (.digits 8)
  | _ => none

/-- Where the reading of a quoted scalar is. -/
inductive QuotedPart where
  | words
  /-- Behind a backslash, or behind the first of two single quotes. -/
  | escaped
  /-- In the digits of a code point: the value so far, and how many digits are owed after the
  next. -/
  | code (value owed : Nat)
deriving DecidableEq, Repr

/-- Read a digit of a code point. -/
def readDigit (x : Folded) (value owed : Nat) (c : Char) : Option (Folded × QuotedPart) := do
  let value := 16 * value + (← Text.digit? c)
  match owed with
  | 0 => return (x.push c (← Text.charOf? value), .words)
  | owed + 1 => return ({ x with mark := x.mark.next c }, .code value owed)

/-- Read the character that an escape stands for. A line end that is escaped is dropped. -/
def readEscaped (quote : Char) (x : Folded) (c : Char) : Option (Folded × QuotedPart) :=
  if quote = '\'' then some (x.push c c, .words)
  else if isBreak c then
    some ({ x with mark := x.mark.next c, gap := .breaks none [] }, .words)
  else match escape? c with
    | some (.char written) => some (x.push c written, .words)
    | some (.digits count) => some ({ x with mark := x.mark.next c }, .code 0 (count - 1))
    | none => none

/-- Read a quoted scalar to its closing quote, from behind the opening one. A single quote in single
quotes is written twice. A line that separates documents may not occur in it. -/
def readQuoted (quote : Char) (x : Folded) (part : QuotedPart) :
    List Char → Option (Folded × List Char)
  | [] => none
  | c :: cs =>
    match part with
    | .code value owed => do
      let (x, part) ← readDigit x value owed c
      readQuoted quote x part cs
    | .escaped => do
      let (x, part) ← readEscaped quote x c
      readQuoted quote x part cs
    | .words =>
      if isBlank c || isBreak c then readQuoted quote (x.pass c) .words cs
      else if x.mark.column = 0 && isDocumentMark (c :: cs) then none
      else
        let x := x.close
        let behind := { x with mark := x.mark.next c }
        if c = quote then
          if quote = '\'' && cs.head? = some '\'' then readQuoted quote behind .escaped cs
          else some (behind, cs)
        else if c = '\\' && quote = '"' then readQuoted quote behind .escaped cs
        else readQuoted quote (x.push c c) .words cs

/-! ## Block scalars -/

/-- A line with what ends it; only the last one may have no end. -/
structure Line where
  content : List Char
  ending : Option Char
deriving DecidableEq, Repr

namespace Line

/-- The lines of a text. -/
def split : List Char → List Line
  | [] => [⟨[], none⟩]
  | c :: cs =>
    if isBreak c then ⟨[], some c⟩ :: split cs
    else match split cs with
      | line :: lines => { line with content := c :: line.content } :: lines
      | [] => [⟨[c], none⟩]

/-- The text of lines. -/
def join (lines : List Line) : List Char :=
  lines.flatMap fun x => x.content ++ x.ending.toList

end Line

/-- What becomes of the line ends behind the last line of a block scalar. -/
inductive Chomping where
  /-- All are dropped. -/
  | strip
  /-- The first is kept. -/
  | clip
  /-- All are kept. -/
  | keep
deriving DecidableEq, Repr

/-- How a block scalar is read. -/
structure BlockStyle where
  /-- Whether line ends are folded. -/
  folded : Bool
  chomping : Chomping
  /-- The indentation of what is around the scalar; it is negative at the top. -/
  outer : Int
deriving DecidableEq, Repr

/-- A block scalar so far. -/
structure Block where
  /-- The indentation, once it is known. -/
  indent : Option Nat
  /-- The greatest column that was reached before it was known. -/
  widest : Nat := 0
  reversed : List Char := []
  /-- The end of the last line of text. -/
  lineEnd : Option Char := none
  /-- The ends of empty lines after that, the last one first. -/
  emptyEnds : List Char := []
  /-- Whether the last line of text starts with a blank. -/
  afterBlank : Bool := false
deriving DecidableEq, Repr

namespace Block

/-- The line ends between the last line of text and the next: a line feed between lines that start
with no blank is folded. -/
def between (style : BlockStyle) (x : Block) (beforeBlank : Bool) : List Char :=
  if style.folded && x.lineEnd = some '\n' && !x.afterBlank && !beforeBlank then
    if x.emptyEnds.isEmpty then [' '] else x.emptyEnds.reverse
  else x.lineEnd.toList ++ x.emptyEnds.reverse

/-- Add a line of text. -/
def addLine (style : BlockStyle) (x : Block) (indent : Nat) (content : List Char)
    (ending : Option Char) : Block :=
  let blank := (content.head?.map isBlank).getD false
  { x with
    indent := some indent
    reversed := content.reverse ++ (x.between style blank).reverse ++ x.reversed
    lineEnd := ending
    emptyEnds := []
    afterBlank := blank }

/-- The text, without the line ends that are dropped. -/
def text (style : BlockStyle) (x : Block) : List Char :=
  x.reversed.reverse ++
    match style.chomping with
    | .strip => []
    | .clip => x.lineEnd.toList
    | .keep => x.lineEnd.toList ++ x.emptyEnds.reverse

/-- The indentation that is determined by the first line of text and the empty ones before it. -/
def determined (style : BlockStyle) (x : Block) (column : Nat) : Nat :=
  max (max x.widest column) (max (style.outer + 1).toNat 1)

/-- Read the lines of a block scalar. The result holds the column at which the next line goes on and
what is left of the lines. -/
def read (style : BlockStyle) (x : Block) : List Line → Option (Block × Nat × List Line)
  | [] => some (x, 0, [])
  | line :: lines =>
    let blanks := (line.content.takeWhile (· = ' ')).length
    let column := match x.indent with
      | some n => min n blanks
      | none => blanks
    let content := line.content.drop column
    if content.head? = some '\t' && (x.indent.map fun n => decide (column < n)).getD true then none
    else match content, line.ending with
      | [], some c =>
        read style { x with
          widest := max x.widest column
          emptyEnds := c :: x.emptyEnds } lines
      | [], none => some (x, column, ⟨[], none⟩ :: lines)
      | content, ending =>
        let indent := x.indent.getD (x.determined style column)
        if column = indent then
          match ending with
          | some _ => read style (x.addLine style indent content ending) lines
          | none => some (x.addLine style indent content none, column + content.length, [])
        else some (x, column, ⟨content, ending⟩ :: lines)

end Block

end Yaml

end ApiContract
