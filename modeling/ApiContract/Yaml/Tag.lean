import ApiContract.Text.Utf8
import ApiContract.Yaml.Cursor
/-!
# Tags and directives

A tag is written in full between angles, or as a handle with a suffix; directives give handles their
meaning and name the version of the format.
-/

namespace ApiContract

namespace Yaml

/-! ## Tags -/

/-- A tag as it is written: a handle, which is empty for a tag in full, and the rest. -/
structure TagName where
  handle : String
  suffix : String
deriving DecidableEq, Repr

/-- A character of a tag; in a tag in full brackets and commas are too. -/
def isTagChar (inFull : Bool) (c : Char) : Bool :=
  isNameChar c || ";/?:@&=+$.%!~*'()".toList.contains c || (inFull && ",[]".toList.contains c)

/-- How many bytes a character has by its first byte. -/
def widthOf? (b : Nat) : Option Nat :=
  if b < 0x80 then some 1
  else if b / 32 = 6 then some 2
  else if b / 16 = 14 then some 3
  else if b / 8 = 30 then some 4
  else none

/-- Read the characters of a tag as bytes. `owed` bytes of the current character must still come in
escapes. -/
def readTagBytes? : Nat → List Char → Option Bytes
  | 0, [] => some []
  | _ + 1, [] => none
  | owed, '%' :: a :: b :: cs => do
    let value := 16 * (← Text.digit? a) + (← Text.digit? b)
    match owed with
    | 0 => return UInt8.ofNat value :: (← readTagBytes? ((← widthOf? value) - 1) cs)
    | owed + 1 =>
      if value / 64 = 2 then return UInt8.ofNat value :: (← readTagBytes? owed cs) else none
  | 0, c :: cs =>
    if c = '%' then none else return UInt8.ofNat c.toNat :: (← readTagBytes? 0 cs)
  | _ + 1, _ :: _ => none

/-- The text of the characters of a tag, without escapes. -/
def tagText? (cs : List Char) : Option String :=
  (readTagBytes? 0 cs).map fun bytes => String.ofList (Utf8.decodeLossy bytes)

namespace Cursor

/-- Read the characters of a tag; there must be some. -/
def readTag? (x : Cursor) (inFull : Bool) : Option (String × Cursor) := do
  let (cs, x) := x.takeWhile (isTagChar inFull)
  if cs.isEmpty then none else return (← tagText? cs, x)

/-- Read a tag in full, from behind its opening angle. -/
def readFullTag? (x : Cursor) : Option (TagName × Cursor) := do
  let (suffix, x) ← x.readTag? true
  return (⟨"", suffix⟩, ← x.expect? '>')

/-- Read a tag with a handle, from behind its first mark. A handle of its own ends with a second
mark; otherwise all belongs to the suffix. The lone mark is a tag in full. -/
def readShortTag? (x : Cursor) : Option (TagName × Cursor) := do
  let (name, y) := x.takeWhile isNameChar
  if y.rest.head? = some '!' then
    let (suffix, y) ← (y.skip 1).readTag? false
    return (⟨"!" ++ String.ofList name ++ "!", suffix⟩, y)
  else
    let (cs, x) := x.takeWhile (isTagChar false)
    let suffix ← tagText? cs
    return (if suffix.isEmpty then ⟨"", "!"⟩ else ⟨"!", suffix⟩, x)

/-- Read a tag, from its first mark. A blank or line end must follow, or inside brackets a comma. -/
def readTagName? (x : Cursor) (inFlow : Bool) : Option (TagName × Cursor) := do
  let x := x.skip 1
  let (tag, x) ← if x.rest.head? = some '<' then (x.skip 1).readFullTag? else x.readShortTag?
  if isWordEnd x.rest || (inFlow && x.rest.head? = some ',') then return (tag, x) else none

end Cursor

/-! ## Directives -/

/-- What a directive says. -/
inductive Directive where
  | version (major minor : Nat)
  /-- The meaning of a handle. -/
  | handle (handle meaning : String)
deriving DecidableEq, Repr

namespace Cursor

/-- Read a number of at most nine digits. -/
def readNumber? (x : Cursor) : Option (Nat × Cursor) :=
  let (digits, x) := x.takeWhile Char.isDigit
  if digits.isEmpty || 9 < digits.length then none
  else some (Decimal.ofDigits digits, x)

/-- Read the version of the format. -/
def readVersion? (x : Cursor) : Option (Directive × Cursor) := do
  let (major, x) ← (x.skipWhile isBlank).readNumber?
  let (minor, x) ← (← x.expect? '.').readNumber?
  return (.version major minor, x)

/-- Read a handle: a mark, or a name between two. -/
def readHandle? (x : Cursor) : Option (String × Cursor) := do
  let (name, x) := (← x.expect? '!').takeWhile isNameChar
  if x.rest.head? = some '!' then return ("!" ++ String.ofList name ++ "!", x.skip 1)
  else if name.isEmpty then return ("!", x)
  else none

/-- Read a handle with its meaning. -/
def readMeaning? (x : Cursor) : Option (Directive × Cursor) := do
  let (handle, x) ← (x.skipWhile isBlank).readHandle?
  if (x.rest.head?.map isBlank).getD false then
    let (meaning, x) ← (x.skipWhile isBlank).readTag? true
    if isWordEnd x.rest then return (.handle handle meaning, x) else none
  else none

/-- Read a directive and the end of its line, from its percent sign. -/
def readDirective? (x : Cursor) : Option (Directive × Cursor) := do
  let (name, x) := (x.skip 1).takeWhile isNameChar
  if !isWordEnd x.rest then none
  let (directive, x) ←
    if name = "YAML".toList then x.readVersion?
    else if name = "TAG".toList then x.readMeaning?
    else none
  return (directive, ← x.finishLine?)

end Cursor

end Yaml

end ApiContract
