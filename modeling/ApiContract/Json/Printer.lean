import ApiContract.Json.Basic
/-!
# The text of a JSON value

`compress` writes a value without blanks; `pretty` indents by two blanks a level. Both write the
members of an object in key order and leave every character as it is, except the quote, the
backslash and the control characters.
-/

namespace ApiContract

namespace Json

/-- The form of a character inside quotes. -/
def escapeChar (c : Char) : List Char :=
  if c = '"' then ['\\', '"']
  else if c = '\\' then ['\\', '\\']
  else if c = '\n' then ['\\', 'n']
  else if c = '\r' then ['\\', 'r']
  else if c = '\t' then ['\\', 't']
  else if c = '\x08' then ['\\', 'b']
  else if c = '\x0c' then ['\\', 'f']
  else if c.toNat < 32 then
    ['\\', 'u', '0', '0', Nat.digitChar (c.toNat / 16), Nat.digitChar (c.toNat % 16)]
  else [c]

/-- A text in quotes. -/
def quote (s : String) : String := "\"" ++ String.ofList (s.toList.flatMap escapeChar) ++ "\""

mutual

/-- The text of a value without blanks. -/
def compress : Json → String
  | .null => "null"
  | .bool b => if b then "true" else "false"
  | .number n => n.render
  | .string s => quote s
  | .array items => "[" ++ compressItems items ++ "]"
  | .object members => "\x7b" ++ compressMembers members ++ "\x7d"

def compressItems : List Json → String
  | [] => ""
  | [v] => compress v
  | v :: w :: vs => compress v ++ "," ++ compressItems (w :: vs)

def compressMembers : List (String × Json) → String
  | [] => ""
  | [(k, v)] => quote k ++ ":" ++ compress v
  | (k, v) :: e :: es => quote k ++ ":" ++ compress v ++ "," ++ compressMembers (e :: es)

end

/-- A line break and the blanks of a nesting level. -/
def newline (level : Nat) : String := "\n" ++ String.ofList (List.replicate (2 * level) ' ')

mutual

/-- The text of a value at a nesting level, one member or item a line. -/
def prettyAt (level : Nat) : Json → String
  | .null => "null"
  | .bool b => if b then "true" else "false"
  | .number n => n.render
  | .string s => quote s
  | .array [] => "[]"
  | .array (v :: vs) => "[" ++ prettyItems (level + 1) (v :: vs) ++ newline level ++ "]"
  | .object [] => "\x7b\x7d"
  | .object (e :: es) => "\x7b" ++ prettyMembers (level + 1) (e :: es) ++ newline level ++ "\x7d"

def prettyItems (level : Nat) : List Json → String
  | [] => ""
  | [v] => newline level ++ prettyAt level v
  | v :: w :: vs => newline level ++ prettyAt level v ++ "," ++ prettyItems level (w :: vs)

def prettyMembers (level : Nat) : List (String × Json) → String
  | [] => ""
  | [(k, v)] => newline level ++ quote k ++ ": " ++ prettyAt level v
  | (k, v) :: e :: es =>
    newline level ++ quote k ++ ": " ++ prettyAt level v ++ "," ++ prettyMembers level (e :: es)

end

/-- The text of a value, indented by two blanks a level. -/
def pretty (v : Json) : String := prettyAt 0 v

/-- A text without quotes when the value is one, the text of the value otherwise. -/
def display : Json → String
  | .string s => s
  | v => compress v

end Json

end ApiContract
