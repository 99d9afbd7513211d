import ApiContract.Format.Address
/-!
# Resource identifiers

The generic grammar of identifiers: a scheme, an authority, a path, a query and a fragment. A wide
identifier admits characters beyond ASCII. Templates hold expressions in braces, and pointers name
parts of a value.
-/

namespace ApiContract

namespace Format

/-- Whether every percent sign starts an escape and every other character is of a kind. -/
def escapedAll (kind : Char → Bool) : List Char → Bool
  | '%' :: a :: b :: cs => Text.isHexDigit a && Text.isHexDigit b && escapedAll kind cs
  | c :: cs => c != '%' && kind c && escapedAll kind cs
  | [] => true

/-- A letter, a digit, or a mark without a meaning; beyond ASCII only in wide identifiers. -/
def isUnreserved (wide : Bool) (c : Char) : Bool :=
  c.isAlphanum || c = '-' || c = '.' || c = '_' || c = '~' || (wide && 0xA0 ≤ c.toNat)

def isSubDelim (c : Char) : Bool := "!$&'()*+,;=".toList.contains c

/-- A character of a path segment. -/
def isPathChar (wide : Bool) (c : Char) : Bool :=
  isUnreserved wide c || isSubDelim c || c = ':' || c = '@'

def isPath (wide : Bool) : List Char → Bool := escapedAll fun c => isPathChar wide c || c = '/'

/-- A query or a fragment. -/
def isTail (wide : Bool) : List Char → Bool :=
  escapedAll fun c => isPathChar wide c || c = '/' || c = '?'

/-! ## Authorities -/

/-- What stands in brackets in place of a host name: an address of version 6 or of one to come. -/
def isLiteral (cs : List Char) : Bool :=
  isIpv6 cs ||
    match cs with
    | v :: more =>
      let version := more.takeWhile Text.isHexDigit
      match more.dropWhile Text.isHexDigit with
      | '.' :: rest =>
        (v = 'v' || v = 'V') && !version.isEmpty && !rest.isEmpty &&
          rest.all fun c => isUnreserved false c || isSubDelim c || c = ':'
      | _ => false
    | [] => false

/-- A host: a literal in brackets or a registered name; then an optional port. -/
def isHostPort (wide : Bool) (cs : List Char) : Bool :=
  let portOf : List Char → Bool
    | [] => true
    | ':' :: port => port.all Char.isDigit
    | _ => false
  match cs with
  | '[' :: more =>
    match Text.splitOnce? ']' more with
    | some (inner, rest) => isLiteral inner && portOf rest
    | none => false
  | _ =>
    escapedAll (fun c => isUnreserved wide c || isSubDelim c) (cs.takeWhile (· != ':')) &&
      portOf (cs.dropWhile (· != ':'))

def isAuthority (wide : Bool) (cs : List Char) : Bool :=
  match splitLast? '@' cs with
  | some (user, host) =>
    escapedAll (fun c => isUnreserved wide c || isSubDelim c || c = ':') user &&
      isHostPort wide host
  | none => isHostPort wide cs

/-! ## Identifiers -/

/-- Cut off what follows the first occurrence of a mark, if it occurs. -/
def cutAt (mark : Char) (cs : List Char) : List Char × List Char :=
  (Text.splitOnce? mark cs).getD (cs, [])

/-- What follows the scheme; `colons` tells whether the first segment of a bare path may hold
one. -/
def isHierarchy (wide colons : Bool) (cs : List Char) : Bool :=
  let (cs, fragment) := cutAt '#' cs
  let (cs, query) := cutAt '?' cs
  isTail wide fragment && isTail wide query &&
    match cs with
    | '/' :: '/' :: more =>
      isAuthority wide (more.takeWhile (· != '/')) && isPath wide (more.dropWhile (· != '/'))
    | _ => isPath wide cs && (colons || !(cs.takeWhile (· != '/')).contains ':')

/-- What follows the scheme and its colon, if the text starts with a scheme. -/
def afterScheme? (cs : List Char) : Option (List Char) :=
  let scheme := cs.takeWhile fun c => c.isAlphanum || c = '+' || c = '-' || c = '.'
  match cs.drop scheme.length with
  | ':' :: rest => if (scheme.head?.map Char.isAlpha).getD false then some rest else none
  | _ => none

/-- An identifier with a scheme. -/
def isUri (wide : Bool) (cs : List Char) : Bool :=
  match afterScheme? cs with
  | some rest => isHierarchy wide true rest
  | none => false

/-- An identifier with or without a scheme. -/
def isUriReference (wide : Bool) (cs : List Char) : Bool :=
  match afterScheme? cs with
  | some rest => isHierarchy wide true rest
  | none => isHierarchy wide false cs

/-! ## Templates -/

/-- A variable: names, then a length after a colon or a star. -/
def isTemplateVariable (cs : List Char) : Bool :=
  let named (c : Char) : Bool := c.isAlphanum || c = '_'
  let name := cs.takeWhile fun c => c != ':' && c != '*'
  !name.isEmpty && escapedAll named name &&
    match cs.drop name.length with
    | [] => true
    | ['*'] => true
    | ':' :: length =>
      length.all Char.isDigit && 1 ≤ length.length && length.length ≤ 4 && length.head? != some '0'
    | _ => false

/-- The content of an expression: an optional operator and variables between commas. -/
def isTemplateExpression (cs : List Char) : Bool :=
  let names := match cs with
    | c :: more => if "+#./;?&=,!@|".toList.contains c then more else cs
    | [] => []
  (Text.splitOn ',' names).all isTemplateVariable

/-- A character that may stand outside expressions. -/
def isTemplateLiteral (c : Char) : Bool :=
  ' ' < c && !("\"'<>\\^\x60\x7b|\x7d".toList.contains c)

/-- Literal text and expressions in braces. -/
def isTemplate (cs : List Char) : Bool :=
  match Text.splitOn '\x7b' cs with
  | [] => true
  | first :: others =>
    escapedAll isTemplateLiteral first &&
      others.all fun piece =>
        match Text.splitOnce? '\x7d' piece with
        | some (expression, rest) =>
          isTemplateExpression expression && escapedAll isTemplateLiteral rest
        | none => false

/-! ## Pointers -/

/-- Whether every tilde is followed by a zero or a one. -/
def tildesPaired : List Char → Bool
  | '~' :: c :: cs => (c = '0' || c = '1') && tildesPaired cs
  | ['~'] => false
  | _ :: cs => tildesPaired cs
  | [] => true

/-- A pointer: empty, or segments that each follow a slash. -/
def isPointer (cs : List Char) : Bool :=
  (cs.isEmpty || cs.head? == some '/') && tildesPaired cs

/-- How many levels up, then a number sign or a pointer. -/
def isRelativePointer (cs : List Char) : Bool :=
  let up := cs.takeWhile Char.isDigit
  !up.isEmpty && (up.head? != some '0' || up.length == 1) &&
    (cs.drop up.length == ['#'] || isPointer (cs.drop up.length))

/-- Hexadecimal digits in groups of 8, 4, 4, 4 and 12 between hyphens. -/
def isUuid (cs : List Char) : Bool :=
  let groups := Text.splitOn '-' cs
  groups.map List.length == [8, 4, 4, 4, 12] && groups.all (·.all Text.isHexDigit)

end Format

end ApiContract
