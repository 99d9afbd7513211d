import ApiContract.Numeral.Decimal
import ApiContract.Text.Digit
import ApiContract.Text.Split
/-!
# Addresses

Host names, addresses of the internet protocol in either version, and mail addresses.
-/

namespace ApiContract

namespace Format

/-! ## Internet protocol -/

/-- A number up to 255 without a superfluous leading zero. -/
def isOctet (cs : List Char) : Bool :=
  !cs.isEmpty && cs.length ≤ 3 && cs.all Char.isDigit && (cs.head? != some '0' || cs.length == 1) &&
    Decimal.ofDigits cs ≤ 255

/-- Four octets between points. -/
def isIpv4 (cs : List Char) : Bool :=
  let pieces := Text.splitOn '.' cs
  pieces.length == 4 && pieces.all isOctet

/-- How many groups of sixteen bits stand between colons; an address of version 4 may end the list
and counts for two. The empty text has no group. -/
def groups? (cs : List Char) : Option Nat :=
  if cs.isEmpty then some 0 else count (Text.splitOn ':' cs)
where
  count : List (List Char) → Option Nat
    | [] => some 0
    | [last] => if isGroup last then some 1 else if isIpv4 last then some 2 else none
    | g :: gs => if isGroup g then (count gs).map (· + 1) else none
  isGroup (g : List Char) : Bool := !g.isEmpty && g.length ≤ 4 && g.all Text.isHexDigit

/-- What stands before and after the first double colon. -/
def splitGap? : List Char → Option (List Char × List Char)
  | ':' :: ':' :: cs => some ([], cs)
  | c :: cs => (splitGap? cs).map fun p => (c :: p.1, p.2)
  | [] => none

/-- Eight groups, or fewer with one double colon that stands for at least one group. -/
def isIpv6 (cs : List Char) : Bool :=
  match splitGap? cs with
  | none => groups? cs == some 8
  | some (before, after) =>
    match groups? before, groups? after with
    | some a, some b => a + b ≤ 7 && !before.contains '.'
    | _, _ => false

/-! ## Host names -/

/-- A label: up to 63 characters of a kind, or hyphens that do not stand at an end. -/
def isLabel (kind : Char → Bool) (label : List Char) : Bool :=
  !label.isEmpty && label.length ≤ 63 && label.all (fun c => kind c || c = '-') &&
    label.head? != some '-' && label.getLast? != some '-'

/-- Labels between points. -/
def isHostnameOf (kind : Char → Bool) (cs : List Char) : Bool :=
  cs.length ≤ 253 && (Text.splitOn '.' cs).all (isLabel kind)

def isHostname : List Char → Bool := isHostnameOf Char.isAlphanum

/-- A host name in which characters beyond ASCII are letters. -/
def isWideHostname : List Char → Bool := isHostnameOf fun c => c.isAlphanum || 0xA0 ≤ c.toNat

/-! ## Mail addresses -/

/-- A character of an unquoted local part, other than the point. -/
def isAtomChar (c : Char) : Bool :=
  c.isAlphanum || "!#$%&'*+-/=?^_\x60\x7b|\x7d~".toList.contains c || 0x80 ≤ c.toNat

/-- A character that may stand in quotes as it is. -/
def isQuotable (c : Char) : Bool :=
  c = ' ' || c = '\t' || c = '!' || ('#' ≤ c && c ≤ '[') || (']' ≤ c && c ≤ '~') || 0x80 ≤ c.toNat

/-- The content of a quoted local part; a backslash quotes the visible character after it. -/
def isQuotedContent : List Char → Bool
  | [] => true
  | '\\' :: c :: cs => ('!' ≤ c && c ≤ '~') && isQuotedContent cs
  | c :: cs => isQuotable c && isQuotedContent cs

/-- What stands between quotes, if the text is quoted. -/
def quoted? : List Char → Option (List Char)
  | '"' :: cs => if cs.getLast? = some '"' then some cs.dropLast else none
  | _ => none

def isLocalPart (cs : List Char) : Bool :=
  !cs.isEmpty && String.utf8ByteSize (String.ofList cs) ≤ 64 &&
    match quoted? cs with
    | some inner => !inner.isEmpty && isQuotedContent inner
    | none => (Text.splitOn '.' cs).all fun atom => !atom.isEmpty && atom.all isAtomChar

/-- What stands between square brackets, if the text is bracketed. -/
def bracketed? : List Char → Option (List Char)
  | '[' :: cs => if cs.getLast? = some ']' then some cs.dropLast else none
  | _ => none

/-- The domain of a mail address: a host name, or an address in brackets. -/
def isMailDomain (hostname : List Char → Bool) (cs : List Char) : Bool :=
  match bracketed? cs with
  | some inner =>
    match Text.strip? "IPv6:".toList inner with
    | some address => isIpv6 address
    | none => isIpv4 inner
  | none => hostname cs

/-- What stands before and after the last occurrence of a character. -/
def splitLast? (sep : Char) (cs : List Char) : Option (List Char × List Char) :=
  (Text.splitOnce? sep cs.reverse).map fun p => (p.2.reverse, p.1.reverse)

/-- The address inside angle brackets at the end of a text, after a display name and a blank. -/
def displayed? (cs : List Char) : Option (List Char) := do
  let (front, back) ← splitLast? '<' cs
  let inner := Text.trim back
  if front.getLast? = some ' ' && inner.getLast? = some '>' then some inner.dropLast else none

/-- A mail address, with or without a display name. -/
def isEmailWith (hostname : List Char → Bool) (cs : List Char) : Bool :=
  match splitLast? '@' ((displayed? cs).getD cs) with
  | some (name, domain) => isLocalPart name && isMailDomain hostname domain
  | none => false

def isEmail : List Char → Bool := isEmailWith isHostname

def isWideEmail : List Char → Bool := isEmailWith isWideHostname

end Format

end ApiContract
