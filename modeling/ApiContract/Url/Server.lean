import ApiContract.Format.Address
import ApiContract.Numeral.Power
import ApiContract.Url.Percent
/-!
# The path of a server address

An address is read as browsers read it: blanks around it and line breaks inside it do not count, a
known scheme always has a host, a backslash is a slash where the scheme is known, and dot segments
are taken out of the path. What cannot be read so is read again as the path of a server without a
name.
-/

namespace ApiContract

namespace ServerUrl

/-- What a scheme says about the rest of an address. -/
inductive Scheme where
  /-- A host and a path. -/
  | web
  /-- A path on a machine, behind an optional host. -/
  | file
  /-- A host and a path, or a path, or anything else. -/
  | other
deriving DecidableEq, Repr

namespace Scheme

/-- What a scheme, in lower case, says. -/
def ofName (name : String) : Scheme :=
  if ["http", "https", "ws", "wss", "ftp"].contains name then .web
  else if name = "file" then .file
  else .other

/-- Whether a backslash is a slash. -/
def isKnown (s : Scheme) : Bool := s != .other

/-- Whether a character separates segments. -/
def isSlash (s : Scheme) (c : Char) : Bool := c = '/' || (s.isKnown && c = '\\')

/-- Whether a character ends the authority. -/
def endsAuthority (s : Scheme) (c : Char) : Bool := s.isSlash c || c = '?' || c = '#'

end Scheme

/-- Drop blanks and control characters at both ends, and tabs and line breaks everywhere. -/
def cleaned (cs : List Char) : List Char :=
  let blank (c : Char) : Bool := c ≤ ' '
  (Text.dropEnd blank (cs.dropWhile blank)).filter fun c => c != '\t' && c != '\n' && c != '\r'

/-- The scheme, in lower case, and what follows its colon. -/
def splitScheme? (cs : List Char) : Option (String × List Char) :=
  let scheme := cs.takeWhile fun c => c.isAlphanum || c = '+' || c = '-' || c = '.'
  match cs.drop scheme.length with
  | ':' :: rest =>
    if (scheme.head?.map Char.isAlpha).getD false then
      some (String.ofList (scheme.map Char.toLower), rest)
    else none
  | _ => none

/-! ## Paths -/

/-- Whether a character is escaped in a path. -/
def isEscapedInPath (c : Char) : Bool :=
  c ≤ ' ' || '\x7f' ≤ c || "\"<>\x60#?\x7b\x7d".toList.contains c

/-- Whether a character is escaped in a path without segments. -/
def isEscapedInOpaque (c : Char) : Bool := c < ' ' || '\x7f' ≤ c

/-- A segment with its escaped points written out. -/
def pointsOf : List Char → List Char
  | '%' :: '2' :: c :: cs =>
    if c = 'e' || c = 'E' then '.' :: pointsOf cs else '%' :: '2' :: c :: cs
  | '.' :: cs => '.' :: pointsOf cs
  | cs => cs

/-- Whether a segment means the current level. -/
def isHere (segment : List Char) : Bool := pointsOf segment == ['.']

/-- Whether a segment means the level above. -/
def isAbove (segment : List Char) : Bool := pointsOf segment == ['.', '.']

/-- Whether a segment is a letter and a colon or bar. -/
def isDrive : List Char → Bool
  | [letter, mark] => letter.isAlpha && (mark = ':' || mark = '|')
  | _ => false

/-- The segments of one level higher; a drive is never left. -/
def above (scheme : Scheme) (path : List (List Char)) : List (List Char) :=
  match path with
  | [only] => if scheme = .file && isDrive only then [only] else []
  | _ => path.dropLast

/-- Append a segment; a drive at the start of a file path is written with a colon. -/
def enter (scheme : Scheme) (path : List (List Char)) (segment : List Char) : List (List Char) :=
  if scheme = .file && path.isEmpty && isDrive segment then [segment.take 1 ++ [':']]
  else path ++ [segment]

/-- Walk along segments, given the path so far; the last one never leaves the path without an
end. -/
def walk (scheme : Scheme) (path : List (List Char)) : List (List Char) → List (List Char)
  | [] => path
  | [last] =>
    if isAbove last then above scheme path ++ [[]]
    else if isHere last then path ++ [[]]
    else enter scheme path last
  | segment :: rest =>
    if isAbove segment then walk scheme (above scheme path) rest
    else if isHere segment then walk scheme path rest
    else walk scheme (enter scheme path segment) rest

/-- The part of an address that belongs to the path. -/
def untilQuery (cs : List Char) : List Char := Text.before (fun c => c = '?' || c = '#') cs

/-- The path behind its first slash. -/
def pathOf (scheme : Scheme) (cs : List Char) : List Char :=
  let slashed := (untilQuery cs).map fun c => if scheme.isSlash c then '/' else c
  let segments := (Text.splitOn '/' slashed).map fun segment =>
    segment.flatMap (Percent.encodeChar isEscapedInPath)
  let path := (walk scheme [] segments).flatMap ('/' :: ·)
  if scheme = .file then '/' :: path.dropWhile (· = '/') else path

/-! ## Hosts -/

/-- The value of a number in a host: decimal, octal after a zero, hexadecimal after `0x`. -/
def hostNumber? (cs : List Char) : Option Nat :=
  match cs with
  | [] => none
  | '0' :: 'x' :: ds => Text.digits? 16 ds
  | '0' :: 'X' :: ds => Text.digits? 16 ds
  | '0' :: ds => Text.digits? 8 ds
  | ds => Text.digits? 10 ds

/-- The labels of a host without the empty one at the end. -/
def labelsOf (host : List Char) : List (List Char) :=
  let labels := Text.splitOn '.' host
  if labels.length != 1 && labels.getLast? == some [] then labels.dropLast else labels

/-- Whether a host is meant to be a number. -/
def endsInNumber (host : List Char) : Bool :=
  match (labelsOf host).getLast? with
  | some last => (!last.isEmpty && last.all Char.isDigit) || (hostNumber? last).isSome
  | none => false

/-- Whether numbers between points make an address of version 4; the last fills what is left. -/
def isNumericHost (host : List Char) : Bool :=
  match (labelsOf host).mapM hostNumber? with
  | none => false
  | some numbers =>
    match numbers.getLast? with
    | none => false
    | some last =>
      numbers.length ≤ 4 && numbers.dropLast.all (· ≤ 255) && last < pow2 (8 * (5 - numbers.length))

/-- Whether a text in brackets is a host; `none` if it has no brackets. -/
def isBracketed? : List Char → Option Bool
  | '[' :: cs => some (cs.getLast? == some ']' && Format.isIpv6 cs.dropLast)
  | _ => none

/-- Whether a host of a known scheme can be read. -/
def isWebHost (host : List Char) : Bool :=
  (isBracketed? host).getD <|
    let decoded := Utf8.decodeLossy (Percent.decode (Utf8.encode host))
    let forbidden (c : Char) : Bool :=
      c ≤ ' ' || c = '\x7f' || c = '\uFFFD' || "#%/:<>?@[\\]^|".toList.contains c
    !decoded.isEmpty && !decoded.any forbidden && (!endsInNumber decoded || isNumericHost decoded)

/-- Whether a host of another scheme can be read. -/
def isOtherHost (host : List Char) : Bool :=
  (isBracketed? host).getD <|
    !host.any fun c => c = '\x00' || " #/:<>?@[\\]^|".toList.contains c

/-- The characters of a host up to the colon of its port; colons in brackets do not count. -/
def takeHost (inside : Bool) : List Char → List Char
  | [] => []
  | c :: cs =>
    if c = ':' && !inside then []
    else c :: takeHost (if c = '[' then true else if c = ']' then false else inside) cs

/-- Whether a port is a number up to 65535, or absent. -/
def isPort : List Char → Bool
  | [] => true
  | ':' :: digits =>
    digits.all Char.isDigit && Decimal.ofDigits digits ≤ 65535
  | _ => false

/-- Whether an authority can be read: credentials before the last `@`, a host, and a port. -/
def isAuthority (scheme : Scheme) (cs : List Char) : Bool :=
  let (credentials, hostPort) := match Format.splitLast? '@' cs with
    | some (user, rest) => (some user, rest)
    | none => (none, cs)
  let host := takeHost false hostPort
  let port := hostPort.drop host.length
  isPort port &&
    match scheme with
    | .other =>
      isOtherHost host && !(host.isEmpty && (!port.isEmpty || credentials.isSome))
    | _ => isWebHost host

/-! ## Addresses -/

/-- The authority that a text starts with. In a port a backslash ends it whatever the scheme. -/
def takeAuthority (scheme : Scheme) (cs : List Char) : List Char :=
  let whole := cs.takeWhile (!scheme.endsAuthority ·)
  let hostPort := match Format.splitLast? '@' whole with
    | some (_, rest) => rest
    | none => whole
  let port := hostPort.drop (takeHost false hostPort).length
  whole.take (whole.length - (port.dropWhile (· != '\\')).length)

/-- The path behind an authority, if that can be read. -/
def behindAuthority? (scheme : Scheme) (cs : List Char) : Option (List Char) :=
  let authority := takeAuthority scheme cs
  if isAuthority scheme authority then
    match cs.drop authority.length with
    | c :: more =>
      if scheme.isSlash c then some (pathOf scheme more)
      else if scheme = .other && (c = '?' || c = '#') then some []
      else some (pathOf scheme (c :: more))
    | [] => if scheme = .other then some [] else some ['/']
  else none

/-- The path of a file address, behind the host that two slashes introduce. -/
def filePath? (cs : List Char) : Option (List Char) :=
  let slash (c : Char) : Bool := Scheme.file.isSlash c
  match cs with
  | a :: b :: more =>
    if slash a && slash b then
      let host := more.takeWhile (!Scheme.file.endsAuthority ·)
      if isDrive host then some (pathOf .file more)
      else if host.isEmpty || isWebHost host then
        let rest := more.drop host.length
        some (pathOf .file (if (rest.head?.map slash).getD false then rest.drop 1 else rest))
      else none
    else if slash a then some (pathOf .file (b :: more))
    else some (pathOf .file cs)
  | [a] => some (pathOf .file (if slash a then [] else [a]))
  | [] => some ['/']

/-- The path of an address with a scheme, if it can be read. -/
def read? (url : List Char) : Option (List Char) := do
  let (name, rest) ← splitScheme? (cleaned url)
  match Scheme.ofName name with
  | .web => behindAuthority? .web (rest.dropWhile Scheme.web.isSlash)
  | .file => filePath? rest
  | .other =>
    match rest with
    | '/' :: '/' :: more => behindAuthority? .other more
    | '/' :: more => some (pathOf .other more)
    | _ => some ((untilQuery rest).flatMap (Percent.encodeChar isEscapedInOpaque))

/-- The path of a server address: of the address itself, or else of the text behind a nameless
server. -/
def path? (url : List Char) : Option (List Char) :=
  match read? url with
  | some path => some path
  | none => read? ("http://dummy".toList ++ url)

end ServerUrl

end ApiContract
