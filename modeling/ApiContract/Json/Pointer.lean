import ApiContract.Json.Basic
import ApiContract.Text.Split
/-!
# JSON pointers

A pointer names a part of a value by the keys and indices that lead to it, each after a slash.
Inside a segment `~1` stands for a slash and `~0` for a tilde.
-/

namespace ApiContract

namespace Pointer

/-- Write a segment: tildes first, then slashes. -/
def escape (segment : List Char) : List Char :=
  segment.flatMap fun c => if c = '~' then ['~', '0'] else if c = '/' then ['~', '1'] else [c]

/-- Turn every `~1` into a slash. -/
def slashes : List Char → List Char
  | '~' :: '1' :: cs => '/' :: slashes cs
  | c :: cs => c :: slashes cs
  | [] => []

/-- Turn every `~0` into a tilde. -/
def tildes : List Char → List Char
  | '~' :: '0' :: cs => '~' :: tildes cs
  | c :: cs => c :: tildes cs
  | [] => []

/-- Read a segment: slashes first, then tildes, so that `~01` is a tilde and a one. -/
def unescape (segment : List Char) : List Char := tildes (slashes segment)

/-- An array index: digits without a superfluous leading zero. -/
def index? (segment : List Char) : Option Nat :=
  if segment.isEmpty || !segment.all Char.isDigit then none
  else if segment.head? == some '0' && segment.length != 1 then none
  else some (Decimal.ofDigits segment)

/-- The part of a value under one segment. -/
def child? (v : Json) (segment : List Char) : Option Json :=
  match v with
  | .object members => Assoc.get? members (String.ofList segment)
  | .array items => (index? segment).bind (items[·]?)
  | _ => none

/-- The part of a value that a pointer names: the whole value for the empty pointer, nothing for a
pointer that starts otherwise than with a slash. -/
def find? (v : Json) (pointer : List Char) : Option Json :=
  match pointer with
  | [] => some v
  | '/' :: cs => (Text.splitOn '/' cs).foldlM (fun v segment => child? v (unescape segment)) v
  | _ => none

/-! ## Paths -/

/-- The pointer with the given segments. -/
def render (segments : List String) : String :=
  String.ofList (segments.flatMap fun s => '/' :: escape s.toList)

/-- A segment that is an index, all digits. -/
def isIndex (segment : List Char) : Bool := !segment.isEmpty && segment.all Char.isDigit

/-- The data path with the given segments: indices in brackets, names after a point. -/
def dotted (segments : List (List Char)) : String :=
  String.ofList (segments.flatMap fun s => if isIndex s then '[' :: s ++ [']'] else '.' :: s)

/-- The segments of a pointer; what stands before the first slash does not count. -/
def segments (pointer : List Char) : List (List Char) :=
  (Text.splitOn '/' pointer).tail.map unescape

/-- The data path of a pointer. -/
def toPath (pointer : String) : String := dotted (segments pointer.toList)

end Pointer

end ApiContract
