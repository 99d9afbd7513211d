import ApiContract.Json.Basic
import ApiContract.Text.Split
import ApiContract.Url.Percent
/-!
# Query strings

The query of a request target is a form: pairs joined by `&`, each a name and a value around the
first `=`. A plus stands for a blank, escapes for bytes, and bytes that are no text become
replacement characters. A name that occurs more than once gets the array of its values, in order.
-/

namespace ApiContract

namespace Query

/-! ## Forms -/

/-- In a form a plus sign stands for a blank. -/
def plusToBlank (bs : Bytes) : Bytes := bs.map fun b => if b = 43 then 32 else b

/-- The text of one component. -/
def decodeComponent (cs : List Char) : String :=
  String.ofList (Utf8.decodeLossy (Percent.decode (plusToBlank (Utf8.encode cs))))

/-- The name and the value of one piece; without `=` the value is empty. -/
def decodePair (piece : List Char) : String × String :=
  match Text.splitOnce? '=' piece with
  | some (name, value) => (decodeComponent name, decodeComponent value)
  | none => (decodeComponent piece, "")

/-- The pairs of a form, in order; empty pieces are skipped. -/
def decodeForm (cs : List Char) : List (String × String) :=
  ((Text.splitOn '&' cs).filter (!·.isEmpty)).map decodePair

/-- Whether a byte is written as it is in a form. -/
def isPlain (b : UInt8) : Bool :=
  let n := b.toNat
  (48 ≤ n && n ≤ 57) || (65 ≤ n && n ≤ 90) || (97 ≤ n && n ≤ 122) ||
    n = 42 || n = 45 || n = 46 || n = 95

/-- Write a component: letters, digits and `*-._` as they are, a blank as a plus, all else
escaped. -/
def encodeComponent (s : String) : List Char :=
  (Utf8.encode s.toList).flatMap fun b =>
    if b = 32 then ['+'] else if isPlain b then [Char.ofNat b.toNat] else Percent.encodeByte b

/-- Write pairs as a form. -/
def encodeForm (pairs : List (String × String)) : List Char :=
  ['&'].intercalate (pairs.map fun p => encodeComponent p.1 ++ '=' :: encodeComponent p.2)

/-! ## Request targets -/

/-- The path of a target: all before the query and the fragment. -/
def pathOf (target : List Char) : List Char := Text.before (fun c => c = '?' || c = '#') target

/-- The query of a target: between the first question mark and the next number sign. -/
def queryOf (target : List Char) : List Char :=
  match Text.splitOnce? '?' target with
  | some (_, rest) => Text.before (· = '#') rest
  | none => []

/-- Add a value under a name: alone the first time, then in an array. -/
def collect (m : Assoc Json) (pair : String × String) : Assoc Json :=
  match m.get? pair.1 with
  | some (.array values) => m.insert pair.1 (.array (values ++ [.string pair.2]))
  | some first => m.insert pair.1 (.array [first, .string pair.2])
  | none => m.insert pair.1 (.string pair.2)

/-- The parameters of a target. -/
def parse (target : String) : Assoc Json :=
  (decodeForm (queryOf target.toList)).foldl collect []

/-- The path of a target. -/
def path (target : String) : String := String.ofList (pathOf target.toList)

end Query

end ApiContract
