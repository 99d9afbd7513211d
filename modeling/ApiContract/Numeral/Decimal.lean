import ApiContract.Numeral.Binary64
/-!
# Decimal numerals

A decimal `± digits * 10 ^ exponent`, the grammar of a plain decimal text, and the double that
such a text denotes: the nearest one, ties to even.
-/

namespace ApiContract

/-- The number `± digits * 10 ^ exponent`. -/
structure Decimal where
  negative : Bool
  digits : Nat
  exponent : Int
deriving DecidableEq, Repr, Inhabited

namespace Decimal

/-! ## Digits -/

/-- The value of an ASCII digit. -/
def digitValue (c : Char) : Nat := c.toNat - 48

/-- The number that a list of ASCII digits spells. -/
def ofDigits (cs : List Char) : Nat := cs.foldl (fun n c => 10 * n + digitValue c) 0

/-- How many decimal digits a number has; zero has none. -/
def width (n : Nat) : Nat := if n = 0 then 0 else (Nat.toDigits 10 n).length

/-! ## Reading -/

/-- Take off a leading sign; `true` stands for minus. -/
def splitSign : List Char → Bool × List Char
  | '-' :: cs => (true, cs)
  | '+' :: cs => (false, cs)
  | cs => (false, cs)

/-- The exponent after its mark: an optional sign and at least one digit, and nothing more. -/
def readExponent (cs : List Char) : Option Int :=
  let (negative, ds) := splitSign cs
  if ds.isEmpty || !ds.all Char.isDigit then none
  else some (if negative then -(ofDigits ds : Int) else ofDigits ds)

/--
Read a decimal text: an optional sign, digits with at most one point and at least one digit, and
an optional exponent.
-/
def read? (cs : List Char) : Option Decimal :=
  let (negative, cs) := splitSign cs
  let whole := cs.takeWhile Char.isDigit
  let rest := cs.dropWhile Char.isDigit
  let (part, rest) := match rest with
    | '.' :: more => (more.takeWhile Char.isDigit, more.dropWhile Char.isDigit)
    | _ => ([], rest)
  if whole.isEmpty && part.isEmpty then none
  else
    let scale := match rest with
      | [] => some 0
      | c :: more => if c = 'e' || c = 'E' then readExponent more else none
    scale.map fun e => ⟨negative, ofDigits (whole ++ part), e - part.length⟩

/-- The double nearest to a decimal; `none` when that is beyond the range. -/
def toBinary64 (d : Decimal) : Option Binary64 :=
  let top := width d.digits + d.exponent
  if d.digits = 0 || top < -330 then some (Binary64.zero d.negative)
  else if 330 < top then none
  else
    Binary64.ofRatio d.negative (d.digits * pow10 d.exponent.toNat) (pow10 (-d.exponent).toNat)

/-- Read an integer text: an optional sign and at least one digit, and nothing more. -/
def readInt? (cs : List Char) : Option Int :=
  let (negative, ds) := splitSign cs
  if ds.isEmpty || !ds.all Char.isDigit then none
  else some (if negative then -(ofDigits ds : Int) else ofDigits ds)

end Decimal

end ApiContract
