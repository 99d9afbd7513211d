import ApiContract.Numeral.Shortest
/-!
# Numbers of a JSON text

A number is a whole number of 64 bits, signed or not, or a double. The two are different values
even where they stand for the same real number: `1` and `1.0` print differently.
-/

namespace ApiContract

/-- A JSON number. -/
inductive Number where
  | int (n : Int)
  | real (x : Binary64)
deriving DecidableEq, Repr, Inhabited

namespace Number

/-- The real number that is meant. -/
def value : Number → Rat
  | .int n => n
  | .real x => x.value

/-- Whether two numbers are of one kind and mean the same real number. -/
def same : Number → Number → Bool
  | .int m, .int n => m == n
  | .real x, .real y => x.value == y.value
  | _, _ => false

/-- Whether two numbers mean the same real number. -/
def equal (m n : Number) : Bool := m.value == n.value

/-- Whether the number is written as a whole number. -/
def isInt : Number → Bool
  | .int _ => true
  | .real _ => false

/-- Whether the number means a whole number, however it is written. -/
def isIntegral : Number → Bool
  | .int _ => true
  | .real x => x.isIntegral

/-- The nearest double. -/
def toBinary64 : Number → Binary64
  | .int n => (Binary64.ofInt n).getD (.zero false)
  | .real x => x

/-- The least whole number that is kept exact. -/
def minInt : Int := -pow2 63

/-- A double is written with the fewest digits that identify it, positionally from `1e-5` up to
below `1e16`, otherwise with a signed exponent. -/
def floatLayout : FloatLayout where
  positional := some (-5, 16)
  pointZero := true
  plusSign := true
  tieUp := false

/-- The text of a number. -/
def render : Number → String
  | .int n => if n < 0 then "-" ++ toString n.natAbs else toString n.natAbs
  | .real x => x.render floatLayout

/-! ## Reading a literal -/

/-- The significand while digits are read: digits are kept as long as the number fits 64 bits. -/
structure Significand where
  digits : Nat
  exponent : Int
  full : Bool

/-- Append a digit left of the point. -/
def Significand.pushWhole (s : Significand) (c : Char) : Significand :=
  let n := 10 * s.digits + Decimal.digitValue c
  if s.full || pow2 64 ≤ n then { s with exponent := s.exponent + 1, full := true }
  else { s with digits := n }

/-- Append a digit right of the point. -/
def Significand.pushFraction (s : Significand) (c : Char) : Significand :=
  let n := 10 * s.digits + Decimal.digitValue c
  if s.full || pow2 64 ≤ n then { s with full := true }
  else { s with digits := n, exponent := s.exponent - 1 }

/-- The double nearest to `10 ^ k`. -/
def powerOfTen (k : Nat) : Binary64 := (Binary64.ofRatio false (pow10 k) 1).getD (.zero false)

/-- Divide by `10 ^ 308` until the power of ten that is left is in range; `fuel` bounds the steps.
The result is zero when the value is too small for any double. -/
def divideDown : Nat → Binary64 → Nat → Binary64
  | 0, x, _ => .zero x.negative
  | fuel + 1, x, k =>
    if k ≤ 308 then (x.div (powerOfTen k)).getD (.zero x.negative)
    else if x.isZero then x
    else divideDown fuel ((x.div (powerOfTen 308)).getD (.zero x.negative)) (k - 308)

/--
The double that a literal with this significand and exponent denotes: the significand as a double,
times or divided by one rounded power of ten. `none` when the value is out of range.
-/
def scaled (negative : Bool) (digits : Nat) (exponent : Int) : Option Binary64 := do
  let x ← Binary64.ofRatio negative digits 1
  if exponent < 0 then some (divideDown 4 x exponent.natAbs)
  else if exponent ≤ 308 then x.mul (powerOfTen exponent.toNat)
  else if x.isZero then some x
  else none

/-- The exponent of a literal, cut off where no double can tell the difference. -/
def clampExponent (e : Int) : Int := max (-100000) (min 100000 e)

/--
Read a number literal: an optional minus, digits without a superfluous leading zero, an optional
fraction and an optional exponent. A literal without fraction and exponent that fits is a whole
number, except `-0`; every other literal is a double.
-/
def read? (cs : List Char) : Option Number :=
  let (negative, cs) := match cs with
    | '-' :: cs => (true, cs)
    | cs => (false, cs)
  let whole := cs.takeWhile Char.isDigit
  let rest := cs.dropWhile Char.isDigit
  if whole.isEmpty || (whole.head? == some '0' && whole.length != 1) then none
  else
    let s := whole.foldl Significand.pushWhole ⟨0, 0, false⟩
    match rest with
    | [] =>
      let n : Int := if negative then -(s.digits : Int) else s.digits
      if s.full || n < minInt || (negative && n = 0) then
        (scaled negative s.digits s.exponent).map .real
      else some (.int n)
    | '.' :: more =>
      let part := more.takeWhile Char.isDigit
      if part.isEmpty then none
      else
        -- digits after the point are appended even when a digit before it was dropped
        let t := part.foldl Significand.pushFraction { s with full := false }
        match more.dropWhile Char.isDigit with
        | [] => (scaled negative t.digits t.exponent).map .real
        | c :: ds => if c = 'e' || c = 'E' then withExponent negative t ds else none
    | c :: ds => if c = 'e' || c = 'E' then withExponent negative s ds else none
where
  withExponent (negative : Bool) (s : Significand) (ds : List Char) : Option Number := do
    let e ← Decimal.readExponent ds
    if s.digits = 0 then some (.real (.zero negative))
    else (scaled negative s.digits (clampExponent (s.exponent + e))).map .real

end Number

end ApiContract
