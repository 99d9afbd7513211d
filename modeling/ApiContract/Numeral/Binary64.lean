import ApiContract.Numeral.Power
/-!
# Finite binary64 numbers

A finite double is a sign, a whole mantissa and a power of two. All operations work on exact
natural numbers and round once, so every result is a value that the logic can compute with.

The values that arise are in the format's normal form: `2^52 ≤ mantissa < 2^53` and
`-1074 ≤ exponent ≤ 971`, or a smaller mantissa with the least exponent.
-/

namespace ApiContract

/-- The finite double `± mantissa * 2 ^ exponent`. -/
structure Binary64 where
  negative : Bool
  mantissa : Nat
  exponent : Int
deriving DecidableEq, Repr, Inhabited

namespace Binary64

/-! ## Values -/

/-- Zero of the given sign. -/
def zero (negative : Bool) : Binary64 := ⟨negative, 0, -1074⟩

/-- The magnitude as a numerator and a positive denominator. -/
def ratio (x : Binary64) : Nat × Nat :=
  (x.mantissa * pow2 x.exponent.toNat, pow2 (-x.exponent).toNat)

/-- The real number a double stands for. -/
def value (x : Binary64) : Rat :=
  mkRat (if x.negative then -(x.ratio.1 : Int) else x.ratio.1) x.ratio.2

/-! ## Rounding -/

/-- The whole number nearest to `num / den`; a half goes to the even neighbour. -/
def divEven (num den : Nat) : Nat :=
  let q := num / den
  let twice := 2 * (num % den)
  if twice < den then q else if den < twice then q + 1 else q + q % 2

/-- The largest `e` with `2 ^ e ≤ num / den`, for positive `num` and `den`. -/
def log2Ratio (num den : Nat) : Int :=
  let e : Int := (num.log2 : Int) - den.log2
  if den * pow2 e.toNat ≤ num * pow2 (-e).toNat then e else e - 1

/-- The double nearest to `± num / den`, ties to even; `none` when that is beyond the range. -/
def ofRatio (negative : Bool) (num den : Nat) : Option Binary64 :=
  if num = 0 then some (zero negative)
  else
    let last := max (log2Ratio num den - 52) (-1074)
    let m := divEven (num * pow2 (-last).toNat) (den * pow2 last.toNat)
    let (m, last) := if m = pow2 53 then (pow2 52, last + 1) else (m, last)
    if 971 < last then none else some ⟨negative, m, last⟩

/-- The double nearest to a whole number. -/
def ofInt (n : Int) : Option Binary64 := ofRatio (n < 0) n.natAbs 1

/-! ## Arithmetic, each operation rounded once -/

def mul (x y : Binary64) : Option Binary64 :=
  ofRatio (x.negative != y.negative) (x.ratio.1 * y.ratio.1) (x.ratio.2 * y.ratio.2)

/-- The quotient, for a divisor other than zero. -/
def div (x y : Binary64) : Option Binary64 :=
  ofRatio (x.negative != y.negative) (x.ratio.1 * y.ratio.2) (x.ratio.2 * y.ratio.1)

def isZero (x : Binary64) : Bool := x.mantissa == 0

/-- Whether the value is a whole number. -/
def isIntegral (x : Binary64) : Bool := x.ratio.1 % x.ratio.2 == 0

/-- What is left of the magnitude after its whole part, as a numerator over the denominator. -/
def fraction (x : Binary64) : Nat × Nat := (x.ratio.1 % x.ratio.2, x.ratio.2)

end Binary64

end ApiContract
