import ApiContract.Numeral.Decimal
/-!
# The shortest decimal of a double

Among the decimals that read back as a given double, take one with the fewest digits, and of these
the one nearest to the value. The search is by exact arithmetic on natural numbers: for one digit,
two digits and so on, test the two neighbours of the value on the grid of that many digits.

How the chosen digits are laid out is a `FloatLayout`.
-/

namespace ApiContract

/-- The decisions of a float format. -/
structure FloatLayout where
  /-- The decimal exponents that are written positionally: at least the first, below the second.
  Without bounds every number is written positionally. -/
  positional : Option (Int × Int)
  /-- Whether a whole number ends in `.0`. -/
  pointZero : Bool
  /-- Whether a positive exponent carries a plus sign. -/
  plusSign : Bool
  /-- Whether, of two equally near candidates, the larger is taken and not the even one. -/
  tieUp : Bool
deriving DecidableEq, Repr

namespace Binary64

/-! ## Which digits -/

/-- Compare `a * 10 ^ i` with `n * 2 ^ j`. -/
def compareScaled (a : Nat) (i : Int) (n : Nat) (j : Int) : Ordering :=
  compare (a * pow10 i.toNat * pow2 (-j).toNat) (n * pow2 j.toNat * pow10 (-i).toNat)

/-- Whether the decimal `a * 10 ^ i` rounds to the magnitude of `x`. -/
def readsBack (x : Binary64) (a : Nat) (i : Int) : Bool :=
  let narrow := x.mantissa == pow2 52 && x.exponent > -1074
  let low := 4 * x.mantissa - (if narrow then 1 else 2)
  let high := 4 * x.mantissa + 2
  let even := x.mantissa % 2 == 0
  let cl := compareScaled a i low (x.exponent - 2)
  let ch := compareScaled a i high (x.exponent - 2)
  (cl == .gt || (even && cl == .eq)) && (ch == .lt || (even && ch == .eq))

/-- The least `k` with the magnitude of `x` below `10 ^ k`, for `x` other than zero. -/
def scale (x : Binary64) : Int :=
  let (num, den) := x.ratio
  let guess := log2Ratio num den * 30103 / 100000
  let below (k : Int) : Bool := num * pow10 (-k).toNat < den * pow10 k.toNat
  if below (guess - 1) then guess - 1
  else if below guess then guess
  else if below (guess + 1) then guess + 1
  else guess + 2

/-- The candidate of `n` digits for `x`, if a neighbour of the value on that grid reads back. -/
def candidate (tieUp : Bool) (x : Binary64) (k : Int) (n : Nat) : Option (Nat × Int) :=
  let g := k - n
  let (num, den) := x.ratio
  let top := num * pow10 (-g).toNat
  let bottom := den * pow10 g.toNat
  let d := top / bottom
  let takeUpper :=
    match compare (2 * (top % bottom)) bottom with
    | .lt => false
    | .gt => true
    | .eq => tieUp || d % 2 == 1
  match x.readsBack d g, x.readsBack (d + 1) g with
  | true, true => some (if takeUpper then d + 1 else d, g)
  | true, false => some (d, g)
  | false, true => some (d + 1, g)
  | false, false => none

/-- Move the trailing zeros of the digits into the exponent; `fuel` bounds their number. -/
def stripZeros : Nat → Nat → Int → Nat × Int
  | 0, d, e => (d, e)
  | fuel + 1, d, e => if d % 10 = 0 && d != 0 then stripZeros fuel (d / 10) (e + 1) else (d, e)

/-- The digits and the exponent of the last digit of the shortest decimal for `x`. -/
def shortest (tieUp : Bool) (x : Binary64) : Nat × Int :=
  if x.isZero then (0, 0)
  else
    let k := x.scale
    let found := ((List.range 17).map (· + 1)).findSome? (candidate tieUp x k)
    let (d, e) := found.getD (x.ratio.1, 0)
    stripZeros 20 d e

/-! ## How they are laid out -/

/-- Digits written with the point inside, before or after them; `e` belongs to the last digit. -/
def layPositional (pointZero : Bool) (ds : List Char) (e : Int) : List Char :=
  if 0 ≤ e then
    ds ++ List.replicate e.toNat '0' ++ (if pointZero then ['.', '0'] else [])
  else
    let places := (-e).toNat
    if places < ds.length then
      ds.take (ds.length - places) ++ '.' :: ds.drop (ds.length - places)
    else
      '0' :: '.' :: (List.replicate (places - ds.length) '0' ++ ds)

/-- One digit before the point, and the decimal exponent. -/
def layScientific (plusSign : Bool) (ds : List Char) (top : Int) : List Char :=
  let head := match ds with
    | [] => []
    | [c] => [c]
    | c :: more => c :: '.' :: more
  let sign := if top < 0 then ['-'] else if plusSign then ['+'] else []
  head ++ 'e' :: sign ++ Nat.toDigits 10 top.natAbs

/-- The text of a double in a given layout. -/
def render (layout : FloatLayout) (x : Binary64) : String :=
  let (d, e) := x.shortest layout.tieUp
  let ds := Nat.toDigits 10 d
  let top := e + ds.length - 1
  let plain := match layout.positional with
    | none => true
    | some (low, high) => x.isZero || (low ≤ top && top < high)
  let body :=
    if plain then layPositional layout.pointZero ds e else layScientific layout.plusSign ds top
  String.ofList (if x.negative then '-' :: body else body)

end Binary64

end ApiContract
