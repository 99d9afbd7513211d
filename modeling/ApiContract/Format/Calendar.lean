import ApiContract.Numeral.Decimal
/-!
# Dates, times and durations

The calendar formats of a schema: a full date, a time of day with its offset, both joined by a `T`,
and a duration of years down to seconds. A minute may have a second numbered sixty only where it is
the last minute of a day in universal time.
-/

namespace ApiContract

namespace Format

/-- The number that two digits spell. -/
def twoDigits? (a b : Char) : Option Nat :=
  if a.isDigit && b.isDigit then some (10 * Decimal.digitValue a + Decimal.digitValue b) else none

/-! ## Dates -/

def isLeapYear (year : Nat) : Bool := (year % 4 == 0 && year % 100 != 0) || year % 400 == 0

/-- How many days a month has; a number that is no month has none. -/
def daysIn (year month : Nat) : Nat :=
  if month = 2 then if isLeapYear year then 29 else 28
  else if month = 4 || month = 6 || month = 9 || month = 11 then 30
  else if 1 ≤ month && month ≤ 12 then 31
  else 0

/-- A date `YYYY-MM-DD` of the Gregorian calendar. -/
def isDate : List Char → Bool
  | [y₁, y₂, y₃, y₄, '-', m₁, m₂, '-', d₁, d₂] =>
    match twoDigits? y₁ y₂, twoDigits? y₃ y₄, twoDigits? m₁ m₂, twoDigits? d₁ d₂ with
    | some century, some year, some month, some day =>
      1 ≤ day && day ≤ daysIn (100 * century + year) month
    | _, _, _, _ => false
  | _ => false

/-! ## Times -/

/-- How many minutes local time is ahead of universal time: `Z`, or a sign, hours and minutes. -/
def offset? : List Char → Option Int
  | [c] => if c = 'Z' || c = 'z' then some 0 else none
  | [sign, h₁, h₂, ':', m₁, m₂] => do
    let hour ← twoDigits? h₁ h₂
    let minute ← twoDigits? m₁ m₂
    if 23 < hour || 59 < minute then none
    else if sign = '+' then some (60 * hour + minute)
    else if sign = '-' then some (-(60 * hour + minute : Int))
    else none
  | _ => none

/-- Drop a fraction of a second; nothing when a point has no digit after it. -/
def dropFraction? : List Char → Option (List Char)
  | '.' :: cs =>
    if (cs.takeWhile Char.isDigit).isEmpty then none else some (cs.dropWhile Char.isDigit)
  | cs => some cs

/-- A time `hh:mm:ss` with an optional fraction and an offset. -/
def isTime : List Char → Bool
  | h₁ :: h₂ :: ':' :: m₁ :: m₂ :: ':' :: s₁ :: s₂ :: rest =>
    let ahead := (dropFraction? rest).bind offset?
    match twoDigits? h₁ h₂, twoDigits? m₁ m₂, twoDigits? s₁ s₂, ahead with
    | some hour, some minute, some second, some offset =>
      hour ≤ 23 && minute ≤ 59 &&
        (second ≤ 59 || (second == 60 && (60 * (hour : Int) + minute - offset) % 1440 == 1439))
    | _, _, _, _ => false
  | _ => false

/-- A date and a time around the first `T`. -/
def isDateTime (cs : List Char) : Bool :=
  let mark (c : Char) : Bool := c = 'T' || c = 't'
  match cs.dropWhile (!mark ·) with
  | [] => false
  | _ :: time => isDate (cs.takeWhile (!mark ·)) && isTime time

/-! ## Durations -/

/-- Amounts with units taken from a list in its order, each at most once; at least one is required.
What is left begins with no digit. -/
def dropAmounts? (units : List Char) (cs : List Char) : Option (List Char) :=
  match (units.foldl step (cs, false)) with
  | (rest, true) => some rest
  | (_, false) => none
where
  step (state : List Char × Bool) (unit : Char) : List Char × Bool :=
    let digits := state.1.takeWhile Char.isDigit
    match state.1.dropWhile Char.isDigit with
    | c :: rest => if !digits.isEmpty && c = unit then (rest, true) else state
    | [] => state

/-- The part of a duration that is shorter than a day: nothing, or `T` and at least one amount. -/
def isDayPart : List Char → Bool
  | [] => true
  | 'T' :: cs => dropAmounts? ['H', 'M', 'S'] cs == some []
  | _ => false

/-- A duration: `P` with weeks alone, or with years, months, days and a part shorter than a day. -/
def isDuration : List Char → Bool
  | 'P' :: cs =>
    dropAmounts? ['W'] cs == some [] ||
      match dropAmounts? ['Y', 'M', 'D'] cs with
      | some rest => isDayPart rest
      | none => !cs.isEmpty && isDayPart cs
  | _ => false

end Format

end ApiContract
