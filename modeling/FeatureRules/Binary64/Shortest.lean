import FeatureRules.Binary64

/-!
# Shortest decimals

The shortest decimal that rounds to a given binary number, and the nearest one of that length.
-/

namespace FeatureRules

namespace Binary64

/-- The decimals that round to a positive number, scaled to integers by one common divisor. The ends
belong to the interval when the significand is even. -/
structure Interval where
  lower : Nat
  value : Nat
  upper : Nat
  divisor : Nat
  closed : Bool

/-- The interval of a number: half a unit of the last place to either side, and a quarter below the
least significand of a binade, where numbers lie twice as dense. -/
def interval (number : Binary64) : Interval :=
  let below :=
    if number.significand = Nat.pow 2 52 ∧ leastExponent < number.exponent then 1 else 2
  let factor := Nat.pow 2 (number.exponent - 2).toNat
  { lower := (4 * number.significand - below) * factor
    value := 4 * number.significand * factor
    upper := (4 * number.significand + 2) * factor
    divisor := Nat.pow 2 (2 - number.exponent).toNat
    closed := number.significand % 2 = 0 }

def digitCount (n : Nat) : Nat :=
  if n < 10 then 1 else digitCount (n / 10) + 1
termination_by n

def leadingPower (dividend divisor : Nat) : Int :=
  if divisor ≤ dividend then (digitCount (dividend / divisor) : Int) - 1
  else
    let places := digitCount (divisor / dividend)
    if divisor ≤ dividend * Nat.pow 10 (places - 1) then 1 - (places : Int) else -(places : Int)

def Interval.contains (range : Interval) (digits : Nat) (power : Int) : Bool :=
  let candidate := digits * Nat.pow 10 power.toNat * range.divisor
  let unit := Nat.pow 10 (-power).toNat
  if range.closed then range.lower * unit ≤ candidate && candidate ≤ range.upper * unit
  else range.lower * unit < candidate && candidate < range.upper * unit

/-- The multiple of ten to the given power that lies in an interval and nearest to its value, a tie
going to the even multiple. Only the two neighbours of the value can be nearest. -/
def Interval.nearest? (range : Interval) (power : Int) : Option Nat :=
  let unit := Nat.pow 10 power.toNat * range.divisor
  let value := range.value * Nat.pow 10 (-power).toNat
  let low := value / unit
  let high := low + 1
  match range.contains low power, range.contains high power with
  | true, true =>
      if 2 * value < (low + high) * unit then some low
      else if (low + high) * unit < 2 * value then some high
      else some (low + low % 2)
  | true, false => some low
  | false, true => some high
  | false, false => none

/-- The nearest decimal with the fewest digits, from a given number of digits on. Seventeen digits
always suffice. -/
def Interval.search (range : Interval) (leading : Int) (digits : Nat) : Nat → Nat × Int
  | 0 => (range.value / range.divisor, 0)
  | attempts + 1 =>
      let power := leading - (digits : Int) + 1
      match range.nearest? power with
      | some multiple => (multiple, power)
      | none => range.search leading (digits + 1) attempts

def dropZeros (digits : Nat) (power : Int) : Nat × Int :=
  if digits ≠ 0 ∧ digits % 10 = 0 then dropZeros (digits / 10) (power + 1) else (digits, power)
termination_by digits

/-- The significant digits of the shortest decimal that rounds to a number, and the power of ten of
the leading digit. -/
def shortest (number : Binary64) : List Char × Int :=
  let range := number.interval
  let found := range.search (leadingPower range.value range.divisor) 1 17
  let short := dropZeros found.1 found.2
  let digits := Nat.toDigits 10 short.1
  (digits, short.2 + digits.length - 1)

end Binary64

end FeatureRules
