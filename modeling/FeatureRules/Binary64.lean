/-!
# Finite binary numbers of double precision

A number is a sign, a significand and a power of two. Fractions are rounded to the nearest such
number in exact integer arithmetic.
-/

namespace FeatureRules

/-- A finite number of double precision, the significand times two to the exponent. The significand
has at most 53 bits, and it has 53 bits unless the exponent is the least one. -/
structure Binary64 where
  negative : Bool
  significand : Nat
  exponent : Int
deriving DecidableEq, Repr

namespace Binary64

def leastExponent : Int :=
  -1074

def greatestExponent : Int :=
  971

def zero (negative : Bool) : Binary64 :=
  ⟨negative, 0, leastExponent⟩

/-- A quotient rounded to the nearest integer. A half goes to the even neighbour. -/
def roundQuotient (dividend divisor : Nat) : Nat :=
  let quotient := dividend / divisor
  let twice := 2 * (dividend % divisor)
  if twice < divisor then quotient
  else if divisor < twice then quotient + 1
  else quotient + quotient % 2

/-- The fraction `dividend / divisor` divided by two to the given power, as a fraction again. -/
def scaleDown (dividend divisor : Nat) (power : Int) : Nat × Nat :=
  (dividend * Nat.pow 2 (-power).toNat, divisor * Nat.pow 2 power.toNat)

/-- The greatest power of two that is at most a positive fraction. -/
def floorLog (dividend divisor : Nat) : Int :=
  let guess := (dividend.log2 : Int) - (divisor.log2 : Int)
  let scaled := scaleDown dividend divisor guess
  if scaled.2 ≤ scaled.1 then guess else guess - 1

/-- The number nearest to a positive fraction, a tie going to the even significand. There is none
beyond the finite range. -/
def ofPositive? (negative : Bool) (dividend divisor : Nat) : Option Binary64 :=
  let exponent := max (floorLog dividend divisor - 52) leastExponent
  let scaled := scaleDown dividend divisor exponent
  let significand := roundQuotient scaled.1 scaled.2
  let rounded : Binary64 :=
    if significand = Nat.pow 2 53 then ⟨negative, Nat.pow 2 52, exponent + 1⟩
    else ⟨negative, significand, exponent⟩
  if rounded.exponent ≤ greatestExponent then some rounded else none

def ofFraction? (negative : Bool) (dividend divisor : Nat) : Option Binary64 :=
  if dividend = 0 then some (zero negative) else ofPositive? negative dividend divisor

end Binary64

end FeatureRules
