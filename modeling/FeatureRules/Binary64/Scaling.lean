import FeatureRules.Binary64

/-!
# Scaling by powers of ten

Products and quotients of binary numbers, and integers scaled by a power of ten. Each step rounds to
the nearest number, so a scaled integer can miss the nearest number to the exact decimal by its last
places.
-/

namespace FeatureRules

namespace Binary64

def fraction (number : Binary64) : Nat × Nat :=
  (number.significand * Nat.pow 2 number.exponent.toNat, Nat.pow 2 (-number.exponent).toNat)

def mul? (first second : Binary64) : Option Binary64 :=
  ofFraction? (first.negative != second.negative) (first.fraction.1 * second.fraction.1)
    (first.fraction.2 * second.fraction.2)

/-- The number nearest to a quotient by a number other than zero. There is none beyond the finite
range. -/
def div? (first second : Binary64) : Option Binary64 :=
  ofFraction? (first.negative != second.negative) (first.fraction.1 * second.fraction.2)
    (first.fraction.2 * second.fraction.1)

def greatestTenPower : Nat :=
  308

def tenPower? (power : Nat) : Option Binary64 :=
  if power ≤ greatestTenPower then ofFraction? false (Nat.pow 10 power) 1 else none

/-- A number times ten to a power, in one step. Zero stays zero under any power. -/
def timesTenPower? (number : Binary64) (power : Nat) : Option Binary64 :=
  if number.significand = 0 then some number
  else do
    let factor ← tenPower? power
    number.mul? factor

/-- A number divided by ten to a power, in one step where that power is finite and else in two. No
number below `10 ^ 20` is left behind two divisions by the greatest power. -/
def overTenPower? (number : Binary64) (power : Nat) : Option Binary64 := do
  let step ← tenPower? (min power greatestTenPower)
  let quotient ← number.div? step
  if power ≤ greatestTenPower then return quotient
  else
    let next ← tenPower? (min (power - greatestTenPower) greatestTenPower)
    quotient.div? next

/-- An integer of at most 64 bits times ten to a power: the integer is rounded first, and then scaled.
There is none beyond the finite range. -/
def ofScaled? (negative : Bool) (digits : Nat) (power : Int) : Option Binary64 := do
  let number ← ofFraction? negative digits 1
  if 0 ≤ power then number.timesTenPower? power.toNat
  else number.overTenPower? (-power).toNat

end Binary64

end FeatureRules
