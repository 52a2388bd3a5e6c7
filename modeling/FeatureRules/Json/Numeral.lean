import FeatureRules.Binary64.Scaling
import FeatureRules.Json.Basic

/-!
# JSON numerals

The spelling of a number decides its kind: an integer written plainly stays an integer while it fits
64 bits, and every other numeral is a binary number. Its leading digits count as far as they fit
64 bits, and they are scaled by the power of ten that goes with them.
-/

namespace FeatureRules

/-- A numeral as it is read: the leading digits that fit a word of 64 bits, the power of ten that
goes with them, and whether it is written without a fraction and without an exponent. -/
structure Numeral where
  negative : Bool
  digits : Nat
  power : Int
  plain : Bool
deriving DecidableEq, Repr

namespace Numeral

def digitValue (digit : Char) : Nat :=
  digit.toNat - '0'.toNat

def digitsValue (digits : List Char) : Nat :=
  digits.foldl (fun value digit => 10 * value + digitValue digit) 0

/-- The least integer that does not fit a word of 64 bits. -/
def wordLimit : Nat :=
  18446744073709551616

/-- Append digits to an integer until one does not fit a word of 64 bits any more. That digit and all
behind it are left over. -/
def absorb (value : Nat) : List Char → Nat × List Char
  | [] => (value, [])
  | digit :: rest =>
      let longer := 10 * value + digitValue digit
      if longer < wordLimit then absorb longer rest else (value, digit :: rest)

/-- Read a fraction, if there is one. A point needs a digit behind it. -/
def readFraction? : List Char → Option (List Char × List Char)
  | '.' :: rest =>
      let digits := rest.takeWhile Char.isDigit
      if digits.isEmpty then none else some (digits, rest.dropWhile Char.isDigit)
  | rest => some ([], rest)

def readExponentDigits? (negative : Bool) (digits : List Char) : Option Int :=
  if digits.isEmpty || !digits.all Char.isDigit then none
  else
    let value : Int := digitsValue digits
    some (if negative then -value else value)

/-- Read what follows the fraction: nothing, or an exponent up to the end. -/
def readExponent? : List Char → Option (Option Int)
  | [] => some none
  | mark :: rest =>
      if mark = 'e' ∨ mark = 'E' then
        match rest with
        | '-' :: digits => (readExponentDigits? true digits).map some
        | '+' :: digits => (readExponentDigits? false digits).map some
        | digits => (readExponentDigits? false digits).map some
      else none

/-- The numeral with given digits in front of the point and behind it. Digits in front of the point
that do not fit count by their places only, and those behind it not at all. -/
def ofDigits (negative : Bool) (whole fraction : List Char) (exponent : Option Int) : Numeral :=
  let leading := absorb 0 whole
  let all := absorb leading.1 fraction
  { negative := negative
    digits := all.1
    power := exponent.getD 0 + leading.2.length + all.2.length - fraction.length
    plain := fraction.isEmpty && exponent.isNone }

/-- Read a numeral that takes up a whole text. Leading zeros are refused. -/
def read? (text : List Char) : Option Numeral :=
  let negative := text.head? == some '-'
  let unsigned := if negative then text.drop 1 else text
  let whole := unsigned.takeWhile Char.isDigit
  if whole.isEmpty || (whole.head? == some '0' && whole.length != 1) then none
  else do
    let (fraction, rest) ← readFraction? (unsigned.dropWhile Char.isDigit)
    let exponent ← readExponent? rest
    return ofDigits negative whole fraction exponent

/-- The integer of a plain numeral that fits 64 bits, signed or unsigned. A negative zero is no
integer. -/
def integer? (numeral : Numeral) : Option Int :=
  if numeral.plain = false ∨ numeral.power ≠ 0 then none
  else if numeral.negative = false then some numeral.digits
  else if numeral.digits = 0 ∨ 9223372036854775808 < numeral.digits then none
  else some (-(numeral.digits : Int))

def number? (numeral : Numeral) : Option Number :=
  match numeral.integer? with
  | some value => some (.integer value)
  | none =>
      (Binary64.ofScaled? numeral.negative numeral.digits numeral.power).map Number.binary

end Numeral

end FeatureRules
