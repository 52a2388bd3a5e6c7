import FeatureRules.Json.Numeral

/-!
# JSON lexemes

The split of a JSON text into punctuation, words, numbers and string literals. Text that is no
lexeme ends the list with a mark.
-/

namespace FeatureRules

/-- A lexeme of a JSON text. Numbers beyond the finite range and literals with unpaired surrogate
escapes are lexemes without a value. -/
inductive Lexeme where
  | openArray
  | closeArray
  | openObject
  | closeObject
  | comma
  | colon
  | null
  | bool (value : Bool)
  | number (value : Option Number)
  | string (value : Option String)
  | broken
deriving DecidableEq, Repr

/-! ## String literals -/

/-- What a string literal holds: characters, and code units written as escapes. -/
inductive LiteralUnit where
  | plain (c : Char)
  | escaped (code : Nat)
deriving DecidableEq, Repr

namespace LiteralUnit

def hexValue? (c : Char) : Option Nat :=
  if '0' ≤ c ∧ c ≤ '9' then some (c.toNat - '0'.toNat)
  else if 'a' ≤ c ∧ c ≤ 'f' then some (c.toNat - 'a'.toNat + 10)
  else if 'A' ≤ c ∧ c ≤ 'F' then some (c.toNat - 'A'.toNat + 10)
  else none

def code? (a b c d : Char) : Option Nat := do
  let a ← hexValue? a
  let b ← hexValue? b
  let c ← hexValue? c
  let d ← hexValue? d
  return ((a * 16 + b) * 16 + c) * 16 + d

/-- The character that a backslash and one letter write. -/
def shortEscape? : Char → Option Char
  | '"' => some '"'
  | '\\' => some '\\'
  | '/' => some '/'
  | 'b' => some (Char.ofNat 8)
  | 'f' => some (Char.ofNat 12)
  | 'n' => some '\n'
  | 'r' => some '\r'
  | 't' => some '\t'
  | _ => none

/-- Read a literal behind its opening quote, and what follows its closing one. The units read so far
are given in reverse. Control characters below the blank have to be escaped. -/
def read? (done : List LiteralUnit) : List Char → Option (List LiteralUnit × List Char)
  | [] => none
  | '"' :: rest => some (done.reverse, rest)
  | '\\' :: 'u' :: a :: b :: c :: d :: rest =>
      match code? a b c d with
      | some code => read? (escaped code :: done) rest
      | none => none
  | '\\' :: letter :: rest =>
      match shortEscape? letter with
      | some c => read? (plain c :: done) rest
      | none => none
  | c :: rest => if c.toNat < 32 then none else read? (plain c :: done) rest

theorem length_lt_of_read? {done : List LiteralUnit} {text after : List Char}
    {units : List LiteralUnit} (found : read? done text = some (units, after)) :
    after.length < text.length := by
  revert found
  fun_induction read? done text with
  | case1 => simp
  | case2 =>
      intro found
      simp_all
  | case3 done a b c d rest code _ induction =>
      intro found
      have shorter := induction found
      simp only [List.length_cons]
      omega
  | case4 => simp
  | case5 done letter rest _ c _ induction =>
      intro found
      have shorter := induction found
      simp only [List.length_cons]
      omega
  | case6 => simp
  | case7 => simp
  | case8 done c rest _ _ _ _ induction =>
      intro found
      have shorter := induction found
      simp only [List.length_cons]
      omega

def isHigh (code : Nat) : Bool :=
  0xD800 ≤ code && code ≤ 0xDBFF

def isLow (code : Nat) : Bool :=
  0xDC00 ≤ code && code ≤ 0xDFFF

/-- The characters of a literal, in reverse behind those found so far. Escaped surrogates have to
come in pairs. -/
def characters? (done : List Char) : List LiteralUnit → Option (List Char)
  | [] => some done
  | plain c :: rest => characters? (c :: done) rest
  | escaped high :: escaped low :: rest =>
      if isHigh high && isLow low then
        characters? (Char.ofNat (0x10000 + (high - 0xD800) * 0x400 + (low - 0xDC00)) :: done) rest
      else if isHigh high || isLow high then none
      else characters? (Char.ofNat high :: done) (escaped low :: rest)
  | escaped code :: rest =>
      if isHigh code || isLow code then none else characters? (Char.ofNat code :: done) rest

def text? (units : List LiteralUnit) : Option String :=
  (characters? [] units).map fun reversed => String.ofList reversed.reverse

end LiteralUnit

namespace Lexeme

def isBlank (c : Char) : Bool :=
  c == ' ' || c == '\t' || c == '\n' || c == '\r'

def punctuation? : Char → Option Lexeme
  | '[' => some openArray
  | ']' => some closeArray
  | '\x7b' => some openObject
  | '\x7d' => some closeObject
  | ',' => some comma
  | ':' => some colon
  | _ => none

/-- Characters of numerals. No character that may follow a numeral is among them. -/
def isNumeralChar (c : Char) : Bool :=
  c.isDigit || c == '-' || c == '+' || c == '.' || c == 'e' || c == 'E'

def keyword? (word : List Char) : Option Lexeme :=
  if word = ['n', 'u', 'l', 'l'] then some null
  else if word = ['t', 'r', 'u', 'e'] then some (bool true)
  else if word = ['f', 'a', 'l', 's', 'e'] then some (bool false)
  else none

/-- Split a text into lexemes behind those found so far, which are given in reverse. -/
def scanFrom (done : List Lexeme) (text : List Char) : List Lexeme :=
  match text with
  | [] => done.reverse
  | c :: rest =>
      if isBlank c then scanFrom done rest
      else
        match punctuation? c with
        | some lexeme => scanFrom (lexeme :: done) rest
        | none =>
            if c == '"' then
              match _found : LiteralUnit.read? [] rest with
              | some (units, after) => scanFrom (string (LiteralUnit.text? units) :: done) after
              | none => (broken :: done).reverse
            else if c.isDigit || c == '-' then
              match Numeral.read? (c :: rest.takeWhile isNumeralChar) with
              | some numeral =>
                  scanFrom (number numeral.number? :: done) (rest.dropWhile isNumeralChar)
              | none => (broken :: done).reverse
            else
              match keyword? (c :: rest.takeWhile Char.isAlpha) with
              | some lexeme => scanFrom (lexeme :: done) (rest.dropWhile Char.isAlpha)
              | none => (broken :: done).reverse
termination_by text.length
decreasing_by
  · simp
  · simp
  · have shorter := LiteralUnit.length_lt_of_read? _found
    simp only [List.length_cons]
    omega
  · have shorter := (List.dropWhile_sublist (l := rest) isNumeralChar).length_le
    simp only [List.length_cons]
    omega
  · have shorter := (List.dropWhile_sublist (l := rest) Char.isAlpha).length_le
    simp only [List.length_cons]
    omega

def scan (text : String) : List Lexeme :=
  scanFrom [] text.toList

end Lexeme

end FeatureRules
