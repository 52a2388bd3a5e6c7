import FeatureRules.Binary64.Shortest
import FeatureRules.Json.Basic

/-!
# JSON text

Numbers, string literals, and the compact and the indented text of JSON values.
-/

namespace FeatureRules

namespace Number

/-- A decimal with its leading digit at the given power, written out with a fraction. -/
def positional (digits : List Char) (leading : Int) : List Char :=
  if 0 ≤ leading then
    let places := leading.toNat + 1
    let whole := digits.take places
    let fraction := digits.drop places
    whole ++ List.replicate (places - whole.length) '0' ++ '.' ::
      (if fraction.isEmpty then ['0'] else fraction)
  else '0' :: '.' :: List.replicate ((-leading).toNat - 1) '0' ++ digits

/-- A decimal with its leading digit at the given power, written with an exponent. The sign of the
exponent is always shown. -/
def scientific (digits : List Char) (leading : Int) : List Char :=
  let mantissa :=
    match digits with
    | first :: second :: rest => first :: '.' :: second :: rest
    | short => short
  let sign := if leading < 0 then '-' else '+'
  mantissa ++ 'e' :: sign :: Nat.toDigits 10 leading.natAbs

/-- The magnitude of a binary number. Leading digits from `10 ^ (-5)` to `10 ^ 15` are written out,
all others take an exponent. -/
def magnitude (value : Binary64) : List Char :=
  if value.significand = 0 then ['0', '.', '0']
  else
    let decimal := value.shortest
    if -5 ≤ decimal.2 ∧ decimal.2 ≤ 15 then positional decimal.1 decimal.2
    else scientific decimal.1 decimal.2

def text : Number → String
  | integer value => toString value
  | binary value =>
      String.ofList (if value.negative then '-' :: magnitude value else magnitude value)

end Number

namespace Json

def hexDigit (n : Nat) : Char :=
  if n < 10 then Char.ofNat ('0'.toNat + n) else Char.ofNat ('a'.toNat + (n - 10))

/-- A character inside a string literal. Quotes, backslashes and control characters below the blank
are escaped, all others stand for themselves. -/
def escape (c : Char) : List Char :=
  if c = '"' then ['\\', '"']
  else if c = '\\' then ['\\', '\\']
  else if c = '\n' then ['\\', 'n']
  else if c = '\r' then ['\\', 'r']
  else if c = '\t' then ['\\', 't']
  else if c.toNat = 8 then ['\\', 'b']
  else if c.toNat = 12 then ['\\', 'f']
  else if c.toNat < 32 then
    ['\\', 'u', '0', '0', hexDigit (c.toNat / 16), hexDigit (c.toNat % 16)]
  else [c]

def quote (content : String) : String :=
  "\"" ++ String.ofList (content.toList.flatMap escape) ++ "\""

def boolText (value : Bool) : String :=
  if value then "true" else "false"

mutual

def compact : Json → String
  | null => "null"
  | bool value => boolText value
  | number value => value.text
  | string value => quote value
  | array items => "[" ++ String.intercalate "," (compactItems items) ++ "]"
  | object fields => "\x7b" ++ String.intercalate "," (compactFields fields) ++ "\x7d"

def compactItems : List Json → List String
  | [] => []
  | item :: rest => item.compact :: compactItems rest

def compactFields : List (String × Json) → List String
  | [] => []
  | (key, value) :: rest => (quote key ++ ":" ++ value.compact) :: compactFields rest

end

/-- The start of a new line at a given depth: two blanks for each level. -/
def newLine (depth : Nat) : String :=
  "\n" ++ String.ofList (List.replicate (2 * depth) ' ')

mutual

def indented (depth : Nat) : Json → String
  | null => "null"
  | bool value => boolText value
  | number value => value.text
  | string value => quote value
  | array [] => "[]"
  | array (item :: rest) =>
      "[" ++ String.intercalate "," (indentedItems (depth + 1) (item :: rest)) ++
        newLine depth ++ "]"
  | object [] => "\x7b\x7d"
  | object (field :: rest) =>
      "\x7b" ++ String.intercalate "," (indentedFields (depth + 1) (field :: rest)) ++
        newLine depth ++ "\x7d"

def indentedItems (depth : Nat) : List Json → List String
  | [] => []
  | item :: rest => (newLine depth ++ item.indented depth) :: indentedItems depth rest

def indentedFields (depth : Nat) : List (String × Json) → List String
  | [] => []
  | (key, value) :: rest =>
      (newLine depth ++ quote key ++ ": " ++ value.indented depth) :: indentedFields depth rest

end

def pretty (value : Json) : String :=
  value.indented 0

/-- The text that stands for a value in rule source: strings as they are, all else as compact
JSON. -/
def sourceText : Json → String
  | string value => value
  | other => other.compact

end Json

end FeatureRules
