/-!
# Value templates

A template is a text with holes in braces, as in `{$state}-{$city}`. It stands for the
concatenation of its literal parts and its holes.
-/

namespace FeatureRules

namespace Template

/-- A brace closes the literal on one side of a hole and joins the hole to it. All other characters
stand for themselves. -/
def openHoles (c : Char) : List Char :=
  if c = '\x7b' then ['"', '+']
  else if c = '\x7d' then ['+', '"']
  else [c]

/-- Whether a character is white space by the Unicode property of that name. -/
def isSpace (c : Char) : Bool :=
  let code := c.toNat
  (0x9 ≤ code && code ≤ 0xd) || code == 0x20 || code == 0x85 || code == 0xa0 || code == 0x1680 ||
    (0x2000 ≤ code && code ≤ 0x200a) || code == 0x2028 || code == 0x2029 || code == 0x202f ||
    code == 0x205f || code == 0x3000

def trim (text : List Char) : List Char :=
  ((text.dropWhile isSpace).reverse.dropWhile isSpace).reverse

/-- Drop an empty literal and the sign that joins it to what follows. -/
def dropEmptyLiteral : List Char → List Char
  | '"' :: '"' :: '+' :: rest => rest
  | text => text

/-- Drop an empty literal at the end, which reads the same backwards. -/
def dropFinalEmptyLiteral (text : List Char) : List Char :=
  (dropEmptyLiteral text.reverse).reverse

/-- The concatenation that a template stands for. Empty literals at its ends are left out. -/
def expression (template : String) : String :=
  let quoted := '"' :: template.toList.flatMap openHoles ++ ['"']
  String.ofList (dropFinalEmptyLiteral (dropEmptyLiteral (trim quoted)))

end Template

end FeatureRules
