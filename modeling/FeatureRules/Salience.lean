import FeatureRules.Entries

/-!
# Saliences

A rule fires before another when its salience is higher. Saliences fall with the level, from the
deepest level up from a base. They are signed words of 64 bits and saturate at their ends.
-/

namespace FeatureRules

namespace Salience

def least : Int :=
  -9223372036854775808

def greatest : Int :=
  9223372036854775807

/-- The base of models that choose none. -/
def standardBase : Int :=
  1000

/-- A sum as a salience. Sums beyond the ends stop there. -/
def saturate (sum : Int) : Int :=
  max least (min greatest sum)

/-- A natural number of 64 bits, read as a signed word. -/
def signed (n : Nat) : Int :=
  Int.bmod n 18446744073709551616

/-- The deepest level, and zero if there is none. -/
def deepest (levels : List (String × Nat)) : Nat :=
  levels.foldl (fun deepest entry => max deepest entry.2) 0

/-- The salience of a level, when the deepest level is known. -/
def score (base : Int) (deepestLevel level : Nat) : Int :=
  saturate (base + signed (deepestLevel - level))

def assign (base : Int) (levels : List (String × Nat)) : List (String × Int) :=
  let deepestLevel := deepest levels
  levels.map fun entry => (entry.1, score base deepestLevel entry.2)

/-- The salience of a name. A name without a level has the base. -/
def get (base : Int) (levels : List (String × Nat)) (name : String) : Int :=
  match levels.lookup name with
  | some level => score base (deepest levels) level
  | none => base

/-- The highest of several saliences, or a substitute if there is none. -/
def highest (substitute : Int) : List Int → Int
  | [] => substitute
  | first :: rest => rest.foldl max first

/-- The highest salience given to a name. -/
def top (base : Int) (levels : List (String × Nat)) : Int :=
  highest base ((assign base levels).map Prod.snd)

end Salience

end FeatureRules
