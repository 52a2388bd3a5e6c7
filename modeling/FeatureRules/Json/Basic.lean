import FeatureRules.Binary64

/-!
# JSON values

JSON values with fields in the order in which they were written.
-/

namespace FeatureRules

/-- A JSON number: an integer of at most 64 bits, signed or unsigned, or a binary number. -/
inductive Number where
  | integer (value : Int)
  | binary (value : Binary64)
deriving DecidableEq, Repr

/-- A JSON value. Fields keep their order, and a list of fields may name a key more than once. -/
inductive Json where
  | null
  | bool (value : Bool)
  | number (value : Number)
  | string (value : String)
  | array (items : List Json)
  | object (fields : List (String × Json))
deriving Repr, Inhabited

namespace Json

def ofInt (value : Int) : Json :=
  number (.integer value)

def orNull : Option Json → Json
  | none => null
  | some value => value

end Json

end FeatureRules
