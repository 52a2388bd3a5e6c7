import FeatureRules.Json.Text

/-!
# Faults of declarations

What can be wrong with a set of declarations.
-/

namespace FeatureRules

inductive RuleDefect where
  | unknownType (name : String)
  | typeNotText (found : Json)
  | other (reason : String)
deriving Repr

def RuleDefect.message : RuleDefect → String
  | unknownType name => "unknown type '" ++ name ++ "'"
  | typeNotText found => "type must be a string, got " ++ found.compact
  | other reason => reason

inductive ModelError where
  | duplicateRule (name : String)
  | invalidRule (name : String) (defect : RuleDefect)
deriving Repr

def ModelError.message : ModelError → String
  | duplicateRule name => "duplicate rule name '" ++ name ++ "'"
  | invalidRule name defect => "invalid rule '" ++ name ++ "': " ++ defect.message

end FeatureRules
