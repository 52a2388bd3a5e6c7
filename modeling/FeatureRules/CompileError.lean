import FeatureRules.Reference

/-!
# Failures of compilation

Compilation fails when a rule waits for a name that nothing declares, and when rules wait for each
other.
-/

namespace FeatureRules

/-- Why a model has no schedule, or a reference no reading. -/
inductive CompileError where
  /-- A rule waits for a name that is neither a feature nor a parameter nor a rule. -/
  | unresolvableReference (rule reference : String)
  /-- Rules wait for each other, in the order of the path. -/
  | cyclicReference (path : List String)
  | unknownSigil (character : Char)
  /-- A cast names a type that has no getter. -/
  | noGetter (rule reference type : String)
deriving DecidableEq, Repr

def CompileError.message : CompileError → String
  | unresolvableReference rule reference =>
      "unresolvable reference '" ++ reference ++ "' in rule '" ++ rule ++ "'"
  | cyclicReference path => "cyclic reference detected: " ++ String.intercalate " -> " path
  | unknownSigil character =>
      "unimplemented reference scope '" ++ String.singleton character ++ "'"
  | noGetter rule reference type =>
      "no accessor for type '" ++ type ++ "' in token '" ++ reference ++ "' of rule '" ++ rule ++ "'"

def Sigil.ofChar (character : Char) : Except CompileError Sigil :=
  match ofChar? character with
  | some sigil => .ok sigil
  | none => .error (.unknownSigil character)

end FeatureRules
