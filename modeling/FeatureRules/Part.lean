import FeatureRules.Rule

/-!
# Parts of groups and slices

Members of groups and items of slices are numbered, and the whole refers to them by name.
-/

namespace FeatureRules

def partName (whole : String) (index : Nat) : String :=
  whole ++ "_" ++ toString index

def partNames (whole : String) (count : Nat) : List String :=
  (List.range count).map (partName whole)

def joinReferences (separator : String) (names : List String) : String :=
  String.intercalate separator (names.map fun name => "#" ++ name)

end FeatureRules
