import FeatureRules.Part

/-!
# Slices

A rule whose body is a list becomes one rule for each item and a rule that collects them.
-/

namespace FeatureRules

/-- A rule whose body is a list: one rule for each item, kept in the context, and one that collects
them. -/
structure Slice where
  name : String
  items : List Json
deriving Repr

namespace Slice

def itemRule (slice : Slice) (index : Nat) (item : Json) : Except ModelError Rule :=
  (Rule.ofJson (partName slice.name index) item).map Rule.inContext

def rule (slice : Slice) : Rule :=
  { name := slice.name
    expression := .string (joinReferences ", " (partNames slice.name slice.items.length))
    condition := none
    type := some .slice
    holder := .result }

/-- The rules of a slice: its items in order, then the slice itself. -/
def rules (slice : Slice) : List (Except ModelError Rule) :=
  slice.items.zipIdx.map (fun (item, index) => slice.itemRule index item) ++ [.ok slice.rule]

end Slice

end FeatureRules
