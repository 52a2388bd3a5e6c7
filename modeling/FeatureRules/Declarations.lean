import FeatureRules.Model
import FeatureRules.Slice

/-!
# Declarations

Features, parameters, rule bodies and groups as they are declared, and the model that they make up.
-/

namespace FeatureRules

/-- What a model is declared by. Rule names may be repeated here. -/
structure Declarations where
  features : List Feature := []
  parameters : List Parameter := []
  rules : List (String × Json) := []
  groups : List Group := []
deriving Repr

/-- What a rule body declares: one rule, or a slice. -/
inductive Body where
  | rule (content : Rule)
  | slice (content : Slice)

namespace Body

def name : Body → String
  | rule content => content.name
  | slice content => content.name

def rule? : Body → Option Rule
  | rule content => some content
  | slice _ => none

def slice? : Body → Option Slice
  | rule _ => none
  | slice content => some content

/-- Read a body: lists are slices. -/
def ofJson (name : String) (body : Json) : Except ModelError Body :=
  match body with
  | .array items => .ok (slice { name, items })
  | other => (Rule.ofJson name other).map rule

end Body

/-- Admit entries one by one. An entry with a fault of its own, or one whose name is taken by then,
ends the matter. -/
def enroll {α : Type} (name : α → String) (taken : List String) :
    List (Except ModelError α) → Except ModelError (List α)
  | [] => .ok []
  | entry :: rest => do
      let value ← entry
      if taken.contains (name value) then .error (.duplicateRule (name value))
      else
        let later ← enroll name (name value :: taken) rest
        return value :: later

def declareFeature (features : List Feature) (feature : Feature) : List Feature :=
  if features.any fun declared => declared.name == feature.name then features
  else features ++ [feature]

namespace Declarations

/-- Rule bodies and group rules, in the order in which they claim their names. -/
def bodies (declarations : Declarations) : List (Except ModelError Body) :=
  (declarations.rules.map fun (name, body) => Body.ofJson name body) ++
    (declarations.groups.flatMap Group.rules).map fun rule => .ok (.rule rule)

/-- The model that declarations make up. Rules of slices come behind all others. -/
def build (declarations : Declarations) : Except ModelError Model := do
  let bodies ← enroll Body.name [] declarations.bodies
  let plain := bodies.filterMap Body.rule?
  let slices := bodies.filterMap Body.slice?
  let sliceRules ← enroll Rule.name (plain.map Rule.name) (slices.flatMap Slice.rules)
  let features := declarations.groups.flatMap Group.features ++ sliceRules.map Rule.feature
  return {
    features := features.foldl declareFeature declarations.features
    parameters := declarations.parameters
    rules := plain ++ sliceRules
    groups := Group.gather declarations.groups
    slices := slices.map Slice.name }

end Declarations

end FeatureRules
