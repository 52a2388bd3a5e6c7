import FeatureRules.Group
import FeatureRules.Parameter

/-!
# Models

A model is a set of declarations with groups and slices spelled out: one rule to a name, in order.
-/

namespace FeatureRules

/-- Features, parameters and rules, with the groups and slices that some of the rules come from. -/
structure Model where
  features : List Feature
  parameters : List Parameter
  rules : List Rule
  groups : List Group
  slices : List String
deriving Repr

namespace Model

def feature? (model : Model) (name : String) : Option Feature :=
  model.features.find? fun feature => feature.name == name

def parameter? (model : Model) (name : String) : Option Parameter :=
  model.parameters.find? fun parameter => parameter.name == name

def rule? (model : Model) (name : String) : Option Rule :=
  model.rules.find? fun rule => rule.name == name

def ruleNames (model : Model) : List String :=
  model.rules.map Rule.name

def isRule (model : Model) (name : String) : Bool :=
  model.ruleNames.contains name

def knows (model : Model) (name : String) : Bool :=
  (model.feature? name).isSome || (model.parameter? name).isSome || model.isRule name

def requiredParameters (model : Model) : List Parameter :=
  model.parameters.filter Parameter.required

def remoteParameters (model : Model) : List Parameter :=
  model.parameters.filter fun parameter => parameter.resolver.isSome

end Model

end FeatureRules
