import FeatureRules.Leveling
import FeatureRules.Lowering
import FeatureRules.Schedule

/-!
# Compilation

From a model to its schedule. Compilation fails when a rule waits for a name that nothing declares,
and when rules wait for each other.
-/

namespace FeatureRules

namespace Model

/-! ## Levels -/

def symbols (model : Model) : Symbols :=
  { knows := model.knows, isRule := model.isRule }

def leveling (model : Model) : Except CompileError Leveling :=
  Leveling.run model.symbols (Leveling.start model.rules)

/-- The level of every rule, which is above those of the rules that it waits for. -/
def levels (model : Model) : Except CompileError (List (String × Nat)) := do
  let last ← model.leveling
  if last.pending.isEmpty then return last.levels
  else .error (.cyclicReference last.cycle)

/-! ## Rules and defaults -/

/-- The type of the value of a rule: its own, or that of its feature. A rule without a feature yields
a truth value. -/
def outputType (model : Model) (rule : Rule) : Option ValueType :=
  match rule.type with
  | some type => some type
  | none =>
      match model.feature? rule.name with
      | some feature => feature.type
      | none => some .boolean

/-- Where the value of a name is written, when its rule asks for a holder. It reaches the result only
if the feature does not keep it in the context. -/
def writeHolder (model : Model) (name : String) (asked : Holder) : Holder :=
  match model.feature? name with
  | some feature => asked.meet feature.holder
  | none => asked

def lowerCondition (model : Model) : Option String → String
  | none => "true"
  | some condition =>
      if condition = "true" then condition else model.lower condition (some .boolean)

def schedule (model : Model) (base : Int) (levels : List (String × Nat)) (rule : Rule) :
    ScheduledRule :=
  { name := rule.name
    type := model.outputType rule
    condition := model.lowerCondition rule.condition
    salience := Salience.get base levels rule.name
    expression := model.lower rule.expressionText (model.outputType rule)
    holder := model.writeHolder rule.name rule.holder }

/-- The type that a default is written in. Truth values are written as strings. -/
def defaultType (feature : Feature) : Json → Option ValueType
  | .bool _ => some .string
  | _ => if feature.type = some .boolean then some .string else feature.type

/-- The default of a feature, unless it has none or an empty one. It goes where the rule of the same
name writes. -/
def defaultAssignment? (model : Model) (feature : Feature) : Option DefaultAssignment :=
  match feature.defaultValue with
  | none => none
  | some value =>
      let text := model.lower value.sourceText (defaultType feature value)
      if text.isEmpty then none
      else
        let asked := ((model.rule? feature.name).map Rule.holder).getD .result
        some { name := feature.name, value := text, holder := model.writeHolder feature.name asked }

def compile (model : Model) (base : Int) : Except CompileError Schedule := do
  let levels ← model.levels
  return {
    rules := model.rules.map (model.schedule base levels)
    defaults := model.features.filterMap model.defaultAssignment?
    required := model.requiredParameters
    remote := model.remoteParameters
    groups := model.groups
    slices := model.slices
    levels := levels }

end Model

end FeatureRules
