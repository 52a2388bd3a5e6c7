import FeatureRules.Group
import FeatureRules.Parameter
import FeatureRules.Salience

/-!
# Schedules

A schedule holds the lowered rules of a model with their saliences, and all else that the rule engine
has to know before they fire.
-/

namespace FeatureRules

structure ScheduledRule where
  name : String
  type : Option ValueType
  condition : String
  /-- Rules with a higher salience fire first. -/
  salience : Int
  expression : String
  holder : Holder
deriving DecidableEq, Repr

structure DefaultAssignment where
  name : String
  value : String
  holder : Holder
deriving DecidableEq, Repr

/-- Rules, defaults and setup data, each in the order of declaration. -/
structure Schedule where
  rules : List ScheduledRule
  defaults : List DefaultAssignment
  required : List Parameter
  remote : List Parameter
  groups : List Group
  slices : List String
  levels : List (String × Nat)
deriving Repr

namespace ScheduledRule

def getter (rule : ScheduledRule) : Getter :=
  Getter.ofType rule.type

def toJson (rule : ScheduledRule) : Json :=
  .object
    [("name", .string rule.name),
      ("outputType", Json.orNull (rule.type.map ValueType.toJson)),
      ("accessor", rule.getter.toJson),
      ("condition", .string rule.condition),
      ("precedence", Json.ofInt rule.salience),
      ("expression", .string rule.expression),
      ("result", .bool rule.holder.isResult)]

end ScheduledRule

def DefaultAssignment.toJson (assignment : DefaultAssignment) : Json :=
  .object
    [("name", .string assignment.name),
      ("defaultValue", .string assignment.value),
      ("result", .bool assignment.holder.isResult)]

def Group.Member.toJson (member : Group.Member) : Json :=
  .object [("template", .string member.template), ("entries", member.entries)]

namespace Schedule

def rule? (schedule : Schedule) (name : String) : Option ScheduledRule :=
  schedule.rules.find? fun rule => rule.name == name

def level? (schedule : Schedule) (name : String) : Option Nat :=
  schedule.levels.lookup name

/-- Whether the rules can fire without any input of the caller. -/
def setupReady (schedule : Schedule) : Bool :=
  schedule.required.isEmpty

/-- The names of all rules in the order in which they fire. Rules of the same salience fire in the
order of declaration. -/
def firingOrder (schedule : Schedule) : List String :=
  (schedule.rules.mergeSort fun first second => decide (second.salience ≤ first.salience)).map
    ScheduledRule.name

def toJson (schedule : Schedule) : Json :=
  .object
    [("featureRules", .array (schedule.rules.map ScheduledRule.toJson)),
      ("defaultValues", .array (schedule.defaults.map DefaultAssignment.toJson)),
      ("requiredParams", .array (schedule.required.map Parameter.toJson)),
      ("remoteLoaded", .array (schedule.remote.map Parameter.toJson)),
      ("groups", .object (schedule.groups.map fun group =>
        (group.name, .array (group.members.map Group.Member.toJson)))),
      ("slices", .array (schedule.slices.map Json.string)),
      ("setupReady", .bool schedule.setupReady)]

def summary (schedule : Schedule) : String :=
  "CompiledRuleSet(" ++ toString schedule.rules.length ++ " rules, " ++
    toString schedule.defaults.length ++ " defaults, " ++
    toString schedule.groups.length ++ " groups, " ++
    toString schedule.slices.length ++ " slices)"

end Schedule

end FeatureRules
