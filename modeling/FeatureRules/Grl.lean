import FeatureRules.Schedule

/-!
# Rule source

The source text of a schedule: one block to each rule, behind blocks that set up defaults and group
entries.
-/

namespace FeatureRules

namespace Grl

/-- A rule of the rule engine. It retracts itself behind its actions. -/
structure Block where
  name : String
  salience : Int
  condition : String
  actions : List String
deriving DecidableEq, Repr

def actionLine (action : String) : String :=
  "        " ++ action ++ ";\n"

/-- The text of a block, with an empty line behind it. -/
def Block.text (block : Block) : String :=
  "rule " ++ block.name ++ " \"" ++ block.name ++ "\" salience " ++ toString block.salience ++
    " \x7b\n    when\n        " ++ block.condition ++ "\n    then\n" ++
    String.join (block.actions.map actionLine) ++
    actionLine ("Retract(\"" ++ block.name ++ "\")") ++ "\x7d\n\n"

def assignment (holder : Holder) (method key value : String) : String :=
  holder.name ++ "." ++ method ++ "(\"" ++ key ++ "\", " ++ value ++ ")"

def defaultAction (default : DefaultAssignment) : String :=
  assignment default.holder "Put" default.name default.value

def entriesAction (group : String) (index : Nat) (member : Group.Member) : String :=
  assignment .context "Put" (partName group index ++ "_entries")
    ("processor.ToSlice(" ++ Json.quote member.entries.compact ++ ")")

def groupActions (group : Group) : List String :=
  group.members.zipIdx.map fun (member, index) => entriesAction group.name index member

/-- The action that writes the value of a rule. Items are added to a slice one by one. -/
def ruleAction (rule : ScheduledRule) : String :=
  assignment rule.holder (if rule.type = some .slice then "AddItems" else "Put") rule.name
    rule.expression

def ruleBlock (rule : ScheduledRule) : Block :=
  { name := rule.name
    salience := rule.salience
    condition := rule.condition
    actions := [ruleAction rule] }

end Grl

namespace Schedule

/-- The salience of blocks that have to fire before all rules. -/
def setupSalience (schedule : Schedule) : Int :=
  Salience.saturate
    (Salience.highest Salience.standardBase (schedule.rules.map ScheduledRule.salience) + 1)

def setupBlock (schedule : Schedule) (name : String) (actions : List String) : Grl.Block :=
  { name, salience := schedule.setupSalience, condition := "true", actions }

def defaultBlocks (schedule : Schedule) : List Grl.Block :=
  if schedule.defaults.isEmpty then []
  else [schedule.setupBlock "DefaultValues" (schedule.defaults.map Grl.defaultAction)]

def groupBlocks (schedule : Schedule) : List Grl.Block :=
  if schedule.groups.isEmpty then []
  else [schedule.setupBlock "GroupEntries" (schedule.groups.flatMap Grl.groupActions)]

def blocks (schedule : Schedule) : List Grl.Block :=
  schedule.defaultBlocks ++ schedule.groupBlocks ++ schedule.rules.map Grl.ruleBlock

def grl (schedule : Schedule) : String :=
  String.join (schedule.blocks.map Grl.Block.text)

end Schedule

end FeatureRules
