import FeatureRules.Entries
import FeatureRules.Part
import FeatureRules.Template

/-!
# Groups

A group holds when the value of each of its members is among the entries of that member. Its members
and the group itself become rules.
-/

namespace FeatureRules

/-- A member of a group: a template for its value, and the entries that the value is looked for
in. -/
structure Group.Member where
  template : String
  entries : Json
deriving Repr

structure Group where
  name : String
  members : List Group.Member
deriving Repr

namespace Group

def valueRule (group : Group) (index : Nat) (member : Member) : Rule :=
  { name := partName group.name index ++ "_value"
    expression := .string (Template.expression member.template)
    condition := none
    type := some .string
    holder := .context }

/-- The rule that looks for the value of a member among its entries. -/
def checkRule (group : Group) (index : Nat) : Rule :=
  { name := partName group.name index
    expression := .string ("%" ++ partName group.name index)
    condition := none
    type := some .boolean
    holder := .result }

def rule (group : Group) : Rule :=
  { name := group.name
    expression := .string (joinReferences " && " (partNames group.name group.members.length))
    condition := none
    type := some .boolean
    holder := .result }

def checkRules (group : Group) : List Rule :=
  (List.range group.members.length).map group.checkRule

/-- The rules of a group: value and check of each member in order, then the group itself. -/
def rules (group : Group) : List Rule :=
  group.members.zipIdx.flatMap
      (fun (member, index) => [group.valueRule index member, group.checkRule index]) ++
    [group.rule]

/-- Groups under their names. A later group takes the place of an earlier one of the same name. -/
def gather (groups : List Group) : List Group :=
  (Entries.ofList (groups.map fun group => (group.name, group.members))).map
    fun (name, members) => { name, members }

/-- The features of a group: its checks in order, then the group itself. -/
def features (group : Group) : List Feature :=
  group.checkRules.map Rule.feature ++ [group.rule.feature]

end Group

end FeatureRules
