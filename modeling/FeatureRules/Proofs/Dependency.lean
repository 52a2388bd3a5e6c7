import FeatureRules.Model
import FeatureRules.Proofs.Graph.Levels

/-!
# Dependency of rules

The rules of a model wait for the rules that they refer to. Either all references are to declared
names, or there is a first one that is not.
-/

namespace FeatureRules

namespace Model

/-! ## Names and waiting -/

def Declares (model : Model) (name : String) : Prop :=
  (∃ feature ∈ model.features, feature.name = name) ∨
    (∃ parameter ∈ model.parameters, parameter.name = name) ∨
      ∃ rule ∈ model.rules, rule.name = name

def Resolved (model : Model) : Prop :=
  ∀ rule ∈ model.rules, ∀ name ∈ rule.dependencies, model.Declares name

/-- The first rule that refers to a name that nothing declares, and the first such name in the order
of its text. -/
def FirstUnknown (model : Model) (rule reference : String) : Prop :=
  ∃ earlier offender later before after,
    model.rules = earlier ++ offender :: later ∧
      (∀ resolved ∈ earlier, ∀ name ∈ resolved.dependencies, model.Declares name) ∧
      offender.name = rule ∧
      offender.dependencies = before ++ reference :: after ∧
      (∀ name ∈ before, model.Declares name) ∧
      ¬ model.Declares reference

/-- The rule of one name refers to another rule. -/
def Awaits (model : Model) (source target : String) : Prop :=
  ∃ rule ∈ model.rules, rule.name = source ∧
    target ∈ rule.dependencies ∧ target ∈ model.ruleNames

theorem isRule_iff {model : Model} {name : String} :
    model.isRule name = true ↔ name ∈ model.ruleNames := by
  rw [isRule, List.contains_iff_mem]

theorem knows_iff {model : Model} {name : String} :
    model.knows name = true ↔ model.Declares name := by
  simp [knows, feature?, parameter?, isRule_iff, ruleNames, Declares, or_assoc]

/-- The first of some entries with a property, behind others without it. -/
theorem exists_first {α : Type} {property : α → Prop} {entries : List α}
    (present : ∃ entry ∈ entries, property entry) :
    ∃ before entry after, entries = before ++ entry :: after ∧
      (∀ other ∈ before, ¬ property other) ∧ property entry := by
  classical
  have found : (entries.find? fun entry => decide (property entry)).isSome := by
    simpa using present
  obtain ⟨entry, isFound⟩ := Option.isSome_iff_exists.mp found
  obtain ⟨holds, before, after, split, passed⟩ := List.find?_eq_some_iff_append.mp isFound
  exact ⟨before, entry, after, split, by simpa using passed, by simpa using holds⟩

theorem exists_firstUnknown_iff {model : Model} :
    (∃ rule reference, model.FirstUnknown rule reference) ↔ ¬ model.Resolved := by
  constructor
  · rintro ⟨_, reference, earlier, offender, later, before, after, rules, _, _, names, _, unknown⟩
      resolved
    have inModel : offender ∈ model.rules := by simp [rules]
    exact unknown (resolved offender inModel reference (by simp [names]))
  · intro unresolved
    have present : ∃ rule ∈ model.rules, ∃ name ∈ rule.dependencies, ¬ model.Declares name := by
      simpa [Resolved] using unresolved
    obtain ⟨earlier, offender, later, rules, resolved, faulty⟩ := exists_first present
    obtain ⟨before, reference, after, names, known, unknown⟩ := exists_first faulty
    refine
      ⟨offender.name, reference, earlier, offender, later, before, after, rules, ?_, rfl, names,
        ?_, unknown⟩
    · intro rule member name mentioned
      by_contra undeclared
      exact resolved rule member ⟨name, mentioned, undeclared⟩
    · intro name member
      by_contra undeclared
      exact known name member undeclared

/-! ## The graph of a model -/

/-- The rules of a model with the rules that they wait for. -/
def graph (model : Model) : Graph :=
  model.rules.map fun rule =>
    { name := rule.name, successors := rule.dependencies.filter model.isRule }

theorem names_graph (model : Model) : model.graph.names = model.ruleNames := by
  simp [graph, Graph.names, ruleNames, Function.comp_def]

theorem length_graph (model : Model) : model.graph.length = model.rules.length := by
  simp [graph]

theorem edge_graph_iff {model : Model} {source target : String} :
    model.graph.Edge source target ↔ model.Awaits source target := by
  constructor
  · intro edge
    rcases edge with ⟨node, member, named, successor⟩
    obtain ⟨rule, inModel, rfl⟩ := List.mem_map.mp member
    obtain ⟨mentioned, isRule⟩ := List.mem_filter.mp successor
    exact ⟨rule, inModel, named, mentioned, isRule_iff.mp isRule⟩
  · intro waits
    rcases waits with ⟨rule, inModel, named, mentioned, isRule⟩
    exact
      ⟨_, List.mem_map.mpr ⟨rule, inModel, rfl⟩, named,
        List.mem_filter.mpr ⟨mentioned, isRule_iff.mpr isRule⟩⟩

theorem edge_graph (model : Model) : model.graph.Edge = model.Awaits := by
  funext source target
  exact propext edge_graph_iff

theorem closed_graph (model : Model) : model.graph.Closed := by
  intro source target edge
  obtain ⟨_, _, _, _, isRule⟩ := edge_graph_iff.mp edge
  rw [names_graph]
  exact isRule

end Model

end FeatureRules
