import FeatureRules.Proofs.CyclicReference
import FeatureRules.Proofs.Graph.Walk

/-!
# How a cycle is found

The rules that the passes leave without a level are those that lead to a cycle. A reported path is the
first loop of a walk among them, from the first of them and always on to the first one that a rule
refers to. The search for the path never turns back.
-/

namespace FeatureRules

namespace Model

variable {declarations : Declarations} {model : Model} {base : Int} {path : List String}

/-! ## Walks among rules -/

/-- The first of some rules that the text of a rule refers to. -/
def firstAmong? (model : Model) (names : List String) (name : String) : Option String :=
  (model.rule? name).bind fun rule => rule.dependencies.find? names.contains

/-- The walk from the first of some rules, always on to the first of them that a rule refers to. -/
def walkAmong (model : Model) (names : List String) : Nat → Option String :=
  Graph.walk (model.firstAmong? names) names.head?

variable {last : Leveling}

/-- The rules that are left lead to a cycle, and no others do. -/
theorem mem_names_iff (distinct : model.ruleNames.Nodup) (found : model.leveling = .ok last)
    {name : String} :
    name ∈ last.names ↔ Graph.LeadsToCycle model.Awaits name := by
  obtain ⟨refines, idle⟩ := refines_of_leveling distinct found
  rw [refines.names_eq_stuck distinct idle, ← edge_graph]
  rw [← names_graph] at distinct
  exact Graph.mem_names_stuck_iff distinct model.closed_graph

/-- Each rule that is left waits for those that are left and that its text refers to, in the order of
the text. -/
theorem exists_rule_of_mem_graph
    (distinct : model.ruleNames.Nodup) (found : model.leveling = .ok last) {node : Node}
    (member : node ∈ last.graph) :
    ∃ rule ∈ model.rules, rule.name = node.name ∧
      node.successors = rule.dependencies.filter last.names.contains := by
  obtain ⟨refines, idle⟩ := refines_of_leveling distinct found
  obtain ⟨waiting, inPending, rfl⟩ := List.mem_map.mp member
  obtain ⟨rule, inModel, named, awaits⟩ := refines.awaited_eq distinct idle inPending
  refine ⟨rule, inModel, named, ?_⟩
  simp only [awaits, List.filter_filter, Bool.and_self]

theorem firstSuccessors_graph
    (distinct : model.ruleNames.Nodup) (found : model.leveling = .ok last) :
    last.graph.FirstSuccessors (model.firstAmong? last.names) := by
  intro node member
  obtain ⟨rule, inModel, named, awaits⟩ := exists_rule_of_mem_graph distinct found member
  have ofName : model.rule? node.name = some rule :=
    (find?_name_eq_some_iff distinct).mpr ⟨inModel, named⟩
  rw [firstAmong?, ofName, Option.bind_some, awaits, List.head?_filter]

theorem successors_graph
    (distinct : model.ruleNames.Nodup) (found : model.leveling = .ok last) {rule : Rule}
    (inModel : rule ∈ model.rules) (left : rule.name ∈ last.names) :
    last.graph.successors rule.name = rule.dependencies.filter last.names.contains := by
  obtain ⟨refines, idle⟩ := refines_of_leveling distinct found
  rw [← Leveling.names_graph] at left
  obtain ⟨node, member, sameName⟩ := List.mem_map.mp left
  obtain ⟨other, otherInModel, named, awaits⟩ := exists_rule_of_mem_graph distinct found member
  have same : other = rule :=
    List.inj_on_of_nodup_map distinct otherInModel inModel (named.trans sameName)
  rw [← sameName, Graph.successors_of_mem (refines.tangled_graph distinct idle).distinct member,
    awaits, same]

/-! ## The reported path -/

/-- When a cycle is reported, exactly the rules that lead to a cycle are left, in the order of the
rules, each with the references to rules that are left, in the order of its text. The path is what the
search finds among them, and it is the first loop of the walk from the first of them along first
references. In every state of the search the path to the current rule is the walk so far, and the
current rule has a successor to look at, which was not left before: no rule is ever left. -/
theorem cyclicReference_firstLoop
    (built : declarations.build = .ok model)
    (failed : model.compile base = .error (.cyclicReference path)) :
    ∃ last, model.leveling = .ok last ∧
      last.names.Sublist model.ruleNames ∧
      (∀ name, name ∈ last.names ↔ Graph.LeadsToCycle model.Awaits name) ∧
      (∀ rule ∈ model.rules, rule.name ∈ last.names →
        last.graph.successors rule.name = rule.dependencies.filter last.names.contains) ∧
      last.graph.cycle? = some path ∧
      Graph.FirstLoop (model.walkAmong last.names) path ∧
      ∀ search, last.graph.Visits search →
        search.names.reverse.map some =
            (List.range search.path.length).map (model.walkAmong last.names) ∧
          ∃ frame below name, search.path = frame :: below ∧
            Search.successor? last.graph frame = some name ∧
            search.marks.lookup name ≠ some .left := by
  have distinct := nodup_ruleNames_of_build built
  obtain ⟨last, found, ends, searched⟩ := loops_of_cyclicReference built failed
  obtain ⟨refines, idle⟩ := refines_of_leveling distinct found
  have tangled := refines.tangled_graph distinct idle
  have firstSuccessors := firstSuccessors_graph distinct found
  have walked := Graph.firstLoop_of_loops tangled firstSuccessors ends
  rw [Leveling.names_graph] at walked
  refine
    ⟨last, found, refines.names_sublist, fun _ => mem_names_iff distinct found,
      fun _ => successors_graph distinct found, searched, walked, ?_⟩
  intro search visited
  have forward := Graph.forward_of_visits tangled visited
  have follows := Graph.follows_of_visits tangled firstSuccessors visited
  rw [Graph.Follows, Leveling.names_graph] at follows
  refine ⟨follows, ?_⟩
  obtain ⟨marks, frames⟩ := search
  obtain ⟨current, below, rfl⟩ := forward.top
  obtain ⟨next, looked, _, _⟩ := forward.exists_successor tangled
  exact ⟨_, below, next, rfl, looked, forward.unleft next⟩

/-- A way into three rules with several cycles, one of them a rule that refers to itself. -/
def crossroads : Declarations :=
  { rules :=
      [("base", .string "1"), ("entry", .string "#base * #start"),
        ("start", .string "#base + #right + #left"), ("left", .string "#start"),
        ("right", .string "#left + #right")] }

/-- The loop of the walk is reported although there are shorter ones. -/
theorem cyclicReference_firstLoop_crossroads :
    ∃ model, crossroads.build = .ok model ∧
      model.compile 1000 = .error (.cyclicReference ["start", "right", "left", "start"]) ∧
      Graph.FirstLoop (model.walkAmong ["entry", "start", "left", "right"])
        ["start", "right", "left", "start"] ∧
      Graph.LeadsToCycle model.Awaits "entry" ∧
      ¬ Graph.LeadsToCycle model.Awaits "base" := by
  let model : Model :=
    { features := []
      parameters := []
      rules :=
        [Rule.plain "base" (.string "1"), Rule.plain "entry" (.string "#base * #start"),
          Rule.plain "start" (.string "#base + #right + #left"),
          Rule.plain "left" (.string "#start"), Rule.plain "right" (.string "#left + #right")]
      groups := []
      slices := [] }
  have built : crossroads.build = .ok model := rfl
  have unlevelled :
      model.levels = .error (.cyclicReference ["start", "right", "left", "start"]) := by
    decide +kernel
  have failed := compile_of_levels_error 1000 unlevelled
  obtain ⟨last, found, _, leads, _, _, firstLoop, _⟩ := cyclicReference_firstLoop built failed
  have left : model.leveling.toOption.map Leveling.names =
      some ["entry", "start", "left", "right"] := by
    decide +kernel
  rw [found] at left
  have names : last.names = ["entry", "start", "left", "right"] := Option.some.inj left
  rw [names] at firstLoop leads
  refine ⟨model, built, failed, firstLoop, (leads "entry").mp ?_, mt (leads "base").mpr ?_⟩
  · decide
  · decide

end Model

end FeatureRules
