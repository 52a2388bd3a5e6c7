/-!
# Dependency graphs

Nodes with the nodes that they wait for, in order.
-/

namespace FeatureRules

/-- A name and the names that it waits for, in order and possibly repeated. -/
structure Node where
  name : String
  successors : List String
deriving DecidableEq, Repr

/-- A list of nodes, in the order of their declaration. -/
abbrev Graph := List Node

namespace Graph

def names (graph : Graph) : List String :=
  graph.map Node.name

def successors (graph : Graph) (name : String) : List String :=
  ((graph.find? fun node => node.name == name).map Node.successors).getD []

theorem mem_flatMap_of_mem_successors {graph : Graph} {name successor : String}
    (member : successor ∈ graph.successors name) :
    successor ∈ graph.flatMap Node.successors := by
  rw [successors] at member
  cases found : graph.find? fun node => node.name == name with
  | none => simp [found] at member
  | some node =>
      rw [found, Option.map_some, Option.getD_some] at member
      exact List.mem_flatMap.mpr ⟨node, List.mem_of_find?_eq_some found, member⟩

end Graph

end FeatureRules
