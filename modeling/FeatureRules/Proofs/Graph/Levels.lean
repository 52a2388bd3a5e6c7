import FeatureRules.Graph
import Mathlib.Data.Fintype.EquivFin
import Mathlib.Data.List.Chain
import Mathlib.Data.List.Perm.Basic
import Mathlib.Logic.Relation
import Mathlib.Order.Bounds.Basic
import Mathlib.Order.WellFounded

/-!
# Levels of a graph

Peeling takes the nodes that wait for nothing off a graph, round by round. It splits the names into
those that get a level and those that are stuck. The levels are the lengths of the longest chains of
waiting nodes, and nodes are stuck only when some node waits for itself in the end.
-/

namespace FeatureRules

namespace Node

def isReady (node : Node) : Bool :=
  node.successors.isEmpty

def release (names : List String) (node : Node) : Node :=
  { node with successors := node.successors.filter fun name => !names.contains name }

end Node

namespace Graph

open Relation

/-! ## One round of peeling -/

def ready (graph : Graph) : Graph :=
  graph.filter Node.isReady

/-- The nodes that wait for others, when those that are ready are out of the way. -/
def blocked (graph : Graph) : Graph :=
  (graph.filter fun node => !node.isReady).map (Node.release (names graph.ready))

theorem length_blocked_lt {graph : Graph} (progress : ¬graph.ready.isEmpty) :
    graph.blocked.length < graph.length := by
  cases remaining : graph.ready with
  | nil => simp [remaining] at progress
  | cons node rest =>
      have member : node ∈ graph.ready := by simp [remaining]
      obtain ⟨inGraph, free⟩ := List.mem_filter.mp member
      rw [blocked, List.length_map]
      exact List.length_filter_lt_length_iff_exists.mpr ⟨node, inGraph, by simpa using free⟩

/-- Give the nodes that wait for nothing the next level, and go on with the others. The nodes that are
left when none is ready wait for each other. -/
def peel (level : Nat) (graph : Graph) : List (String × Nat) × Graph :=
  if _progress : graph.ready.isEmpty then ([], graph)
  else
    let later := peel (level + 1) graph.blocked
    (graph.ready.map (fun node => (node.name, level)) ++ later.1, later.2)
termination_by graph.length
decreasing_by
  exact length_blocked_lt _progress

/-- A node of the graph waits for a name. -/
def Edge (graph : Graph) (source target : String) : Prop :=
  ∃ node ∈ graph, node.name = source ∧ target ∈ node.successors

theorem source_mem_names {graph : Graph} {source target : String}
    (edge : graph.Edge source target) :
    source ∈ graph.names := by
  obtain ⟨node, member, named, _⟩ := edge
  exact List.mem_map.mpr ⟨node, member, named⟩

theorem mem_ready_iff {graph : Graph} {node : Node} :
    node ∈ graph.ready ↔ node ∈ graph ∧ node.successors = [] := by
  simp [ready, Node.isReady]

theorem mem_blocked_iff {graph : Graph} {node : Node} :
    node ∈ graph.blocked ↔
      ∃ waiting ∈ graph, waiting.successors ≠ [] ∧
        waiting.release (names graph.ready) = node := by
  simp [blocked, Node.isReady, and_assoc]

/-- Peeling takes exactly the edges to ready nodes away. -/
theorem edge_blocked_iff {graph : Graph} {source target : String} :
    graph.blocked.Edge source target ↔
      graph.Edge source target ∧ target ∉ names graph.ready := by
  constructor
  · intro edge
    rcases edge with ⟨node, member, named, successor⟩
    obtain ⟨waiting, inGraph, _, rfl⟩ := mem_blocked_iff.mp member
    obtain ⟨kept, unready⟩ := List.mem_filter.mp successor
    exact ⟨⟨waiting, inGraph, named, kept⟩, by simpa using unready⟩
  · intro kept
    rcases kept with ⟨⟨waiting, inGraph, named, successor⟩, unready⟩
    have waits : waiting.successors ≠ [] := List.ne_nil_of_mem successor
    refine
      ⟨waiting.release (names graph.ready),
        mem_blocked_iff.mpr ⟨waiting, inGraph, waits, rfl⟩, named, ?_⟩
    exact List.mem_filter.mpr ⟨successor, by simpa using unready⟩

theorem names_blocked (graph : Graph) :
    names graph.blocked = names (graph.filter fun node => !node.isReady) := by
  simp [names, blocked, Node.release, Function.comp_def]

/-- Every name is that of a ready node or that of a blocked one. -/
theorem names_ready_append_blocked_perm (graph : Graph) :
    (names graph.ready ++ names graph.blocked).Perm graph.names := by
  rw [names_blocked, names, names, ← List.map_append]
  exact (List.filter_append_perm Node.isReady graph).map Node.name

/-- In a graph with distinct names a ready node has no edges at all. -/
theorem not_edge_of_mem_ready {graph : Graph} (distinct : graph.names.Nodup)
    {source target : String} (free : source ∈ names graph.ready) :
    ¬ graph.Edge source target := by
  intro edge
  rcases edge with ⟨waiting, inGraph, named, successor⟩
  obtain ⟨node, nodeReady, sameName⟩ := List.mem_map.mp free
  obtain ⟨nodeInGraph, noSuccessors⟩ := mem_ready_iff.mp nodeReady
  have same : node = waiting :=
    List.inj_on_of_nodup_map distinct nodeInGraph inGraph (sameName.trans named.symm)
  rw [← same, noSuccessors] at successor
  exact List.not_mem_nil successor

/-- A blocked node waits for something, be it only for ready nodes. -/
theorem exists_edge_of_mem_blocked {graph : Graph} {source : String}
    (waits : source ∈ names graph.blocked) :
    ∃ target, graph.Edge source target := by
  obtain ⟨node, member, named⟩ := List.mem_map.mp waits
  obtain ⟨waiting, inGraph, busy, rfl⟩ := mem_blocked_iff.mp member
  obtain ⟨target, successor⟩ := List.exists_mem_of_ne_nil _ busy
  exact ⟨target, waiting, inGraph, named, successor⟩

theorem nodup_names_blocked {graph : Graph} (distinct : graph.names.Nodup) :
    (names graph.blocked).Nodup := by
  rw [names_blocked]
  exact distinct.sublist (List.filter_sublist.map Node.name)

/-! ## All rounds -/

def leveled (start : Nat) (graph : Graph) : List String :=
  (peel start graph).1.map Prod.fst

def stuck (start : Nat) (graph : Graph) : Graph :=
  (peel start graph).2

theorem peel_of_ready_nil {start : Nat} {graph : Graph} (none : graph.ready = []) :
    peel start graph = ([], graph) := by
  rw [peel]
  simp [none]

theorem peel_of_ready_ne_nil {start : Nat} {graph : Graph} (some : graph.ready ≠ []) :
    peel start graph =
      (graph.ready.map (fun node => (node.name, start)) ++ (peel (start + 1) graph.blocked).1,
        (peel (start + 1) graph.blocked).2) := by
  rw [peel]
  simp [some]

theorem leveled_of_ready_ne_nil {start : Nat} {graph : Graph} (some : graph.ready ≠ []) :
    leveled start graph = names graph.ready ++ leveled (start + 1) graph.blocked := by
  simp [leveled, peel_of_ready_ne_nil some, names, Function.comp_def]

theorem stuck_of_ready_ne_nil {start : Nat} {graph : Graph} (some : graph.ready ≠ []) :
    stuck start graph = stuck (start + 1) graph.blocked := by
  simp [stuck, peel_of_ready_ne_nil some]

/-- Induction along the rounds of peeling. -/
theorem peel_induction {motive : Nat → Graph → Prop}
    (done : ∀ start graph, graph.ready = [] → motive start graph)
    (round : ∀ start graph, graph.ready ≠ [] → motive (start + 1) graph.blocked →
      motive start graph)
    (start : Nat) (graph : Graph) : motive start graph := by
  induction start, graph using peel.induct with
  | case1 start graph none =>
      exact done start graph (List.isEmpty_iff.mp none)
  | case2 start graph some inductionHypothesis =>
      refine round start graph ?_ inductionHypothesis
      intro none
      exact some (List.isEmpty_iff.mpr none)

theorem leveled_append_stuck_perm (start : Nat) (graph : Graph) :
    (leveled start graph ++ names (stuck start graph)).Perm graph.names := by
  induction start, graph using peel_induction with
  | done start graph none =>
      simp [leveled, stuck, peel_of_ready_nil none]
  | round start graph some inductionHypothesis =>
      rw [leveled_of_ready_ne_nil some, stuck_of_ready_ne_nil some, List.append_assoc]
      exact
        (inductionHypothesis.append_left (names graph.ready)).trans
          (names_ready_append_blocked_perm graph)

/-- What is stuck keeps exactly the edges that do not lead to a name with a level. -/
theorem edge_stuck_iff {start : Nat} {graph : Graph} {source target : String} :
    (stuck start graph).Edge source target ↔
      graph.Edge source target ∧ target ∉ leveled start graph := by
  induction start, graph using peel_induction with
  | done start graph none =>
      simp [leveled, stuck, peel_of_ready_nil none]
  | round start graph some inductionHypothesis =>
      rw [stuck_of_ready_ne_nil some, leveled_of_ready_ne_nil some, inductionHypothesis,
        edge_blocked_iff, List.mem_append, not_or, and_assoc]

theorem ready_stuck (start : Nat) (graph : Graph) : (stuck start graph).ready = [] := by
  induction start, graph using peel_induction with
  | done start graph none =>
      simpa [stuck, peel_of_ready_nil none] using none
  | round start graph some inductionHypothesis =>
      rw [stuck_of_ready_ne_nil some]
      exact inductionHypothesis

/-- Each round takes at least one node, so levels stay below the number of nodes. -/
theorem level_bounds_of_mem_peel {start : Nat} {graph : Graph} {entry : String × Nat}
    (member : entry ∈ (peel start graph).1) :
    start ≤ entry.2 ∧ entry.2 < start + graph.length := by
  induction start, graph using peel_induction with
  | done start graph none =>
      simp [peel_of_ready_nil none] at member
  | round start graph some inductionHypothesis =>
      have shorter : graph.blocked.length < graph.length :=
        length_blocked_lt (by simpa using some)
      rw [peel_of_ready_ne_nil some] at member
      rcases List.mem_append.mp member with now | later
      · obtain ⟨node, _, rfl⟩ := List.mem_map.mp now
        exact ⟨Nat.le_refl start, by simp only; omega⟩
      · have bounds := inductionHypothesis later
        omega

/-! ## Levels and chains -/

/-- Levels that fit the waiting of nodes: a node is above all nodes that it waits for, and right
above one of them unless it has the lowest level. -/
structure Ranks (graph : Graph) (start : Nat) (levels : List (String × Nat)) : Prop where
  above : ∀ {source target : String} {level : Nat},
    (source, level) ∈ levels → graph.Edge source target →
      ∃ lower, (target, lower) ∈ levels ∧ lower < level
  tight : ∀ {source : String} {level : Nat}, (source, level) ∈ levels →
    level = start ∨
      ∃ target lower, graph.Edge source target ∧ (target, lower) ∈ levels ∧ level = lower + 1

theorem mem_peel_of_mem_ready {start : Nat} {graph : Graph} {name : String}
    (free : name ∈ names graph.ready) :
    (name, start) ∈ (peel start graph).1 := by
  obtain ⟨node, member, rfl⟩ := List.mem_map.mp free
  rw [peel_of_ready_ne_nil (List.ne_nil_of_mem member)]
  exact List.mem_append_left _ (List.mem_map.mpr ⟨node, member, rfl⟩)

theorem mem_peel_of_mem_later {start : Nat} {graph : Graph} (some : graph.ready ≠ [])
    {entry : String × Nat} (later : entry ∈ (peel (start + 1) graph.blocked).1) :
    entry ∈ (peel start graph).1 := by
  rw [peel_of_ready_ne_nil some]
  exact List.mem_append_right _ later

theorem mem_names_of_mem_peel {start : Nat} {graph : Graph} {entry : String × Nat}
    (member : entry ∈ (peel start graph).1) : entry.1 ∈ graph.names := by
  have inLeveled : entry.1 ∈ leveled start graph := List.mem_map_of_mem member
  exact (leveled_append_stuck_perm start graph).subset (List.mem_append_left _ inLeveled)

private theorem ranks_peel_round {start : Nat} {graph : Graph} (distinct : graph.names.Nodup)
    (some : graph.ready ≠ [])
    (later : Ranks graph.blocked (start + 1) (peel (start + 1) graph.blocked).1) :
    Ranks graph start (peel start graph).1 where
  above := by
    intro source target level member edge
    rw [peel_of_ready_ne_nil some] at member
    rcases List.mem_append.mp member with now | inLater
    · obtain ⟨node, nodeReady, same⟩ := List.mem_map.mp now
      cases same
      exact absurd edge (not_edge_of_mem_ready distinct (List.mem_map_of_mem nodeReady))
    · by_cases free : target ∈ names graph.ready
      · have bounds := level_bounds_of_mem_peel inLater
        exact ⟨start, mem_peel_of_mem_ready free, bounds.1⟩
      · obtain ⟨lower, lowerMember, below⟩ :=
          later.above inLater (edge_blocked_iff.mpr ⟨edge, free⟩)
        exact ⟨lower, mem_peel_of_mem_later some lowerMember, below⟩
  tight := by
    intro source level member
    rw [peel_of_ready_ne_nil some] at member
    rcases List.mem_append.mp member with now | inLater
    · obtain ⟨node, _, same⟩ := List.mem_map.mp now
      cases same
      exact Or.inl rfl
    · right
      rcases later.tight inLater with lowest | ⟨target, lower, edge, lowerMember, next⟩
      · -- A node that is free in the next round waits for nodes of this round only.
        obtain ⟨target, edge⟩ := exists_edge_of_mem_blocked (mem_names_of_mem_peel inLater)
        have free : target ∈ names graph.ready := by
          by_contra unready
          obtain ⟨lower, lowerMember, below⟩ :=
            later.above inLater (edge_blocked_iff.mpr ⟨edge, unready⟩)
          have bounds := level_bounds_of_mem_peel lowerMember
          omega
        exact ⟨target, start, edge, mem_peel_of_mem_ready free, lowest⟩
      · exact
          ⟨target, lower, (edge_blocked_iff.mp edge).1,
            mem_peel_of_mem_later some lowerMember, next⟩

theorem ranks_peel {start : Nat} {graph : Graph} (distinct : graph.names.Nodup) :
    Ranks graph start (peel start graph).1 := by
  induction start, graph using peel_induction with
  | done start graph none =>
      constructor <;> simp [peel_of_ready_nil none]
  | round start graph some inductionHypothesis =>
      exact ranks_peel_round distinct some (inductionHypothesis (nodup_names_blocked distinct))

def chainLengths (relation : String → String → Prop) (source : String) : Set Nat :=
  { length | ∃ rest, List.IsChain relation (source :: rest) ∧ rest.length = length }

namespace Ranks

variable {graph : Graph} {start : Nat} {levels : List (String × Nat)}

theorem of_perm (ranks : Ranks graph start levels) {others : List (String × Nat)}
    (permuted : levels.Perm others) : Ranks graph start others where
  above := by
    simpa only [permuted.mem_iff] using @ranks.above
  tight := by
    simpa only [permuted.mem_iff] using @ranks.tight

theorem length_le_of_isChain (ranks : Ranks graph 0 levels) {source : String} {level : Nat}
    (member : (source, level) ∈ levels) {rest : List String}
    (chain : List.IsChain graph.Edge (source :: rest)) :
    rest.length ≤ level := by
  induction rest generalizing source level with
  | nil =>
      exact Nat.zero_le level
  | cons target rest inductionHypothesis =>
      obtain ⟨edge, restChain⟩ := List.isChain_cons_cons.mp chain
      obtain ⟨lower, lowerMember, below⟩ := ranks.above member edge
      have bound := inductionHypothesis lowerMember restChain
      rw [List.length_cons]
      omega

theorem exists_isChain (ranks : Ranks graph 0 levels) {level : Nat} :
    ∀ {source : String}, (source, level) ∈ levels →
      ∃ rest, List.IsChain graph.Edge (source :: rest) ∧ rest.length = level := by
  induction level with
  | zero =>
      intro source _
      exact ⟨[], List.isChain_singleton source, rfl⟩
  | succ level inductionHypothesis =>
      intro source member
      rcases ranks.tight member with impossible | ⟨target, lower, edge, lowerMember, next⟩
      · omega
      · obtain rfl : level = lower := by omega
        obtain ⟨rest, chain, length⟩ := inductionHypothesis lowerMember
        exact
          ⟨target :: rest, List.isChain_cons_cons.mpr ⟨edge, chain⟩, by
            rw [List.length_cons, length]⟩

/-- A level is the length of the longest chain. -/
theorem isGreatest_chainLengths (ranks : Ranks graph 0 levels) {source : String} {level : Nat}
    (member : (source, level) ∈ levels) :
    IsGreatest (chainLengths graph.Edge source) level := by
  constructor
  · exact ranks.exists_isChain member
  · intro length reached
    rcases reached with ⟨rest, chain, rfl⟩
    exact ranks.length_le_of_isChain member chain

theorem lower_of_transGen (ranks : Ranks graph start levels) {source target : String}
    (path : TransGen graph.Edge source target) {level : Nat}
    (member : (source, level) ∈ levels) :
    ∃ lower, (target, lower) ∈ levels ∧ lower < level := by
  induction path with
  | single edge =>
      exact ranks.above member edge
  | tail _ edge inductionHypothesis =>
      obtain ⟨middle, middleMember, below⟩ := inductionHypothesis
      obtain ⟨lower, lowerMember, further⟩ := ranks.above middleMember edge
      exact ⟨lower, lowerMember, further.trans below⟩

theorem not_transGen_self (ranks : Ranks graph start levels) {level : Nat} :
    ∀ {source : String}, (source, level) ∈ levels → ¬ TransGen graph.Edge source source := by
  induction level using Nat.strong_induction_on with
  | h level inductionHypothesis =>
      intro source member path
      obtain ⟨lower, lowerMember, below⟩ := ranks.lower_of_transGen path member
      exact inductionHypothesis lower below lowerMember path

end Ranks

/-! ## Cycles -/

/-- Every name that some node waits for is the name of a node. -/
def Closed (graph : Graph) : Prop :=
  ∀ {source target : String}, graph.Edge source target → target ∈ graph.names

/-- Some node waits for itself, directly or through others. -/
def Cyclic (relation : String → String → Prop) : Prop :=
  ∃ name, TransGen relation name name

/-- Names that each lead on to one of them cannot be finitely many without a cycle. -/
theorem cyclic_of_forall_exists {relation : String → String → Prop} {members : List String}
    (nonempty : members ≠ [])
    (next : ∀ source ∈ members, ∃ target ∈ members, relation source target) :
    Cyclic relation := by
  by_contra acyclic
  -- Without a cycle reachability is well-founded, and a last name would lead nowhere.
  let Member := { name // name ∈ members }
  let Reaches : Member → Member → Prop := fun target source =>
    TransGen relation source.1 target.1
  have : IsTrans Member Reaches := ⟨fun _ _ _ first second => second.trans first⟩
  have : Std.Irrefl Reaches := ⟨fun name path => acyclic ⟨name.1, path⟩⟩
  have wellFounded : WellFounded Reaches := Finite.wellFounded_of_trans_of_irrefl Reaches
  obtain ⟨first, firstMember⟩ := List.exists_mem_of_ne_nil members nonempty
  obtain ⟨last, _, minimal⟩ := wellFounded.has_min Set.univ ⟨⟨first, firstMember⟩, trivial⟩
  obtain ⟨target, targetMember, related⟩ := next last.1 last.2
  exact minimal ⟨target, targetMember⟩ trivial (TransGen.single related)

/-- A stuck node waits for a stuck node. -/
theorem exists_stuck_successor {start : Nat} {graph : Graph} (closed : graph.Closed)
    {source : String} (member : source ∈ names (stuck start graph)) :
    ∃ target ∈ names (stuck start graph), graph.Edge source target := by
  obtain ⟨node, nodeStuck, named⟩ := List.mem_map.mp member
  have waits : node.successors ≠ [] := by
    intro free
    have nodeReady := mem_ready_iff.mpr ⟨nodeStuck, free⟩
    rw [ready_stuck] at nodeReady
    exact List.not_mem_nil nodeReady
  obtain ⟨target, successor⟩ := List.exists_mem_of_ne_nil _ waits
  have stuckEdge : (stuck start graph).Edge source target := ⟨node, nodeStuck, named, successor⟩
  obtain ⟨edge, unleveled⟩ := edge_stuck_iff.mp stuckEdge
  have known := (leveled_append_stuck_perm start graph).symm.subset (closed edge)
  exact ⟨target, (List.mem_append.mp known).resolve_left unleveled, edge⟩

theorem nodup_leveled (start : Nat) {graph : Graph} (distinct : graph.names.Nodup) :
    (leveled start graph).Nodup :=
  ((leveled_append_stuck_perm start graph).nodup_iff.mpr distinct).of_append_left

theorem leveled_disjoint_stuck (start : Nat) {graph : Graph} (distinct : graph.names.Nodup) :
    List.Disjoint (leveled start graph) (names (stuck start graph)) :=
  List.disjoint_of_nodup_append ((leveled_append_stuck_perm start graph).nodup_iff.mpr distinct)

theorem level_unique {start : Nat} {graph : Graph} (distinct : graph.names.Nodup) {name : String}
    {first second : Nat} (member : (name, first) ∈ (peel start graph).1)
    (otherMember : (name, second) ∈ (peel start graph).1) :
    first = second := by
  have same := List.inj_on_of_nodup_map (nodup_leveled start distinct) member otherMember rfl
  exact (Prod.mk.inj same).2

/-- A node whose successors all have levels gets the next level above the highest of them. -/
theorem mem_peel_of_successors {graph : Graph} (distinct : graph.names.Nodup)
    (closed : graph.Closed) {node : Node} (inGraph : node ∈ graph) {level : Nat}
    (above : ∀ target ∈ node.successors, ∃ lower, (target, lower) ∈ (peel 0 graph).1 ∧ lower < level)
    (tight : level = 0 ∨ ∃ target ∈ node.successors, ∃ lower,
      (target, lower) ∈ (peel 0 graph).1 ∧ level = lower + 1) :
    (node.name, level) ∈ (peel 0 graph).1 := by
  have successor : ∀ target, graph.Edge node.name target → target ∈ node.successors := by
    rintro target ⟨other, otherInGraph, sameName, mentioned⟩
    rwa [List.inj_on_of_nodup_map distinct otherInGraph inGraph sameName] at mentioned
  have unstuck : node.name ∉ names (stuck 0 graph) := by
    intro isStuck
    obtain ⟨target, targetStuck, edge⟩ := exists_stuck_successor closed isStuck
    obtain ⟨lower, member, _⟩ := above target (successor target edge)
    exact leveled_disjoint_stuck 0 distinct (List.mem_map_of_mem member) targetStuck
  have known := (leveled_append_stuck_perm 0 graph).symm.subset (List.mem_map_of_mem inGraph)
  obtain ⟨⟨name, given⟩, member, named⟩ :=
    List.mem_map.mp ((List.mem_append.mp known).resolve_right unstuck)
  obtain rfl : name = node.name := named
  have ranks : Ranks graph 0 (peel 0 graph).1 := ranks_peel distinct
  have upper : given ≤ level := by
    rcases ranks.tight member with lowest | ⟨target, lower, edge, lowerMember, next⟩
    · omega
    · obtain ⟨other, otherMember, below⟩ := above target (successor target edge)
      have same := level_unique distinct lowerMember otherMember
      omega
  have lower : level ≤ given := by
    rcases tight with lowest | ⟨target, mentioned, lower, lowerMember, next⟩
    · omega
    · obtain ⟨other, otherMember, below⟩ :=
        ranks.above member ⟨node, inGraph, rfl, mentioned⟩
      have same := level_unique distinct lowerMember otherMember
      omega
  rwa [Nat.le_antisymm lower upper]

/-- Peeling gets stuck exactly on graphs with a cycle. -/
theorem stuck_eq_nil_iff (start : Nat) {graph : Graph} (distinct : graph.names.Nodup)
    (closed : graph.Closed) :
    stuck start graph = [] ↔ ¬ Cyclic graph.Edge := by
  constructor
  · intro none cyclic
    rcases cyclic with ⟨name, path⟩
    have inGraph : name ∈ graph.names := by
      obtain ⟨target, edge, _⟩ := TransGen.head'_iff.mp path
      exact source_mem_names edge
    have inLeveled := (leveled_append_stuck_perm start graph).symm.subset inGraph
    rw [none, names, List.map_nil, List.append_nil] at inLeveled
    obtain ⟨⟨name, level⟩, member, rfl⟩ := List.mem_map.mp inLeveled
    exact (ranks_peel distinct).not_transGen_self member path
  · intro acyclic
    by_contra left
    have nonempty : names (stuck start graph) ≠ [] := by
      simpa [names] using left
    exact acyclic (cyclic_of_forall_exists nonempty fun _ => exists_stuck_successor closed)

end Graph

end FeatureRules
