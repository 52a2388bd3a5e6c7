import FeatureRules.Proofs.Graph.CycleSearch

/-!
# The walk of the search

Peeling leaves exactly the nodes behind that lead to a cycle. Each of them waits for another one, so
the search among them goes from the first node to its first successor, and on to the first successor
of that, until it meets a name for the second time.
-/

namespace FeatureRules

namespace Graph

open Relation

/-! ## Stuck nodes -/

/-- Peeling leaves nodes behind in their order. -/
theorem names_stuck_sublist (start : Nat) (graph : Graph) :
    (names (stuck start graph)).Sublist graph.names := by
  induction start, graph using peel_induction with
  | done start graph none =>
      rw [stuck, peel_of_ready_nil none]
  | round start graph some inductionHypothesis =>
      rw [stuck_of_ready_ne_nil some]
      have kept : (names graph.blocked).Sublist graph.names := by
        rw [names_blocked]
        exact List.filter_sublist.map Node.name
      exact inductionHypothesis.trans kept

/-- A name leads to one that waits for itself in the end. -/
def LeadsToCycle (relation : String → String → Prop) (name : String) : Prop :=
  ∃ member, ReflTransGen relation name member ∧ TransGen relation member member

theorem leadsToCycle_of_mem
    {relation : String → String → Prop} {members : List String}
    (next : ∀ source ∈ members, ∃ target ∈ members, relation source target)
    {name : String} (member : name ∈ members) :
    LeadsToCycle relation name := by
  classical
  -- The members that the name leads to lead on to each other, and a cycle of them is within reach.
  let reached := members.filter fun other => ReflTransGen relation name other
  let Step : String → String → Prop := fun source target =>
    ReflTransGen relation name source ∧ relation source target
  have nonempty : reached ≠ [] :=
    List.ne_nil_of_mem (List.mem_filter.mpr ⟨member, by simpa using ReflTransGen.refl⟩)
  have leadsOn : ∀ source ∈ reached, ∃ target ∈ reached, Step source target := by
    intro source inReached
    obtain ⟨sourceMember, path⟩ := List.mem_filter.mp inReached
    rw [decide_eq_true_eq] at path
    obtain ⟨target, targetMember, edge⟩ := next source sourceMember
    exact ⟨target, List.mem_filter.mpr ⟨targetMember, by simpa using path.tail edge⟩, path, edge⟩
  obtain ⟨repeated, cycle⟩ := cyclic_of_forall_exists nonempty leadsOn
  obtain ⟨_, ⟨path, _⟩, _⟩ := TransGen.head'_iff.mp cycle
  exact ⟨repeated, path, cycle.lift id fun _ _ step => step.2⟩

/-- Peeling is stuck at exactly the names that lead to a cycle. -/
theorem mem_names_stuck_iff
    {start : Nat} {graph : Graph} (distinct : graph.names.Nodup) (closed : graph.Closed)
    {name : String} :
    name ∈ names (stuck start graph) ↔ LeadsToCycle graph.Edge name := by
  constructor
  · exact leadsToCycle_of_mem fun _ => exists_stuck_successor closed
  · rintro ⟨member, path, cycle⟩
    have whole : TransGen graph.Edge name member := cycle.trans_right path
    have inGraph : name ∈ graph.names := by
      obtain ⟨target, edge, _⟩ := TransGen.head'_iff.mp whole
      exact source_mem_names edge
    have known := (leveled_append_stuck_perm start graph).symm.subset inGraph
    refine (List.mem_append.mp known).resolve_left ?_
    intro inLeveled
    obtain ⟨⟨name, level⟩, entry, rfl⟩ := List.mem_map.mp inLeveled
    have ranks : Ranks graph start (peel start graph).1 := ranks_peel distinct
    obtain ⟨lower, lowerEntry, _⟩ := ranks.lower_of_transGen whole entry
    exact ranks.not_transGen_self lowerEntry cycle

/-! ## Walks -/

def walk (next? : String → Option String) (first? : Option String) : Nat → Option String
  | 0 => first?
  | steps + 1 => (walk next? first? steps).bind next?

/-- The part of a walk from a name to its repetition, which is the first repetition of the walk. -/
def FirstLoop (place : Nat → Option String) (segment : List String) : Prop :=
  ∃ first again,
    first < again ∧
      place first = place again ∧
      ((List.range again).map place).Nodup ∧
      segment.map some = ((List.range (again + 1)).map place).drop first

/-- A walk over distinct names that comes back to one of them closes its first loop there. -/
theorem firstLoop_of_trail
    {place : Nat → Option String} {before after : List String} {name : String}
    (distinct : (before ++ name :: after).Nodup)
    (trail : (before ++ name :: after).map some =
      (List.range (before.length + after.length + 1)).map place)
    (back : place (before.length + after.length + 1) = some name) :
    FirstLoop place (name :: after ++ [name]) := by
  have visit : place before.length = some name := by
    have entry := congrArg (fun places => places[before.length]?) trail
    have inRange : before.length < before.length + after.length + 1 := by omega
    simp only [List.map_append, List.getElem?_map, List.getElem?_range inRange] at entry
    simpa using entry.symm
  refine
    ⟨before.length, before.length + after.length + 1, by omega, visit.trans back.symm, ?_, ?_⟩
  · rw [← trail]
    exact distinct.map (Option.some_injective String)
  · have whole :
        (List.range (before.length + after.length + 1 + 1)).map place =
          before.map some ++ (name :: after ++ [name]).map some := by
      rw [List.range_succ, List.map_append, ← trail, List.map_singleton, back]
      simp
    rw [whole, List.drop_left' (List.length_map some)]

/-- A way on from every node of a graph to its first successor. -/
def FirstSuccessors (graph : Graph) (next? : String → Option String) : Prop :=
  ∀ node ∈ graph, next? node.name = node.successors.head?

theorem FirstSuccessors.successor?
    {graph : Graph} {next? : String → Option String} (firstSuccessors : graph.FirstSuccessors next?)
    (distinct : graph.names.Nodup) {name : String} (member : name ∈ graph.names) :
    Search.successor? graph ⟨name, 0⟩ = next? name := by
  obtain ⟨node, inGraph, rfl⟩ := List.mem_map.mp member
  rw [Search.successor?, successors_of_mem distinct inGraph, firstSuccessors node inGraph,
    List.head?_eq_getElem?]

/-- A search whose path is a walk along first successors from the first node on. -/
def Follows (graph : Graph) (next? : String → Option String) (search : Search) : Prop :=
  search.names.reverse.map some =
    (List.range search.path.length).map (walk next? graph.names.head?)

namespace Follows

variable {graph : Graph} {next? : String → Option String} {search later : Search}
  {marks : List (String × Mark)} {frame : Frame} {name : String} {below : List Frame}

theorem walk_top (follows : graph.Follows next? ⟨marks, frame :: below⟩) :
    walk next? graph.names.head? below.length = some frame.name := by
  rw [Follows, Search.names, List.map_cons, List.reverse_cons, List.map_append, List.length_cons,
    List.range_succ, List.map_append] at follows
  have lastEqual := (List.append_inj' follows rfl).2
  simpa using lastEqual.symm

/-- The walk goes on to the successor that the search looks at. -/
theorem walk_next
    (follows : graph.Follows next? ⟨marks, ⟨name, 0⟩ :: below⟩)
    (forward : graph.Forward ⟨marks, ⟨name, 0⟩ :: below⟩) (tangled : graph.Tangled)
    (firstSuccessors : graph.FirstSuccessors next?) :
    walk next? graph.names.head? (below.length + 1) = Search.successor? graph ⟨name, 0⟩ := by
  have member : name ∈ graph.names := forward.mem_names List.mem_cons_self
  rw [walk, follows.walk_top, Option.bind_some,
    firstSuccessors.successor? tangled.distinct member]

/-- What one step keeps: the search of a tangled graph stays on the walk. -/
theorem step
    (follows : graph.Follows next? search) (forward : graph.Forward search)
    (tangled : graph.Tangled) (firstSuccessors : graph.FirstSuccessors next?)
    (taken : search.Next graph later) :
    graph.Follows next? later := by
  obtain ⟨marks, path⟩ := search
  obtain ⟨name, below, rfl⟩ := forward.top
  obtain ⟨next, looked, _, ⟨_, found⟩ | ⟨_, _, stepped⟩⟩ := forward.step_cases tangled
  · rw [Search.Next, found] at taken
    cases taken
  · rw [Search.Next, stepped] at taken
    cases taken
    have walked := follows.walk_next forward tangled firstSuccessors
    rw [looked] at walked
    have longer :
        Search.names ⟨Entries.insert next .onPath marks, ⟨next, 0⟩ :: ⟨name, 1⟩ :: below⟩ =
          next :: Search.names ⟨marks, ⟨name, 0⟩ :: below⟩ := rfl
    rw [Follows, longer, List.reverse_cons, List.map_append, List.length_cons, List.range_succ,
      List.map_append]
    exact congrArg₂ (· ++ ·) follows (congrArg List.singleton walked.symm)

end Follows

theorem follows_of_visits
    {graph : Graph} {next? : String → Option String} {search : Search}
    (tangled : graph.Tangled) (firstSuccessors : graph.FirstSuccessors next?)
    (visited : graph.Visits search) :
    graph.Follows next? search := by
  refine (visits_induction tangled ?_ ?_ visited).2
  · intro first isFirst
    rw [Follows, isFirst]
    rfl
  · intro _ _ forward taken follows
    exact follows.step forward tangled firstSuccessors taken

/-- The search ends where the walk first comes back to a name, and reports the way between. -/
theorem firstLoop_of_loops
    {graph : Graph} {next? : String → Option String} {cycle : List String}
    (tangled : graph.Tangled) (firstSuccessors : graph.FirstSuccessors next?)
    (ends : graph.Loops cycle) :
    FirstLoop (walk next? graph.names.head?) cycle := by
  obtain ⟨⟨marks, path⟩, visited, found⟩ := ends
  have forward := forward_of_visits tangled visited
  have follows := follows_of_visits tangled firstSuccessors visited
  obtain ⟨name, below, next, rfl, looked, _, onPath, rfl⟩ := exists_of_found forward tangled found
  have walked := follows.walk_next forward tangled firstSuccessors
  rw [looked] at walked
  obtain ⟨after, before, split, looped⟩ := Search.loop_eq_of_mem forward.distinct onPath
  have onWalk :
      (Search.names ⟨marks, ⟨name, 0⟩ :: below⟩).reverse =
        before.reverse ++ next :: after.reverse := by
    rw [split]
    simp
  have steps : below.length + 1 = before.reverse.length + after.reverse.length + 1 := by
    have sameLength := congrArg List.length onWalk
    simp only [List.length_reverse, List.length_append, List.length_cons, Search.names,
      List.length_map] at sameLength ⊢
    omega
  have distinct := List.nodup_reverse.mpr forward.distinct
  have trail : _ = _ := follows
  rw [onWalk] at distinct trail
  rw [List.length_cons, steps] at trail
  rw [steps] at walked
  have closes := firstLoop_of_trail distinct trail walked
  rw [looped, List.reverse_append]
  exact closes

end Graph

end FeatureRules
