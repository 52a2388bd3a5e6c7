import FeatureRules.Graph.Cycle
import FeatureRules.Proofs.Entries
import FeatureRules.Proofs.Graph.Levels

/-!
# The search for a cycle

In a graph in which every node waits for a node of the graph, the depth-first search never turns
back: each successor that it looks at is either unvisited or on the path to the current node. The
search ends with a simple cycle at the first successor of the second kind.
-/

namespace FeatureRules

open Relation

/-! ## Loops -/

namespace Graph

/-- A closed walk along a relation that passes every name once before it comes back to the first. -/
structure SimpleCycle (relation : String → String → Prop) (cycle : List String) : Prop where
  two_le_length : 2 ≤ cycle.length
  head_eq_getLast : cycle.head? = cycle.getLast?
  nodup_dropLast : cycle.dropLast.Nodup
  isChain : cycle.IsChain relation

end Graph

namespace Search

/-- The loop at a name on the path is the part of the path behind it, with the name at both ends. -/
theorem loop_eq_of_mem
    {search : Search} {name : String}
    (distinct : search.names.Nodup) (onPath : name ∈ search.names) :
    ∃ later earlier,
      search.names = later ++ name :: earlier ∧
        search.loop name = (later ++ [name]).reverse ++ [name] := by
  obtain ⟨later, earlier, split, _⟩ := List.eq_append_cons_of_mem onPath
  have trail : search.names.reverse = earlier.reverse ++ name :: later.reverse := by
    simp [split]
  have passed : name ∉ earlier.reverse := by
    rw [split] at distinct
    have behind := (List.nodup_append'.mp distinct).2.1
    simpa using (List.nodup_cons.mp behind).1
  have place : search.names.reverse.idxOf? name = some earlier.reverse.length := by
    rw [trail, List.idxOf?, List.findIdx?_append]
    have none : earlier.reverse.findIdx? (· == name) = none := by
      rw [List.findIdx?_eq_none_iff]
      intro other member
      exact beq_eq_false_iff_ne.mpr fun same => passed (same ▸ member)
    simp [none, List.findIdx?_cons]
  refine ⟨later, earlier, split, ?_⟩
  simp only [loop, place, Option.getD_some]
  rw [trail, List.drop_left]
  simp

/-- A path without repetitions whose end leads back to it closes a simple cycle. -/
theorem simpleCycle_loop
    {relation : String → String → Prop} {search : Search} {name : String}
    (distinct : search.names.Nodup)
    (chain : search.names.IsChain fun later earlier => relation earlier later)
    (back : ∀ last ∈ search.names.head?, relation last name)
    (onPath : name ∈ search.names) :
    Graph.SimpleCycle relation (search.loop name) := by
  obtain ⟨later, earlier, split, looped⟩ := loop_eq_of_mem distinct onPath
  have segment : search.names = (later ++ [name]) ++ earlier := by
    rw [split, List.append_assoc, List.singleton_append]
  have sameHead : (later ++ [name]).head? = search.names.head? := by
    rw [split]
    cases later <;> rfl
  rw [looped]
  constructor
  · simp
  · rw [List.getLast?_concat]
    simp
  · rw [List.dropLast_concat, List.nodup_reverse]
    rw [segment] at distinct
    exact (List.nodup_append'.mp distinct).1
  · rw [List.isChain_append, List.isChain_reverse]
    refine ⟨?_, List.isChain_singleton name, ?_⟩
    · rw [segment] at chain
      exact chain.left_of_append
    · intro last isLast target isTarget
      rw [List.getLast?_reverse, sameHead] at isLast
      cases isTarget
      exact back last isLast

theorem mem_names_of_mem_loop
    {search : Search} {name other : String}
    (distinct : search.names.Nodup) (onPath : name ∈ search.names)
    (member : other ∈ search.loop name) :
    other ∈ search.names := by
  obtain ⟨later, earlier, split, looped⟩ := loop_eq_of_mem distinct onPath
  rw [looped] at member
  rw [split]
  simp only [List.mem_append, List.mem_reverse, List.mem_cons] at member ⊢
  tauto

end Search

/-! ## States of the search -/

def Search.Next (graph : Graph) (search later : Search) : Prop :=
  search.step graph = .next later

namespace Graph

/-- The search from some names in turn comes to a state: on its way from the first of them, or after
that one was passed over or searched from in vain. -/
inductive VisitsFrom (graph : Graph) : List (String × Mark) → List String → Search → Prop
  | here {marks : List (String × Mark)} {name : String} {rest : List String} {search : Search} :
      marks.lookup name = some .unvisited →
      ReflTransGen (Search.Next graph) (Search.start marks name) search →
      VisitsFrom graph marks (name :: rest) search
  | passed {marks : List (String × Mark)} {name : String} {rest : List String}
      {search : Search} :
      marks.lookup name ≠ some .unvisited → VisitsFrom graph marks rest search →
      VisitsFrom graph marks (name :: rest) search
  | exhausted {marks later : List (String × Mark)} {name : String} {rest : List String}
      {search : Search} :
      marks.lookup name = some .unvisited →
      (Search.start marks name).run graph = (none, later) →
      VisitsFrom graph later rest search →
      VisitsFrom graph marks (name :: rest) search

/-- The search of a graph comes to a state. -/
def Visits (graph : Graph) (search : Search) : Prop :=
  graph.VisitsFrom graph.unvisited graph.names search

def Loops (graph : Graph) (cycle : List String) : Prop :=
  ∃ search, graph.Visits search ∧ search.step graph = .found cycle

/-! ## Graphs without a way out -/

/-- Every node waits for something, and only for nodes of the graph. -/
structure Tangled (graph : Graph) : Prop where
  distinct : graph.names.Nodup
  closed : graph.Closed
  waiting : ∀ node ∈ graph, node.successors ≠ []

theorem successors_of_mem
    {graph : Graph} (distinct : graph.names.Nodup) {node : Node} (member : node ∈ graph) :
    graph.successors node.name = node.successors := by
  rw [successors, (find?_name_eq_some_iff distinct).mpr ⟨member, rfl⟩]
  rfl

theorem mem_names_of_successor?
    {graph : Graph} (closed : graph.Closed) {frame : Frame} {name : String}
    (looked : Search.successor? graph frame = some name) :
    name ∈ graph.names := by
  have successor := mem_flatMap_of_mem_successors (List.mem_of_getElem? looked)
  obtain ⟨node, inGraph, mentioned⟩ := List.mem_flatMap.mp successor
  exact closed ⟨node, inGraph, rfl, mentioned⟩

theorem lookup_unvisited (graph : Graph) (name : String) :
    graph.unvisited.lookup name = if name ∈ graph.names then some .unvisited else none := by
  rw [unvisited]
  induction graph.names with
  | nil => rfl
  | cons first rest inductionHypothesis =>
      rw [List.map_cons, List.lookup_cons]
      by_cases same : name = first
      · simp [same]
      · rw [beq_eq_false_iff_ne.mpr same, inductionHypothesis]
        simp [same]

/-- A search that has only gone forward. Its path follows the edges of the graph to a node none of
whose successors has been looked at, and the marks say which names are on the path and which are
unvisited nodes. -/
structure Forward (graph : Graph) (search : Search) : Prop where
  distinct : search.names.Nodup
  chain : search.names.IsChain fun later earlier => graph.Edge earlier later
  top : ∃ name below, search.path = ⟨name, 0⟩ :: below
  marked : ∀ name, search.marks.lookup name ≠ none ↔ name ∈ graph.names
  onPath : ∀ name, search.marks.lookup name = some .onPath ↔ name ∈ search.names
  unleft : ∀ name, search.marks.lookup name ≠ some .left

theorem forward_start
    {graph : Graph} {first : String} (member : first ∈ graph.names) :
    graph.Forward (Search.start graph.unvisited first) where
  distinct := List.nodup_singleton first
  chain := List.isChain_singleton first
  top := ⟨first, [], rfl⟩
  marked := by
    intro name
    rw [Search.start, Entries.lookup_insert, lookup_unvisited]
    by_cases same : name = first
    · simp [same, member]
    · simp [same]
  onPath := by
    intro name
    rw [Search.start, Entries.lookup_insert, lookup_unvisited]
    by_cases same : name = first
    · simp [same, Search.names]
    · by_cases known : name ∈ graph.names <;> simp [same, known, Search.names]
  unleft := by
    intro name
    rw [Search.start, Entries.lookup_insert, lookup_unvisited]
    by_cases same : name = first
    · simp [same]
    · by_cases known : name ∈ graph.names <;> simp [same, known]

namespace Forward

variable {graph : Graph} {search later : Search} {marks : List (String × Mark)}
  {name next : String} {below : List Frame}

theorem mem_names (forward : graph.Forward search) (onPath : name ∈ search.names) :
    name ∈ graph.names := by
  rw [← forward.marked, (forward.onPath name).mpr onPath]
  simp

/-- The current node has a successor, which is a node of the graph. -/
theorem exists_successor
    (forward : graph.Forward ⟨marks, ⟨name, 0⟩ :: below⟩) (tangled : graph.Tangled) :
    ∃ next, Search.successor? graph ⟨name, 0⟩ = some next ∧ graph.Edge name next ∧
      next ∈ graph.names := by
  obtain ⟨node, inGraph, rfl⟩ :=
    List.mem_map.mp (forward.mem_names (List.mem_cons_self : name ∈ name :: _))
  obtain ⟨next, rest, split⟩ := List.exists_cons_of_ne_nil (tangled.waiting node inGraph)
  have edge : graph.Edge node.name next := ⟨node, inGraph, rfl, by simp [split]⟩
  refine ⟨next, ?_, edge, tangled.closed edge⟩
  rw [Search.successor?, successors_of_mem tangled.distinct inGraph, split]
  rfl

/-- What a step can do: close a loop, or go on to an unvisited node. -/
theorem step_cases
    (forward : graph.Forward ⟨marks, ⟨name, 0⟩ :: below⟩) (tangled : graph.Tangled) :
    ∃ next, Search.successor? graph ⟨name, 0⟩ = some next ∧ graph.Edge name next ∧
      (next ∈ Search.names ⟨marks, ⟨name, 0⟩ :: below⟩ ∧
          Search.step graph ⟨marks, ⟨name, 0⟩ :: below⟩ =
            .found (Search.loop ⟨marks, ⟨name, 0⟩ :: below⟩ next) ∨
        next ∈ graph.names ∧ next ∉ Search.names ⟨marks, ⟨name, 0⟩ :: below⟩ ∧
          Search.step graph ⟨marks, ⟨name, 0⟩ :: below⟩ =
            .next ⟨Entries.insert next .onPath marks, ⟨next, 0⟩ :: ⟨name, 1⟩ :: below⟩) := by
  obtain ⟨next, looked, edge, inGraph⟩ := forward.exists_successor tangled
  refine ⟨next, looked, edge, ?_⟩
  by_cases onPath : next ∈ Search.names ⟨marks, ⟨name, 0⟩ :: below⟩
  · have marked := (forward.onPath next).mpr onPath
    exact Or.inl ⟨onPath, Search.step_of_onPath looked marked⟩
  · have offPath : marks.lookup next ≠ some .onPath := mt (forward.onPath next).mp onPath
    have unmarked : Search.isOpen marks next = true := by
      rw [← Bool.not_eq_false, Search.isOpen_eq_false_iff, not_or]
      exact ⟨offPath, forward.unleft next⟩
    exact Or.inr ⟨inGraph, onPath, Search.step_of_isOpen looked unmarked⟩

theorem descend
    (forward : graph.Forward ⟨marks, ⟨name, 0⟩ :: below⟩) (edge : graph.Edge name next)
    (inGraph : next ∈ graph.names)
    (offPath : next ∉ Search.names ⟨marks, ⟨name, 0⟩ :: below⟩) :
    graph.Forward ⟨Entries.insert next .onPath marks, ⟨next, 0⟩ :: ⟨name, 1⟩ :: below⟩ where
  distinct := List.nodup_cons.mpr ⟨offPath, forward.distinct⟩
  chain := List.isChain_cons_cons.mpr ⟨edge, forward.chain⟩
  top := ⟨next, _, rfl⟩
  marked := by
    intro other
    rw [Entries.lookup_insert]
    by_cases same : other = next
    · simp [same, inGraph]
    · rw [if_neg same]
      exact forward.marked other
  onPath := by
    intro other
    have before := forward.onPath other
    rw [Entries.lookup_insert]
    by_cases same : other = next
    · simp [same, Search.names]
    · rw [if_neg same, before]
      simp [same, Search.names]
  unleft := by
    intro other
    rw [Entries.lookup_insert]
    by_cases same : other = next
    · simp [same]
    · rw [if_neg same]
      exact forward.unleft other

/-- What one step keeps: a tangled graph gives the search no reason to turn back. -/
theorem step
    (forward : graph.Forward search) (tangled : graph.Tangled)
    (taken : search.Next graph later) :
    graph.Forward later := by
  obtain ⟨marks, path⟩ := search
  obtain ⟨name, below, rfl⟩ := forward.top
  obtain ⟨next, _, edge, ⟨_, found⟩ | ⟨inGraph, offPath, stepped⟩⟩ := forward.step_cases tangled
  · rw [Search.Next, found] at taken
    cases taken
  · rw [Search.Next, stepped] at taken
    cases taken
    exact forward.descend edge inGraph offPath

/-- A search of a tangled graph ends with a cycle. -/
theorem exists_found
    (forward : graph.Forward search) (tangled : graph.Tangled) :
    ∃ last cycle, ReflTransGen (Search.Next graph) search last ∧
      last.step graph = .found cycle ∧ (search.run graph).1 = some cycle := by
  fun_induction Search.run graph search with
  | case1 search cycle found =>
      exact ⟨search, cycle, .refl, found, rfl⟩
  | case2 search exhausted =>
      obtain ⟨marks, path⟩ := search
      obtain ⟨name, below, rfl⟩ := forward.top
      obtain ⟨_, _, _, ⟨_, found⟩ | ⟨_, _, stepped⟩⟩ := forward.step_cases tangled
      · rw [found] at exhausted
        cases exhausted
      · rw [stepped] at exhausted
        cases exhausted
  | case3 search later taken inductionHypothesis =>
      obtain ⟨last, cycle, path, found, reported⟩ :=
        inductionHypothesis (forward.step tangled taken)
      exact ⟨last, cycle, path.head taken, found, reported⟩

end Forward

/-- A tangled graph is searched from its first node only. -/
theorem exists_path_of_visits
    {graph : Graph} {search : Search} (tangled : graph.Tangled)
    (visited : graph.Visits search) :
    ∃ first, graph.names.head? = some first ∧
      ReflTransGen (Search.Next graph) (Search.start graph.unvisited first) search := by
  rw [Visits] at visited
  cases ofNames : graph.names with
  | nil =>
      rw [ofNames] at visited
      cases visited
  | cons first rest =>
      have member : first ∈ graph.names := by simp [ofNames]
      rw [ofNames] at visited
      cases visited with
      | here _ path => exact ⟨first, rfl, path⟩
      | passed stale _ =>
          rw [lookup_unvisited, if_pos member] at stale
          exact absurd rfl stale
      | exhausted _ ran _ =>
          obtain ⟨_, _, _, _, reported⟩ := (forward_start member).exists_found tangled
          rw [ran] at reported
          cases reported

/-- Induction along the states of a search, which has only gone forward. -/
theorem visits_induction
    {graph : Graph} (tangled : graph.Tangled) {motive : Search → Prop}
    (start : ∀ first, graph.names.head? = some first →
      motive (Search.start graph.unvisited first))
    (step : ∀ search later, graph.Forward search → search.Next graph later →
      motive search → motive later)
    {search : Search} (visited : graph.Visits search) :
    graph.Forward search ∧ motive search := by
  obtain ⟨first, isFirst, path⟩ := exists_path_of_visits tangled visited
  clear visited
  induction path with
  | refl => exact ⟨forward_start (List.mem_of_head? isFirst), start first isFirst⟩
  | tail before taken inductionHypothesis =>
      obtain ⟨forward, holds⟩ := inductionHypothesis
      exact ⟨forward.step tangled taken, step _ _ forward taken holds⟩

theorem forward_of_visits
    {graph : Graph} {search : Search} (tangled : graph.Tangled)
    (visited : graph.Visits search) :
    graph.Forward search :=
  (visits_induction tangled (motive := fun _ => True) (fun _ _ => trivial)
    (fun _ _ _ _ _ => trivial) visited).1

/-! ## The end of the search -/

/-- A search of a tangled graph cannot run out of nodes, so it ends with a cycle. -/
theorem exists_loops
    {graph : Graph} (tangled : graph.Tangled) (nonempty : graph ≠ []) :
    ∃ cycle, graph.Loops cycle ∧ graph.cycle? = some cycle := by
  obtain ⟨node, others, rfl⟩ := List.exists_cons_of_ne_nil nonempty
  have ofNames : names (node :: others) = node.name :: names others := rfl
  have member : node.name ∈ names (node :: others) := List.mem_cons_self
  have fresh : (unvisited (node :: others)).lookup node.name = some .unvisited := by
    rw [lookup_unvisited, if_pos member]
  obtain ⟨last, cycle, path, found, reported⟩ := (forward_start member).exists_found tangled
  refine ⟨cycle, ⟨last, ?_, found⟩, ?_⟩
  · rw [Visits, ofNames]
    exact .here fresh path
  · rw [cycle?, ofNames, cycleFrom?, if_pos fresh]
    split
    · next other _ ran =>
        rw [ran] at reported
        exact reported
    · next ran =>
        rw [ran] at reported
        cases reported

/-- A search ends at a successor that is on the path, and reports the loop there. -/
theorem exists_of_found
    {graph : Graph} {search : Search} {cycle : List String}
    (forward : graph.Forward search) (tangled : graph.Tangled)
    (found : search.step graph = .found cycle) :
    ∃ name below next, search.path = ⟨name, 0⟩ :: below ∧
      Search.successor? graph ⟨name, 0⟩ = some next ∧ graph.Edge name next ∧
      next ∈ search.names ∧ cycle = search.loop next := by
  obtain ⟨marks, path⟩ := search
  obtain ⟨name, below, rfl⟩ := forward.top
  obtain ⟨next, looked, edge, ⟨onPath, closed⟩ | ⟨_, _, stepped⟩⟩ := forward.step_cases tangled
  · rw [closed] at found
    cases found
    exact ⟨name, below, next, rfl, looked, edge, onPath, rfl⟩
  · rw [stepped] at found
    cases found

theorem simpleCycle_of_loops
    {graph : Graph} {cycle : List String} (tangled : graph.Tangled) (ends : graph.Loops cycle) :
    SimpleCycle graph.Edge cycle := by
  obtain ⟨search, visited, found⟩ := ends
  have forward := forward_of_visits tangled visited
  obtain ⟨name, below, next, top, _, edge, onPath, rfl⟩ := exists_of_found forward tangled found
  apply Search.simpleCycle_loop forward.distinct forward.chain
  · intro last isLast
    rw [Search.names, top] at isLast
    cases isLast
    exact edge
  · exact onPath

theorem mem_names_of_loops
    {graph : Graph} {cycle : List String} (tangled : graph.Tangled) (ends : graph.Loops cycle) :
    ∀ name ∈ cycle, name ∈ graph.names := by
  obtain ⟨search, visited, found⟩ := ends
  have forward := forward_of_visits tangled visited
  obtain ⟨_, _, _, _, _, _, onPath, rfl⟩ := exists_of_found forward tangled found
  intro other member
  exact forward.mem_names (Search.mem_names_of_mem_loop forward.distinct onPath member)

end Graph

end FeatureRules
