import FeatureRules.Entries
import FeatureRules.Graph

/-!
# Cycles

A depth-first search for nodes that wait for each other. Every name has a mark that says how far the
search has come with it.
-/

namespace FeatureRules

/-- How far a search has come with a name. -/
inductive Mark where
  | unvisited
  /-- The name is on the path to the current node. -/
  | onPath
  /-- All successors have been looked at. -/
  | left
deriving DecidableEq, Repr

/-- A name on the path of a search, and the place of its successor that is looked at next. -/
structure Frame where
  name : String
  next : Nat
deriving DecidableEq, Repr

def Frame.advance (frame : Frame) : Frame :=
  { frame with next := frame.next + 1 }

/-- The marks of a search, and the path to its current node from the end to the start. -/
structure Search where
  marks : List (String × Mark)
  path : List Frame
deriving DecidableEq, Repr

namespace Search

def names (search : Search) : List String :=
  search.path.map Frame.name

def start (marks : List (String × Mark)) (name : String) : Search :=
  { marks := Entries.insert name .onPath marks
    path := [{ name, next := 0 }] }

/-- The part of the path from a name on, which leads back to that name. A name that is not on the
path takes the whole of it. -/
def loop (search : Search) (name : String) : List String :=
  let trail := search.names.reverse
  trail.drop ((trail.idxOf? name).getD 0) ++ [name]

/-! ## One step -/

def successor? (graph : Graph) (frame : Frame) : Option String :=
  (graph.successors frame.name)[frame.next]?

inductive Outcome where
  | found (cycle : List String)
  | exhausted
  | next (search : Search)
deriving DecidableEq, Repr

/-- Look at the next successor of the current node. One that is on the path closes a loop, one that
was left is passed over, and any other comes on the path. A node without further successors is
left. -/
def step (graph : Graph) (search : Search) : Outcome :=
  match search.path with
  | [] => .exhausted
  | frame :: below =>
      match successor? graph frame with
      | none => .next { marks := Entries.insert frame.name .left search.marks, path := below }
      | some name =>
          match search.marks.lookup name with
          | some .onPath => .found (search.loop name)
          | some .left => .next { search with path := frame.advance :: below }
          | some .unvisited | none =>
              .next
                { marks := Entries.insert name .onPath search.marks
                  path := { name, next := 0 } :: frame.advance :: below }

/-! ## Termination -/

/-- Whether a name can still come on the path. -/
def isOpen (marks : List (String × Mark)) (name : String) : Bool :=
  match marks.lookup name with
  | some .onPath | some .left => false
  | some .unvisited | none => true

/-- How many steps names can still cost that are not on the path yet. -/
def openSteps (graph : Graph) (marks : List (String × Mark)) : List String → Nat
  | [] => 0
  | name :: rest =>
      (if isOpen marks name then (graph.successors name).length + 1 else 0) +
        openSteps graph marks rest

def pathSteps (graph : Graph) : List Frame → Nat
  | [] => 0
  | frame :: below =>
      (graph.successors frame.name).length - frame.next + 1 + pathSteps graph below

def steps (graph : Graph) (search : Search) : Nat :=
  openSteps graph search.marks (graph.flatMap Node.successors) + pathSteps graph search.path

theorem isOpen_insert (marks : List (String × Mark)) (name other : String) (mark : Mark)
    (closing : mark ≠ .unvisited) :
    isOpen (Entries.insert name mark marks) other = (other != name && isOpen marks other) := by
  unfold isOpen
  rw [Entries.lookup_insert]
  by_cases same : other = name
  · cases mark with
    | unvisited => exact absurd rfl closing
    | onPath => simp [same]
    | left => simp [same]
  · simp [same]

theorem openSteps_insert_le (graph : Graph) (marks : List (String × Mark)) (name : String)
    (mark : Mark) (closing : mark ≠ .unvisited) (names : List String) :
    openSteps graph (Entries.insert name mark marks) names ≤ openSteps graph marks names := by
  induction names with
  | nil => exact Nat.le_refl 0
  | cons other rest inductionHypothesis =>
      simp only [openSteps, isOpen_insert marks name other mark closing]
      cases isOpen marks other <;> cases other != name <;> simp <;> omega

/-- A name that comes on the path no longer counts among the open ones. -/
theorem openSteps_insert_lt (graph : Graph) {marks : List (String × Mark)} {name : String}
    (mark : Mark) (closing : mark ≠ .unvisited) (isOpenName : isOpen marks name = true)
    {names : List String} (member : name ∈ names) :
    openSteps graph (Entries.insert name mark marks) names + (graph.successors name).length + 1 ≤
      openSteps graph marks names := by
  induction names with
  | nil => cases member
  | cons other rest inductionHypothesis =>
      have restLe := openSteps_insert_le graph marks name mark closing rest
      simp only [openSteps, isOpen_insert marks name other mark closing]
      rcases List.mem_cons.mp member with rfl | later
      · simp [isOpenName]
        omega
      · have restLt := inductionHypothesis later
        cases isOpen marks other <;> cases other != name <;> simp <;> omega

theorem isOpen_eq_false_iff {marks : List (String × Mark)} {name : String} :
    isOpen marks name = false ↔
      marks.lookup name = some .onPath ∨ marks.lookup name = some .left := by
  unfold isOpen
  cases marks.lookup name with
  | none => simp
  | some mark => cases mark <;> simp

section Steps

variable {graph : Graph} {marks : List (String × Mark)} {frame : Frame} {below : List Frame}
  {name : String}

theorem step_of_successor?_eq_none (finished : successor? graph frame = none) :
    step graph ⟨marks, frame :: below⟩ = .next ⟨Entries.insert frame.name .left marks, below⟩ := by
  simp only [step, finished]

theorem step_of_onPath (looked : successor? graph frame = some name)
    (marked : marks.lookup name = some .onPath) :
    step graph ⟨marks, frame :: below⟩ = .found (loop ⟨marks, frame :: below⟩ name) := by
  simp only [step, looked, marked]

theorem step_of_left (looked : successor? graph frame = some name)
    (marked : marks.lookup name = some .left) :
    step graph ⟨marks, frame :: below⟩ = .next ⟨marks, frame.advance :: below⟩ := by
  simp only [step, looked, marked]

theorem step_of_isOpen (looked : successor? graph frame = some name)
    (unmarked : isOpen marks name = true) :
    step graph ⟨marks, frame :: below⟩ =
      .next ⟨Entries.insert name .onPath marks, ⟨name, 0⟩ :: frame.advance :: below⟩ := by
  simp only [step, looked]
  unfold isOpen at unmarked
  split <;> simp_all

end Steps

/-- Every step uses up some of the steps that a search can take. -/
theorem steps_lt_of_step {graph : Graph} {search later : Search}
    (stepped : search.step graph = .next later) :
    later.steps graph < search.steps graph := by
  obtain ⟨marks, path⟩ := search
  cases path with
  | nil => cases stepped
  | cons frame below =>
      cases looked : successor? graph frame with
      | none =>
          rw [step_of_successor?_eq_none looked] at stepped
          cases stepped
          have kept := openSteps_insert_le graph marks frame.name .left (by simp)
            (graph.flatMap Node.successors)
          simp only [steps, pathSteps]
          omega
      | some name =>
          have inRange := (List.getElem?_eq_some_iff.mp looked).1
          have member := Graph.mem_flatMap_of_mem_successors (List.mem_of_getElem? looked)
          cases unmarked : isOpen marks name with
          | true =>
              rw [step_of_isOpen looked unmarked] at stepped
              cases stepped
              have used := openSteps_insert_lt graph .onPath (by simp) unmarked member
              simp only [steps, pathSteps, Frame.advance]
              omega
          | false =>
              rcases isOpen_eq_false_iff.mp unmarked with onPath | left
              · rw [step_of_onPath looked onPath] at stepped
                cases stepped
              · rw [step_of_left looked left] at stepped
                cases stepped
                simp only [steps, pathSteps, Frame.advance]
                omega

/-! ## All steps -/

/-- Search on, until there is a cycle or nothing left of the path. -/
def run (graph : Graph) (search : Search) : Option (List String) × List (String × Mark) :=
  match _stepped : search.step graph with
  | .found cycle => (some cycle, search.marks)
  | .exhausted => (none, search.marks)
  | .next later => run graph later
termination_by search.steps graph
decreasing_by exact steps_lt_of_step _stepped

end Search

namespace Graph

/-- Search from each of some names in turn that is unvisited by then. -/
def cycleFrom? (graph : Graph) (marks : List (String × Mark)) :
    List String → Option (List String)
  | [] => none
  | name :: rest =>
      if marks.lookup name = some .unvisited then
        match (Search.start marks name).run graph with
        | (some cycle, _) => some cycle
        | (none, marks) => cycleFrom? graph marks rest
      else cycleFrom? graph marks rest

def unvisited (graph : Graph) : List (String × Mark) :=
  graph.names.map fun name => (name, .unvisited)

/-- A cycle of a graph, with its first node repeated at its end. -/
def cycle? (graph : Graph) : Option (List String) :=
  cycleFrom? graph graph.unvisited graph.names

end Graph

end FeatureRules
