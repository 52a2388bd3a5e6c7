import FeatureRules.CompileError
import FeatureRules.Graph.Cycle
import FeatureRules.Rule

/-!
# Leveling

Passes over the rules that have no level yet. A rule gets its level once those of all rules that it
refers to are known, and it keeps what it has found out about them from one pass to the next.
-/

namespace FeatureRules

/-! ## Dependencies -/

/-- Whether anything is declared under a name, and whether a rule is. -/
structure Symbols where
  knows : String → Bool
  isRule : String → Bool

/-- What a rule knows of a name that it refers to. -/
inductive Dependency where
  | level (value : Nat)
  | input
  | pending (name : String)
deriving DecidableEq, Repr

namespace Dependency

def refresh (symbols : Symbols) (levels : List (String × Nat)) (rule : String) :
    Dependency → Except CompileError Dependency
  | pending name =>
      if symbols.knows name then
        match levels.lookup name with
        | some value => .ok (level value)
        | none => if symbols.isRule name then .ok (pending name) else .ok input
      else .error (.unresolvableReference rule name)
  | level value => .ok (level value)
  | input => .ok input

def level? : Dependency → Option Nat
  | level value => some value
  | input => none
  | pending _ => none

def pending? : Dependency → Option String
  | pending name => some name
  | level _ => none
  | input => none

end Dependency

/-! ## Waiting rules -/

/-- A rule without a level, and what it knows of the names that it refers to, in order. -/
structure Waiting where
  name : String
  dependencies : List Dependency
deriving DecidableEq, Repr

namespace Waiting

def ofRule (rule : Rule) : Waiting :=
  { name := rule.name, dependencies := rule.dependencies.map .pending }

/-- Look up all names that the rule is still waiting for. The first unknown one is a failure. -/
def refresh (symbols : Symbols) (levels : List (String × Nat)) (waiting : Waiting) :
    Except CompileError Waiting := do
  let dependencies ← waiting.dependencies.mapM (Dependency.refresh symbols levels waiting.name)
  return { waiting with dependencies }

def awaited (waiting : Waiting) : List String :=
  waiting.dependencies.filterMap Dependency.pending?

/-- The highest level among those of the rules that this one refers to. -/
def deepest? (waiting : Waiting) : Option Nat :=
  (waiting.dependencies.filterMap Dependency.level?).max?

/-- The level of a rule that is waiting for nothing. -/
def level? (waiting : Waiting) : Option Nat :=
  if waiting.awaited.isEmpty then
    match waiting.deepest? with
    | some deepest => some (deepest + 1)
    | none => some 0
  else none

end Waiting

/-! ## Passes -/

/-- The rules without a level, in their order, and the levels of the others. -/
structure Leveling where
  pending : List Waiting
  levels : List (String × Nat)
deriving DecidableEq, Repr

namespace Leveling

def start (rules : List Rule) : Leveling :=
  { pending := rules.map Waiting.ofRule, levels := [] }

/-- One pass over waiting rules. A level counts at once for the rules behind. Also the number of rules
that got a level. -/
def pass (symbols : Symbols) :
    List Waiting → List (String × Nat) → Except CompileError (Nat × Leveling)
  | [], levels => .ok (0, { pending := [], levels })
  | waiting :: rest, levels => do
      let refreshed ← waiting.refresh symbols levels
      match refreshed.level? with
      | some level =>
          let (leveled, later) ← pass symbols rest (Entries.insert waiting.name level levels)
          return (leveled + 1, later)
      | none =>
          let (leveled, later) ← pass symbols rest levels
          return (leveled, { later with pending := refreshed :: later.pending })

/-- What a pass without a failure comes to, rule by rule. -/
inductive Passes (symbols : Symbols) :
    List Waiting → List (String × Nat) → Nat → Leveling → Prop
  | done (levels : List (String × Nat)) : Passes symbols [] levels 0 ⟨[], levels⟩
  | level {waiting refreshed : Waiting} {rest : List Waiting} {levels : List (String × Nat)}
      {level leveled : Nat} {later : Leveling} :
      waiting.refresh symbols levels = .ok refreshed → refreshed.level? = some level →
      Passes symbols rest (Entries.insert waiting.name level levels) leveled later →
      Passes symbols (waiting :: rest) levels (leveled + 1) later
  | keep {waiting refreshed : Waiting} {rest : List Waiting} {levels : List (String × Nat)}
      {leveled : Nat} {later : Leveling} :
      waiting.refresh symbols levels = .ok refreshed → refreshed.level? = none →
      Passes symbols rest levels leveled later →
      Passes symbols (waiting :: rest) levels leveled ⟨refreshed :: later.pending, later.levels⟩

theorem passes_of_pass {symbols : Symbols} {waiting : List Waiting} {levels : List (String × Nat)}
    {leveled : Nat} {later : Leveling}
    (passed : pass symbols waiting levels = .ok (leveled, later)) :
    Passes symbols waiting levels leveled later := by
  induction waiting generalizing levels leveled later with
  | nil =>
      cases passed
      exact .done levels
  | cons first rest inductionHypothesis =>
      rw [pass] at passed
      cases looked : first.refresh symbols levels with
      | error failure => simp [looked, bind, Except.bind] at passed
      | ok refreshed =>
          simp only [looked, bind, Except.bind] at passed
          cases given : refreshed.level? with
          | some level =>
              simp only [given] at passed
              cases next : pass symbols rest (Entries.insert first.name level levels) with
              | error failure => simp [next] at passed
              | ok result =>
                  simp only [next, pure, Except.pure, Except.ok.injEq, Prod.mk.injEq] at passed
                  obtain ⟨rfl, rfl⟩ := passed
                  exact .level looked given (inductionHypothesis next)
          | none =>
              simp only [given] at passed
              cases next : pass symbols rest levels with
              | error failure => simp [next] at passed
              | ok result =>
                  simp only [next, pure, Except.pure, Except.ok.injEq, Prod.mk.injEq] at passed
                  obtain ⟨rfl, rfl⟩ := passed
                  exact .keep looked given (inductionHypothesis next)

theorem Passes.length {symbols : Symbols} {waiting : List Waiting} {levels : List (String × Nat)}
    {leveled : Nat} {later : Leveling} (passes : Passes symbols waiting levels leveled later) :
    later.pending.length + leveled = waiting.length := by
  induction passes with
  | done => rfl
  | level _ _ _ inductionHypothesis =>
      rw [List.length_cons]
      omega
  | keep _ _ _ inductionHypothesis =>
      simp only [List.length_cons]
      omega

/-- Pass over the waiting rules again and again, until none is left or a pass gives no level. -/
def run (symbols : Symbols) (leveling : Leveling) : Except CompileError Leveling :=
  if leveling.pending.isEmpty then .ok leveling
  else
    match _passed : pass symbols leveling.pending leveling.levels with
    | .error failure => .error failure
    | .ok (leveled, later) => if leveled = 0 then .ok later else run symbols later
termination_by leveling.pending.length
decreasing_by
  have counted := (passes_of_pass _passed).length
  omega

/-! ## Rules that wait for each other -/

def names (leveling : Leveling) : List String :=
  leveling.pending.map Waiting.name

def graph (leveling : Leveling) : Graph :=
  leveling.pending.map fun waiting =>
    { name := waiting.name, successors := waiting.awaited.filter leveling.names.contains }

/-- A cycle of waiting rules, or all of them if there is none. -/
def cycle (leveling : Leveling) : List String :=
  leveling.graph.cycle?.getD leveling.names

end Leveling

end FeatureRules
