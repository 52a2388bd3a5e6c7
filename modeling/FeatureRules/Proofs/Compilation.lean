import FeatureRules.Proofs.Declarations.Names
import FeatureRules.Proofs.Leveling

/-!
# The outcome of compilation

Compilation fails at the first name that nothing declares, then at a cycle of waiting rules, and
otherwise succeeds.
-/

namespace FeatureRules

namespace Model

/-! ## Levels -/

theorem known_ofRule {model : Model} {rule : Rule}
    (declared : ∀ name ∈ rule.dependencies, model.Declares name) :
    (Waiting.ofRule rule).Known model.symbols := by
  intro dependency member name isPending
  obtain ⟨mentioned, inRule, rfl⟩ := List.mem_map.mp member
  cases isPending
  exact knows_iff.mpr (declared _ inRule)

/-- The first pass stops at the first name that nothing declares. -/
theorem leveling_of_firstUnknown {model : Model} {rule reference : String}
    (unknown : model.FirstUnknown rule reference) :
    model.leveling = .error (.unresolvableReference rule reference) := by
  obtain ⟨earlier, offender, later, before, after, rules, resolved, rfl, names, known, undeclared⟩ :=
    unknown
  have fails : ∀ levels, (Waiting.ofRule offender).refresh model.symbols levels =
      .error (.unresolvableReference offender.name reference) := by
    intro levels
    have split : (Waiting.ofRule offender).dependencies =
        before.map .pending ++ .pending reference :: after.map .pending := by
      simp [Waiting.ofRule, names]
    refine Waiting.refresh_of_unknown split ?_ ?_
    · intro dependency member name isPending
      obtain ⟨mentioned, inBefore, rfl⟩ := List.mem_map.mp member
      cases isPending
      exact knows_iff.mpr (known _ inBefore)
    · rw [← Bool.not_eq_true]
      exact mt knows_iff.mp undeclared
  rw [leveling, Leveling.start, rules, List.map_append, List.map_cons]
  apply Leveling.run_eq_error _ fails
  intro waiting member
  obtain ⟨earlierRule, inEarlier, rfl⟩ := List.mem_map.mp member
  exact known_ofRule (resolved earlierRule inEarlier)

/-- No pass fails if every reference is to a declared name. -/
theorem exists_leveling {model : Model} (resolved : model.Resolved) :
    ∃ last, model.leveling = .ok last := by
  apply Leveling.exists_run
  intro waiting member
  obtain ⟨rule, inModel, rfl⟩ := List.mem_map.mp member
  exact known_ofRule (resolved rule inModel)

theorem levels_of_firstUnknown {model : Model} {rule reference : String}
    (unknown : model.FirstUnknown rule reference) :
    model.levels = .error (.unresolvableReference rule reference) := by
  rw [levels, leveling_of_firstUnknown unknown]
  rfl

theorem levels_of_leveling {model : Model} {last : Leveling} (found : model.leveling = .ok last) :
    model.levels =
      if last.pending.isEmpty then .ok last.levels else .error (.cyclicReference last.cycle) := by
  rw [levels, found]
  rfl

/-- Rules are left without a level exactly if some rule waits for itself in the end. -/
theorem pending_eq_nil_iff {model : Model} {last : Leveling} (distinct : model.ruleNames.Nodup)
    (found : model.leveling = .ok last) :
    last.pending = [] ↔ ¬ Graph.Cyclic model.Awaits := by
  obtain ⟨refines, idle⟩ := refines_of_leveling distinct found
  have sameNames := refines.names_eq_stuck distinct idle
  rw [← names_graph] at distinct
  rw [← edge_graph, ← Graph.stuck_eq_nil_iff 0 distinct model.closed_graph]
  rw [Leveling.names, Graph.names] at sameNames
  rw [← List.map_eq_nil_iff, sameNames, List.map_eq_nil_iff]

theorem levels_of_acyclic {model : Model} (distinct : model.ruleNames.Nodup)
    (resolved : model.Resolved) (acyclic : ¬ Graph.Cyclic model.Awaits) :
    ∃ levels, model.levels = .ok levels := by
  obtain ⟨last, found⟩ := exists_leveling resolved
  rw [levels_of_leveling found, (pending_eq_nil_iff distinct found).mpr acyclic]
  exact ⟨_, rfl⟩

theorem levels_of_cyclic {model : Model} (distinct : model.ruleNames.Nodup)
    (resolved : model.Resolved) (cyclic : Graph.Cyclic model.Awaits) :
    ∃ path, model.levels = .error (.cyclicReference path) := by
  obtain ⟨last, found⟩ := exists_leveling resolved
  have left : last.pending ≠ [] := by
    intro none
    exact (pending_eq_nil_iff distinct found).mp none cyclic
  rw [levels_of_leveling found, if_neg (by simpa using left)]
  exact ⟨_, rfl⟩

theorem resolved_of_leveling {model : Model} {last : Leveling}
    (found : model.leveling = .ok last) : model.Resolved := by
  by_contra unresolved
  obtain ⟨rule, reference, unknown⟩ := exists_firstUnknown_iff.mpr unresolved
  rw [leveling_of_firstUnknown unknown] at found
  cases found

/-- A cycle is reported when the passes have left some rules, by way of the search among them. -/
theorem exists_leveling_of_cyclicReference {model : Model} {path : List String}
    (failed : model.levels = .error (.cyclicReference path)) :
    ∃ last, model.leveling = .ok last ∧ last.pending ≠ [] ∧ last.cycle = path := by
  by_cases resolved : model.Resolved
  · obtain ⟨last, found⟩ := exists_leveling resolved
    rw [levels_of_leveling found] at failed
    split at failed
    · cases failed
    · next left =>
        cases failed
        exact ⟨last, found, by simpa using left, rfl⟩
  · obtain ⟨rule, reference, unknown⟩ := exists_firstUnknown_iff.mpr resolved
    rw [levels_of_firstUnknown unknown] at failed
    cases failed

/-- Levels are there when the passes have left no rule. -/
theorem exists_leveling_of_levels_ok {model : Model} {levels : List (String × Nat)}
    (found : model.levels = .ok levels) :
    ∃ last, model.leveling = .ok last ∧ last.pending = [] ∧ last.levels = levels := by
  obtain ⟨last, isLast, finished⟩ := exists_of_bind_eq_ok found
  split at finished
  · next none =>
      cases finished
      exact ⟨last, isLast, List.isEmpty_iff.mp none, rfl⟩
  · cases finished

theorem resolved_of_levels_ok {model : Model} {levels : List (String × Nat)}
    (found : model.levels = .ok levels) : model.Resolved := by
  obtain ⟨last, isLast, _⟩ := exists_leveling_of_levels_ok found
  exact resolved_of_leveling isLast

/-- The levels of a model are those of peeling, and peeling is stuck nowhere. -/
theorem levels_perm_peel {model : Model} {levels : List (String × Nat)}
    (distinct : model.ruleNames.Nodup) (found : model.levels = .ok levels) :
    levels.Perm (model.graph.peel 0).1 ∧ model.graph.stuck 0 = [] := by
  obtain ⟨last, isLast, none, rfl⟩ := exists_leveling_of_levels_ok found
  obtain ⟨refines, idle⟩ := refines_of_leveling distinct isLast
  refine ⟨refines.levels_perm distinct idle, ?_⟩
  have sameNames := refines.names_eq_stuck distinct idle
  rw [Leveling.names, none] at sameNames
  exact List.map_eq_nil_iff.mp sameNames.symm

/-! ## Compilation -/

theorem compile_of_levels_error {model : Model} {failure : CompileError} (base : Int)
    (failed : model.levels = .error failure) :
    model.compile base = .error failure := by
  rw [compile, failed]
  rfl

theorem exists_compile_of_levels_ok {model : Model} {levels : List (String × Nat)} (base : Int)
    (found : model.levels = .ok levels) :
    ∃ schedule, model.compile base = .ok schedule ∧ schedule.levels = levels := by
  rw [compile, found]
  exact ⟨_, rfl, rfl⟩

/-- A schedule holds the levels of its model and, in order, the rules of its model. -/
theorem levels_and_rules_of_compile {model : Model} {base : Int} {schedule : Schedule}
    (compiled : model.compile base = .ok schedule) :
    model.levels = .ok schedule.levels ∧
      schedule.rules = model.rules.map (model.schedule base schedule.levels) := by
  obtain ⟨levels, found, finished⟩ := exists_of_bind_eq_ok compiled
  cases finished
  exact ⟨found, rfl⟩

theorem scheduledNames_of_compile {model : Model} {base : Int} {schedule : Schedule}
    (compiled : model.compile base = .ok schedule) :
    schedule.rules.map ScheduledRule.name = model.ruleNames := by
  rw [(levels_and_rules_of_compile compiled).2, List.map_map]
  rfl

theorem compile_error_iff {model : Model} {base : Int} {failure : CompileError} :
    model.compile base = .error failure ↔ model.levels = .error failure := by
  constructor
  · intro failed
    cases levels : model.levels with
    | ok found =>
        obtain ⟨schedule, compiled, _⟩ := exists_compile_of_levels_ok base levels
        rw [compiled] at failed
        cases failed
    | error other =>
        rw [compile_of_levels_error base levels] at failed
        cases failed
        rfl
  · exact compile_of_levels_error base

/-- The outcome of compilation is that of exactly one of three kinds of models, whatever the base:
those with an undeclared reference, of which the first is reported, the others with a cycle of
waiting rules, and the rest. -/
theorem compile_outcome {declarations : Declarations} {model : Model}
    (built : declarations.build = .ok model) (base : Int) :
    (∀ rule reference, model.compile base = .error (.unresolvableReference rule reference) ↔
        model.FirstUnknown rule reference) ∧
      ((∃ rule reference, model.FirstUnknown rule reference) ↔ ¬ model.Resolved) ∧
      ((∃ path, model.compile base = .error (.cyclicReference path)) ↔
        model.Resolved ∧ Graph.Cyclic model.Awaits) ∧
      ((∃ schedule, model.compile base = .ok schedule) ↔
        model.Resolved ∧ ¬ Graph.Cyclic model.Awaits) ∧
      ∀ failure, model.compile base = .error failure →
        (∃ rule reference, failure = .unresolvableReference rule reference) ∨
          ∃ path, failure = .cyclicReference path := by
  have distinct := nodup_ruleNames_of_build built
  by_cases resolved : model.Resolved
  · have known : ∀ rule reference, ¬ model.FirstUnknown rule reference := by
      intro rule reference unknown
      exact exists_firstUnknown_iff.mp ⟨rule, reference, unknown⟩ resolved
    by_cases cyclic : Graph.Cyclic model.Awaits
    · obtain ⟨path, failed⟩ := levels_of_cyclic distinct resolved cyclic
      rw [compile_of_levels_error base failed]
      simp [known, resolved, cyclic]
    · obtain ⟨levels, found⟩ := levels_of_acyclic distinct resolved cyclic
      obtain ⟨schedule, compiled, _⟩ := exists_compile_of_levels_ok base found
      rw [compiled]
      simp [known, resolved, cyclic]
  · obtain ⟨first, unknown, firstUnknown⟩ := exists_firstUnknown_iff.mpr resolved
    have failed := levels_of_firstUnknown firstUnknown
    have reported : ∀ rule reference, model.FirstUnknown rule reference ↔
        first = rule ∧ unknown = reference := by
      intro rule reference
      constructor
      · intro other
        have otherFailed := levels_of_firstUnknown other
        rw [failed] at otherFailed
        cases otherFailed
        exact ⟨rfl, rfl⟩
      · rintro ⟨rfl, rfl⟩
        exact firstUnknown
    rw [compile_of_levels_error base failed]
    simp [reported, resolved]

/-- Two rules that wait for each other, ahead of one that refers to a name of nothing. -/
def tangle : Declarations :=
  { rules := [("left", .string "#right"), ("right", .string "#left"), ("sum", .string "#none")] }

/-- The undeclared reference is reported although there is a cycle. -/
theorem compile_outcome_tangle :
    ∃ model, tangle.build = .ok model ∧ Graph.Cyclic model.Awaits ∧
      model.compile 1000 = .error (.unresolvableReference "sum" "none") := by
  let left := Rule.plain "left" (.string "#right")
  let right := Rule.plain "right" (.string "#left")
  let sum := Rule.plain "sum" (.string "#none")
  let model : Model :=
    { features := [], parameters := [], rules := [left, right, sum], groups := [], slices := [] }
  have built : tangle.build = .ok model := rfl
  have leftWaits : left.dependencies = ["right"] := by decide +kernel
  have rightWaits : right.dependencies = ["left"] := by decide +kernel
  have forward : model.Awaits "left" "right" :=
    ⟨left, List.mem_cons_self, rfl, by simp [leftWaits], by decide⟩
  have backward : model.Awaits "right" "left" :=
    ⟨right, List.mem_cons_of_mem left List.mem_cons_self, rfl, by simp [rightWaits], by decide⟩
  have sumWaits : sum.dependencies = ["none"] := by decide +kernel
  have unknown : model.FirstUnknown "sum" "none" := by
    refine ⟨[left, right], sum, [], [], [], rfl, ?_, rfl, sumWaits, by simp, ?_⟩
    · simp only [List.forall_mem_cons, leftWaits, rightWaits, ← knows_iff]
      decide
    · rw [← knows_iff]
      decide
  refine ⟨model, built, ⟨"left", .tail (.single forward) backward⟩, ?_⟩
  exact ((compile_outcome built 1000).1 "sum" "none").mpr unknown

/-! ## A sample -/

/-- A price declared ahead of a rate and a fee, which are both kept in the context: the rate by its
feature, the fee by its rule alone. -/
def priceSheet : Declarations :=
  { features := [{ name := "rate", type := some .integer, holder := .context, defaultValue := none }]
    rules :=
      [("price", .string "#rate + #fee"), ("rate", .string "2"),
        ("fee", .object [("value", .string "1"), ("result", .bool false)])] }

def priceModel : Model :=
  { features := priceSheet.features
    parameters := []
    rules :=
      [Rule.plain "price" (.string "#rate + #fee"), Rule.plain "rate" (.string "2"),
        (Rule.plain "fee" (.string "1")).inContext]
    groups := []
    slices := [] }

theorem build_priceSheet : priceSheet.build = .ok priceModel := rfl

theorem exists_compile_priceModel :
    ∃ schedule, priceModel.compile 1000 = .ok schedule ∧
      schedule.levels = [("rate", 0), ("fee", 0), ("price", 1)] := by
  have found : priceModel.levels = .ok [("rate", 0), ("fee", 0), ("price", 1)] := by decide +kernel
  exact exists_compile_of_levels_ok 1000 found

end Model

end FeatureRules
