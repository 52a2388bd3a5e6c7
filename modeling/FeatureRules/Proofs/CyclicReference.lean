import FeatureRules.Proofs.Compilation
import FeatureRules.Proofs.Graph.CycleSearch

/-!
# Reported cycles

When compilation fails because rules wait for each other, the path that it reports is a simple cycle
of waiting rules. It always comes from the search, which neither meets a name without a mark nor
closes a loop at a name off its path.
-/

namespace FeatureRules

namespace Model

variable {declarations : Declarations} {model : Model} {base : Int} {path : List String}

/-- The path of a reported cycle is what the search finds among the rules that are left, and those
wait for each other. -/
theorem loops_of_cyclicReference
    (built : declarations.build = .ok model)
    (failed : model.compile base = .error (.cyclicReference path)) :
    ∃ last, model.leveling = .ok last ∧ last.graph.Loops path ∧ last.graph.cycle? = some path := by
  have distinct := nodup_ruleNames_of_build built
  obtain ⟨last, found, left, reported⟩ :=
    exists_leveling_of_cyclicReference (compile_error_iff.mp failed)
  obtain ⟨refines, idle⟩ := refines_of_leveling distinct found
  have nonempty : last.graph ≠ [] := by simpa [Leveling.graph] using left
  obtain ⟨cycle, ends, searched⟩ :=
    Graph.exists_loops (refines.tangled_graph distinct idle) nonempty
  rw [Leveling.cycle, searched, Option.getD_some] at reported
  rw [← reported]
  exact ⟨last, found, ends, searched⟩

/-- A reported path is a simple cycle of rules, each of which refers to the next. The passes have come
to a state in which every rule that is left waits for one that is left, and the path is what the
search finds among them, never a mere list of them. In every state of the search, the names with a
mark are those of the rules that are left, the names marked as on the path are those of the path, and
each name on the path is referred to by the one before. So a successor that is looked at has a mark,
and one that closes a loop has a place on the path. -/
theorem cyclicReference_simpleCycle
    (built : declarations.build = .ok model)
    (failed : model.compile base = .error (.cyclicReference path)) :
    Graph.SimpleCycle model.Awaits path ∧
      (∀ name ∈ path, name ∈ model.ruleNames) ∧
      ∃ last, model.leveling = .ok last ∧
        (∀ waiting ∈ last.pending, ∃ name ∈ waiting.awaited, name ∈ last.names) ∧
        last.graph.cycle? = some path ∧
        ∀ search, last.graph.Visits search →
          (∀ name, search.marks.lookup name ≠ none ↔ name ∈ last.names) ∧
            (∀ name, search.marks.lookup name = some .onPath ↔ name ∈ search.names) ∧
            (search.names.IsChain fun later earlier => model.Awaits earlier later) ∧
            ∀ frame ∈ search.path, ∀ name, Search.successor? last.graph frame = some name →
              search.marks.lookup name ≠ none ∧
                (search.marks.lookup name = some .onPath →
                  search.names.reverse.idxOf? name ≠ none) := by
  have distinct := nodup_ruleNames_of_build built
  obtain ⟨last, found, ends, searched⟩ := loops_of_cyclicReference built failed
  obtain ⟨refines, idle⟩ := refines_of_leveling distinct found
  have tangled := refines.tangled_graph distinct idle
  have cycle := Graph.simpleCycle_of_loops tangled ends
  have awaits : ∀ source target, last.graph.Edge source target → model.Awaits source target :=
    fun _ _ => refines.awaits_of_edge distinct idle
  refine ⟨{ cycle with isChain := cycle.isChain.imp awaits }, ?_, last, found, ?_, searched, ?_⟩
  · intro name member
    have left := Graph.mem_names_of_loops tangled ends name member
    rw [Leveling.names_graph] at left
    exact refines.names_sublist.subset left
  · intro waiting member
    exact refines.exists_awaited distinct idle member
  · intro search visited
    have forward := Graph.forward_of_visits tangled visited
    have marked := forward.marked
    refine ⟨?_, forward.onPath, forward.chain.imp fun _ _ => awaits _ _, ?_⟩
    · rwa [Leveling.names_graph] at marked
    · intro frame _ name looked
      refine ⟨(marked name).mpr (Graph.mem_names_of_successor? tangled.closed looked), ?_⟩
      intro onPath
      have member := (forward.onPath name).mp onPath
      simpa using member

/-- A rule that leads into two rules that wait for each other, one of them also for a rule that waits
for nothing. -/
def detour : Declarations :=
  { rules :=
      [("entry", .string "#left"), ("left", .string "#free + #right"),
        ("right", .string "#left"), ("free", .string "1")] }

theorem cyclicReference_simpleCycle_detour :
    ∃ model, detour.build = .ok model ∧
      model.compile 1000 = .error (.cyclicReference ["left", "right", "left"]) ∧
      Graph.SimpleCycle model.Awaits ["left", "right", "left"] := by
  let model : Model :=
    { features := []
      parameters := []
      rules :=
        [Rule.plain "entry" (.string "#left"), Rule.plain "left" (.string "#free + #right"),
          Rule.plain "right" (.string "#left"), Rule.plain "free" (.string "1")]
      groups := []
      slices := [] }
  have built : detour.build = .ok model := rfl
  have unlevelled : model.levels = .error (.cyclicReference ["left", "right", "left"]) := by
    decide +kernel
  have failed := compile_of_levels_error 1000 unlevelled
  exact ⟨model, built, failed, (cyclicReference_simpleCycle built failed).1⟩

end Model

end FeatureRules
