import FeatureRules.Proofs.Compilation

/-!
# Levels of rules

Every rule of a compiled model has one level, the length of the longest chain of rules that wait for
each other from it on. No rule falls back to the base salience for want of a level.
-/

namespace FeatureRules

namespace Model

variable {declarations : Declarations} {model : Model} {base : Int} {schedule : Schedule}

/-! ## The level map -/

theorem levels_perm_of_compile (built : declarations.build = .ok model)
    (compiled : model.compile base = .ok schedule) :
    schedule.levels.Perm (model.graph.peel 0).1 :=
  (levels_perm_peel (nodup_ruleNames_of_build built) (levels_and_rules_of_compile compiled).1).1

theorem levelNames_perm (built : declarations.build = .ok model)
    (compiled : model.compile base = .ok schedule) :
    (schedule.levels.map Prod.fst).Perm model.ruleNames := by
  obtain ⟨peeled, unstuck⟩ :=
    levels_perm_peel (nodup_ruleNames_of_build built) (levels_and_rules_of_compile compiled).1
  have split := Graph.leveled_append_stuck_perm 0 model.graph
  rw [unstuck, names_graph, Graph.names, List.map_nil, List.append_nil] at split
  exact (peeled.map Prod.fst).trans split

theorem nodup_levelNames (built : declarations.build = .ok model)
    (compiled : model.compile base = .ok schedule) :
    (schedule.levels.map Prod.fst).Nodup :=
  (levelNames_perm built compiled).nodup_iff.mpr (nodup_ruleNames_of_build built)

theorem level?_eq_some_iff (built : declarations.build = .ok model)
    (compiled : model.compile base = .ok schedule) {name : String} {level : Nat} :
    schedule.level? name = some level ↔ (name, level) ∈ schedule.levels :=
  lookup_eq_some_iff_mem (nodup_levelNames built compiled)

theorem exists_level (built : declarations.build = .ok model)
    (compiled : model.compile base = .ok schedule) {name : String}
    (member : name ∈ model.ruleNames) :
    ∃ level, schedule.level? name = some level := by
  have inLevels := (levelNames_perm built compiled).symm.subset member
  obtain ⟨⟨_, level⟩, entry, rfl⟩ := List.mem_map.mp inLevels
  exact ⟨level, (level?_eq_some_iff built compiled).mpr entry⟩

/-! ## Waiting and levels -/

theorem ranks_levels (built : declarations.build = .ok model)
    (compiled : model.compile base = .ok schedule) :
    model.graph.Ranks 0 schedule.levels := by
  have distinct := nodup_ruleNames_of_build built
  rw [← names_graph] at distinct
  exact (Graph.ranks_peel distinct).of_perm (levels_perm_of_compile built compiled).symm

/-- A rule is above every rule that it waits for. -/
theorem exists_lower_level (built : declarations.build = .ok model)
    (compiled : model.compile base = .ok schedule) {source target : String} {level : Nat}
    (found : schedule.level? source = some level) (waits : model.Awaits source target) :
    ∃ lower, schedule.level? target = some lower ∧ lower < level := by
  have entry := (level?_eq_some_iff built compiled).mp found
  obtain ⟨lower, lowerEntry, below⟩ :=
    (ranks_levels built compiled).above entry (edge_graph_iff.mpr waits)
  exact ⟨lower, (level?_eq_some_iff built compiled).mpr lowerEntry, below⟩

/-- A rule above the lowest level is right above some rule that it waits for. -/
theorem exists_next_lower_level (built : declarations.build = .ok model)
    (compiled : model.compile base = .ok schedule) {source : String} {level : Nat}
    (found : schedule.level? source = some level) (positive : level ≠ 0) :
    ∃ target lower, model.Awaits source target ∧ schedule.level? target = some lower ∧
      level = lower + 1 := by
  have entry := (level?_eq_some_iff built compiled).mp found
  obtain ⟨target, lower, edge, lowerEntry, next⟩ :=
    ((ranks_levels built compiled).tight entry).resolve_left positive
  exact
    ⟨target, lower, edge_graph_iff.mp edge,
      (level?_eq_some_iff built compiled).mpr lowerEntry, next⟩

theorem isGreatest_level (built : declarations.build = .ok model)
    (compiled : model.compile base = .ok schedule) {name : String} {level : Nat}
    (found : schedule.level? name = some level) :
    IsGreatest (Graph.chainLengths model.Awaits name) level := by
  have entry := (level?_eq_some_iff built compiled).mp found
  rw [← edge_graph]
  exact (ranks_levels built compiled).isGreatest_chainLengths entry

/-- A rule with the same chains in two models has the same level in both. -/
theorem level?_eq_of_chainLengths_eq
    {otherDeclarations : Declarations} {other : Model} {otherBase : Int} {otherSchedule : Schedule}
    (built : declarations.build = .ok model) (compiled : model.compile base = .ok schedule)
    (otherBuilt : otherDeclarations.build = .ok other)
    (otherCompiled : other.compile otherBase = .ok otherSchedule) {name : String}
    (isRule : name ∈ model.ruleNames) (otherIsRule : name ∈ other.ruleNames)
    (sameChains :
      Graph.chainLengths model.Awaits name = Graph.chainLengths other.Awaits name) :
    schedule.level? name = otherSchedule.level? name := by
  obtain ⟨level, found⟩ := exists_level built compiled isRule
  obtain ⟨otherLevel, otherFound⟩ := exists_level otherBuilt otherCompiled otherIsRule
  have longest := isGreatest_level built compiled found
  have otherLongest := isGreatest_level otherBuilt otherCompiled otherFound
  rw [sameChains] at longest
  rw [found, otherFound, longest.unique otherLongest]

def levelsAbove (model : Model) (schedule : Schedule) (name : String) : Set Nat :=
  { next | ∃ target lower, model.Awaits name target ∧
      schedule.level? target = some lower ∧ next = lower + 1 }

theorem level_eq_zero_of_not_awaits (built : declarations.build = .ok model)
    (compiled : model.compile base = .ok schedule) {name : String} {level : Nat}
    (found : schedule.level? name = some level) (free : ∀ target, ¬ model.Awaits name target) :
    level = 0 := by
  by_contra positive
  obtain ⟨target, _, waits, _⟩ := exists_next_lower_level built compiled found positive
  exact free target waits

theorem isGreatest_levelsAbove (built : declarations.build = .ok model)
    (compiled : model.compile base = .ok schedule) {name : String} {level : Nat}
    (found : schedule.level? name = some level) (waits : ∃ target, model.Awaits name target) :
    IsGreatest (model.levelsAbove schedule name) level := by
  constructor
  · obtain ⟨target, awaited⟩ := waits
    obtain ⟨lower, _, below⟩ := exists_lower_level built compiled found awaited
    exact exists_next_lower_level built compiled found (by omega)
  · intro next above
    rcases above with ⟨target, lower, awaited, lowerFound, rfl⟩
    obtain ⟨other, otherFound, below⟩ := exists_lower_level built compiled found awaited
    rw [lowerFound] at otherFound
    cases otherFound
    exact below

theorem awaits_iff_of_mem (built : declarations.build = .ok model) {rule : Rule}
    (inModel : rule ∈ model.rules) {target : String} :
    model.Awaits rule.name target ↔ target ∈ rule.dependencies ∧ target ∈ model.ruleNames := by
  constructor
  · rintro ⟨other, otherInModel, sameName, mentioned, isRule⟩
    have same : other = rule :=
      List.inj_on_of_nodup_map (nodup_ruleNames_of_build built) otherInModel inModel sameName
    exact ⟨same ▸ mentioned, isRule⟩
  · rintro ⟨mentioned, isRule⟩
    exact ⟨rule, inModel, rfl, mentioned, isRule⟩

/-- A rule that waits for rules only is right above the highest of them. -/
theorem level?_of_dependencies (built : declarations.build = .ok model)
    (compiled : model.compile base = .ok schedule) {rule : Rule} (inModel : rule ∈ model.rules)
    (waits : rule.dependencies ≠ [])
    (awaited : ∀ name ∈ rule.dependencies, name ∈ model.ruleNames) :
    ∃ highest, schedule.level? rule.name = some (highest + 1) ∧
      IsGreatest { level | ∃ name ∈ rule.dependencies, schedule.level? name = some level }
        highest := by
  have awaits : ∀ name ∈ rule.dependencies, model.Awaits rule.name name := by
    intro name mentioned
    exact (awaits_iff_of_mem built inModel).mpr ⟨mentioned, awaited name mentioned⟩
  obtain ⟨first, mentioned⟩ := List.exists_mem_of_ne_nil _ waits
  obtain ⟨level, found⟩ := exists_level built compiled (List.mem_map_of_mem inModel)
  obtain ⟨⟨target, highest, targetAwaited, targetFound, rfl⟩, upper⟩ :=
    isGreatest_levelsAbove built compiled found ⟨first, awaits first mentioned⟩
  have targetMentioned := ((awaits_iff_of_mem built inModel).mp targetAwaited).1
  refine ⟨highest, found, ⟨target, targetMentioned, targetFound⟩, ?_⟩
  rintro lower ⟨name, nameMentioned, lowerFound⟩
  have bounded := upper ⟨name, lower, awaits name nameMentioned, lowerFound, rfl⟩
  omega

theorem salience_of_level? {name : String} {level : Nat}
    (found : schedule.level? name = some level) :
    Salience.get base schedule.levels name =
      Salience.score base (Salience.deepest schedule.levels) level := by
  rw [Schedule.level?] at found
  rw [Salience.get, found]

/-- The keys of the level map are the names of the rules. A level is the length of the longest chain
of waiting rules: zero for a rule that waits for none, and otherwise one more than the highest level
of those that it waits for. The salience of a rule always comes from its level. -/
theorem level_eq_longest_chain (built : declarations.build = .ok model)
    (compiled : model.compile base = .ok schedule) :
    (schedule.levels.map Prod.fst).Perm model.ruleNames ∧
      (schedule.levels.map Prod.fst).Nodup ∧
      ∀ name ∈ model.ruleNames, ∃ level,
        schedule.level? name = some level ∧
          IsGreatest (Graph.chainLengths model.Awaits name) level ∧
          ((∀ target, ¬ model.Awaits name target) → level = 0) ∧
          ((∃ target, model.Awaits name target) →
            IsGreatest (model.levelsAbove schedule name) level) ∧
          Salience.get base schedule.levels name =
            Salience.score base (Salience.deepest schedule.levels) level := by
  refine ⟨levelNames_perm built compiled, nodup_levelNames built compiled, ?_⟩
  intro name member
  obtain ⟨level, found⟩ := exists_level built compiled member
  exact
    ⟨level, found, isGreatest_level built compiled found,
      level_eq_zero_of_not_awaits built compiled found,
      isGreatest_levelsAbove built compiled found, salience_of_level? found⟩

theorem level_eq_longest_chain_price :
    ∃ schedule, priceModel.compile 1000 = .ok schedule ∧
      (schedule.levels.map Prod.fst).Perm ["price", "rate", "fee"] ∧
      schedule.level? "price" = some 1 ∧
      IsGreatest (Graph.chainLengths priceModel.Awaits "price") 1 := by
  obtain ⟨schedule, compiled, levels⟩ := exists_compile_priceModel
  obtain ⟨keys, _, each⟩ := level_eq_longest_chain build_priceSheet compiled
  obtain ⟨level, found, longest, _⟩ := each "price" List.mem_cons_self
  have one : schedule.level? "price" = some 1 := by
    rw [Schedule.level?, levels]
    rfl
  rw [one] at found
  cases found
  exact ⟨schedule, compiled, keys, one, longest⟩

end Model

end FeatureRules
