import FeatureRules.Grl
import FeatureRules.Proofs.DeclarationOrder
import FeatureRules.Proofs.Declarations.Building
import FeatureRules.Proofs.Holders

/-!
# Names of blocks

A schedule is written as one block to each rule, behind the blocks of the setup. Rules have distinct
names, but nothing keeps a rule from the name of a setup block. The two blocks then retract each
other.
-/

namespace FeatureRules

theorem count_map_name {α : Type} (name : α → String) (entries : List α) (key : String) :
    (entries.map name).count key = (entries.filter fun other => name other == key).length := by
  rw [List.count, List.countP_map, List.countP_eq_length_filter]
  rfl

theorem filter_name_eq_singleton_iff
    {α : Type} {name : α → String} {entries : List α} :
    (∀ entry ∈ entries, entries.filter (fun other => name other == name entry) = [entry]) ↔
      (entries.map name).Nodup := by
  rw [List.nodup_iff_count_le_one]
  constructor
  · intro alone key
    by_cases present : key ∈ entries.map name
    · obtain ⟨entry, member, rfl⟩ := List.mem_map.mp present
      rw [count_map_name, alone entry member]
      exact Nat.le_refl 1
    · rw [List.count_eq_zero.mpr present]
      exact Nat.zero_le 1
  · intro once entry member
    have found : entry ∈ entries.filter fun other => name other == name entry :=
      List.mem_filter.mpr ⟨member, beq_self_eq_true _⟩
    have single : (entries.filter fun other => name other == name entry).length = 1 := by
      apply Nat.le_antisymm
      · rw [← count_map_name]
        exact once (name entry)
      · exact List.length_pos_of_mem found
    obtain ⟨only, isOnly⟩ := List.length_eq_one_iff.mp single
    rw [isOnly, List.mem_singleton] at found
    rw [isOnly, found]

namespace Schedule

/-- The blocks that a retraction of a name takes out. -/
def retracted (schedule : Schedule) (name : String) : List Grl.Block :=
  schedule.blocks.filter fun block => block.name == name

def setupNames (schedule : Schedule) : List String :=
  (schedule.defaultBlocks ++ schedule.groupBlocks).map Grl.Block.name

theorem map_name_blocks (schedule : Schedule) :
    schedule.blocks.map Grl.Block.name =
      schedule.setupNames ++ schedule.rules.map ScheduledRule.name := by
  rw [blocks, List.map_append, List.map_map]
  rfl

theorem setupNames_eq (schedule : Schedule) :
    schedule.setupNames =
      (if schedule.defaults = [] then [] else ["DefaultValues"]) ++
        if schedule.groups = [] then [] else ["GroupEntries"] := by
  rw [setupNames, List.map_append, defaultBlocks, groupBlocks]
  by_cases noDefaults : schedule.defaults = []
  · by_cases noGroups : schedule.groups = []
    · simp [noDefaults, noGroups]
    · simp [setupBlock, noDefaults, noGroups]
  · by_cases noGroups : schedule.groups = []
    · simp [setupBlock, noDefaults, noGroups]
    · simp [setupBlock, noDefaults, noGroups]

theorem mem_setupNames_iff {schedule : Schedule} {name : String} :
    name ∈ schedule.setupNames ↔
      schedule.defaults ≠ [] ∧ name = "DefaultValues" ∨
        schedule.groups ≠ [] ∧ name = "GroupEntries" := by
  rw [setupNames_eq, List.mem_append]
  apply or_congr
  · split <;> simp_all
  · split <;> simp_all

theorem nodup_setupNames (schedule : Schedule) : schedule.setupNames.Nodup := by
  rw [setupNames_eq]
  split <;> split <;> decide

theorem grl_of_mem_blocks
    {schedule : Schedule} {block : Grl.Block} (member : block ∈ schedule.blocks) :
    ∃ before after, schedule.grl = before ++ block.text ++ after :=
  join_of_mem Grl.Block.text member

theorem ruleBlock_mem_blocks
    {schedule : Schedule} {rule : ScheduledRule} (scheduled : rule ∈ schedule.rules) :
    Grl.ruleBlock rule ∈ schedule.blocks :=
  List.mem_append_right _ (List.mem_map_of_mem scheduled)

end Schedule

/-! ## Saliences -/

namespace Salience

theorem highest_eq_getD_max? (substitute : Int) (saliences : List Int) :
    highest substitute saliences = saliences.max?.getD substitute := by
  cases saliences with
  | nil => rfl
  | cons first rest => rw [highest, List.max?_cons', Option.getD_some]

theorem highest_spec {saliences : List Int} (substitute : Int) (nonempty : saliences ≠ []) :
    highest substitute saliences ∈ saliences ∧
      ∀ salience ∈ saliences, salience ≤ highest substitute saliences := by
  rw [highest_eq_getD_max?]
  cases greatestFound : saliences.max? with
  | none => exact absurd (List.max?_eq_none_iff.mp greatestFound) nonempty
  | some salience => exact List.max?_eq_some_iff.mp greatestFound

end Salience

namespace Schedule

/-- The setup fires first as long as no rule has the greatest salience. -/
theorem salience_lt_setupSalience
    {schedule : Schedule}
    (unsaturated : ∀ rule ∈ schedule.rules,
      Salience.least ≤ rule.salience ∧ rule.salience < Salience.greatest)
    {rule : ScheduledRule} (member : rule ∈ schedule.rules) :
    rule.salience < schedule.setupSalience := by
  have nonempty : schedule.rules.map ScheduledRule.salience ≠ [] := by
    simpa using List.ne_nil_of_mem member
  obtain ⟨reached, upper⟩ := Salience.highest_spec Salience.standardBase nonempty
  obtain ⟨first, firstMember, isHighest⟩ := List.mem_map.mp reached
  obtain ⟨word, room⟩ := unsaturated first firstMember
  have bounded := upper rule.salience (List.mem_map_of_mem member)
  rw [isHighest] at word room
  rw [setupSalience, Salience.saturate]
  omega

end Schedule

namespace Model

/-- The blocks of a model have distinct names, and every block retracts itself alone, exactly if no
rule is named like a setup block that is there. -/
theorem blockNames_nodup_iff
    {declarations : Declarations} {model : Model} {base : Int} {schedule : Schedule}
    (built : declarations.build = .ok model) (compiled : model.compile base = .ok schedule) :
    ((schedule.blocks.map Grl.Block.name).Nodup ↔
        (schedule.defaults ≠ [] → "DefaultValues" ∉ model.ruleNames) ∧
          (schedule.groups ≠ [] → "GroupEntries" ∉ model.ruleNames)) ∧
      ((∀ block ∈ schedule.blocks, schedule.retracted block.name = [block]) ↔
        (schedule.blocks.map Grl.Block.name).Nodup) := by
  refine ⟨?_, filter_name_eq_singleton_iff⟩
  have distinct := nodup_ruleNames_of_build built
  rw [schedule.map_name_blocks, scheduledNames_of_compile compiled, List.nodup_append']
  constructor
  · rintro ⟨_, _, disjoint⟩
    constructor
    · intro hasDefaults
      exact disjoint (Schedule.mem_setupNames_iff.mpr (Or.inl ⟨hasDefaults, rfl⟩))
    · intro hasGroups
      exact disjoint (Schedule.mem_setupNames_iff.mpr (Or.inr ⟨hasGroups, rfl⟩))
  · rintro ⟨noDefaultRule, noGroupRule⟩
    refine ⟨schedule.nodup_setupNames, distinct, ?_⟩
    intro name inSetup
    rcases Schedule.mem_setupNames_iff.mp inSetup with ⟨hasDefaults, rfl⟩ | ⟨hasGroups, rfl⟩
    · exact noDefaultRule hasDefaults
    · exact noGroupRule hasGroups

def regionLevels : List (String × Nat) :=
  [("zone", 0), ("region_0_value", 0), ("region_0", 1), ("region_1_value", 1), ("region_1", 2),
    ("region", 3), ("rates_0", 0), ("rates_1", 1), ("rates", 2), ("price", 2)]

theorem exists_compile_regionModel :
    ∃ schedule, Declarations.regionModel.compile 1000 = .ok schedule ∧
      schedule.levels = regionLevels := by
  have found : Declarations.regionModel.levels = .ok regionLevels := by decide +kernel
  exact exists_compile_of_levels_ok 1000 found

theorem blockNames_nodup_iff_region :
    ∃ schedule, Declarations.regionModel.compile 1000 = .ok schedule ∧
      schedule.groups ≠ [] ∧ "GroupEntries" ∉ Declarations.regionModel.ruleNames ∧
      (schedule.blocks.map Grl.Block.name).Nodup := by
  obtain ⟨schedule, compiled, _⟩ := exists_compile_regionModel
  obtain ⟨defaults, groups, _⟩ := setup_of_compile compiled
  have noDefaults : schedule.defaults = [] := by
    rw [defaults]
    decide +kernel
  have noGroupRule : "GroupEntries" ∉ Declarations.regionModel.ruleNames := by
    decide +kernel
  obtain ⟨distinctIff, _⟩ := blockNames_nodup_iff Declarations.build_regionSheet compiled
  refine ⟨schedule, compiled, ?_, noGroupRule, distinctIff.mpr ⟨?_, ?_⟩⟩
  · rw [groups]
    exact List.cons_ne_nil _ _
  · intro hasDefaults
    exact absurd noDefaults hasDefaults
  · intro _
    exact noGroupRule

/-- A default, and a rule with the name of the block that sets up defaults. -/
def reservedSheet : Declarations :=
  { features :=
      [{ name := "rate", type := some .integer, holder := .result
         defaultValue := some (.ofInt 2) }]
    rules := [("DefaultValues", .string "#rate")] }

def reservedModel : Model :=
  { features := reservedSheet.features
    parameters := []
    rules := [Rule.plain "DefaultValues" (.string "#rate")]
    groups := []
    slices := [] }

/-- The setup of defaults and the rule are retracted at once. -/
theorem blockNames_not_nodup_reserved :
    ∃ schedule, reservedSheet.build = .ok reservedModel ∧
      reservedModel.compile 1000 = .ok schedule ∧
      schedule.blocks.map Grl.Block.name = ["DefaultValues", "DefaultValues"] ∧
      ¬ (schedule.blocks.map Grl.Block.name).Nodup ∧
      (schedule.retracted "DefaultValues").length = 2 := by
  have found : reservedModel.levels = .ok [("DefaultValues", 0)] := by decide +kernel
  obtain ⟨schedule, compiled, _⟩ := exists_compile_of_levels_ok 1000 found
  obtain ⟨defaults, groups, _⟩ := setup_of_compile compiled
  have assigned : schedule.defaults = [{ name := "rate", value := "2", holder := .result }] := by
    rw [defaults]
    decide +kernel
  have noGroups : schedule.groups = [] := groups
  have names : schedule.blocks.map Grl.Block.name = ["DefaultValues", "DefaultValues"] := by
    rw [schedule.map_name_blocks, schedule.setupNames_eq, assigned, noGroups,
      scheduledNames_of_compile compiled]
    decide
  refine ⟨schedule, rfl, compiled, names, ?_, ?_⟩
  · rw [names]
    decide
  · rw [Schedule.retracted, ← count_map_name, names]
    decide

end Model

end FeatureRules
