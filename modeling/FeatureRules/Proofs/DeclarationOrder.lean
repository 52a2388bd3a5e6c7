import FeatureRules.Proofs.Declarations.Order
import FeatureRules.Proofs.FiringOrder
import FeatureRules.Proofs.Lowering

/-!
# Order of declaration

The order in which rule bodies are declared decides neither whether they make up a model nor how the
compilation of that model ends. When it succeeds, every rule has the same level and the same lowered
form, and defaults, groups and readiness are the same.
-/

namespace FeatureRules

/-- Two schedules that agree on every name and on the setup. -/
structure Schedule.AgreesWith (first second : Schedule) : Prop where
  rule? : ∀ name, first.rule? name = second.rule? name
  level? : ∀ name, first.level? name = second.level? name
  defaults : first.defaults = second.defaults
  groups : first.groups = second.groups
  setupReady : first.setupReady = second.setupReady

/-- Two compilations that both fail for an undeclared name, both fail for a cycle, or both succeed
with schedules that agree. -/
inductive SameOutcome : Except CompileError Schedule → Except CompileError Schedule → Prop
  | compiled {first second : Schedule} :
      first.AgreesWith second → SameOutcome (.ok first) (.ok second)
  | unresolvable (rule reference otherRule otherReference : String) :
      SameOutcome (.error (.unresolvableReference rule reference))
        (.error (.unresolvableReference otherRule otherReference))
  | cyclic (path otherPath : List String) :
      SameOutcome (.error (.cyclicReference path)) (.error (.cyclicReference otherPath))

theorem Salience.deepest_eq_of_mem_iff
    {levels others : List (String × Nat)}
    (same : ∀ entry, entry ∈ levels ↔ entry ∈ others) :
    deepest levels = deepest others := by
  apply Nat.le_antisymm
  · rw [deepest_le_iff]
    intro entry member
    exact level_le_deepest ((same entry).mp member)
  · rw [deepest_le_iff]
    intro entry member
    exact level_le_deepest ((same entry).mpr member)

theorem Model.filterMap_defaultAssignment? (model : Model) (features : List Feature) :
    features.filterMap model.defaultAssignment? =
      (features.filter Feature.hasDefault).filterMap model.defaultAssignment? := by
  rw [List.filterMap_filter]
  apply List.filterMap_congr
  intro feature _
  by_cases hasDefault : feature.hasDefault
  · rw [if_pos hasDefault]
  · rw [if_neg hasDefault]
    have absent : feature.defaultValue = none := by
      simpa [Feature.hasDefault] using hasDefault
    rw [defaultAssignment?, absent]

namespace Model.Reordered

variable {first second : Model}

/-! ## What names stand for -/

theorem symm (reordered : first.Reordered second) : second.Reordered first where
  rules := reordered.rules.symm
  feature? := fun name => (reordered.feature? name).symm
  defaulted := reordered.defaulted.symm
  parameters := reordered.parameters.symm
  groups := reordered.groups.symm

theorem ruleNames_perm (reordered : first.Reordered second) :
    first.ruleNames.Perm second.ruleNames :=
  reordered.rules.map Rule.name

theorem readsLike (reordered : first.Reordered second) : first.ReadsLike second where
  feature? := reordered.feature?
  parameter? := by
    intro name
    rw [Model.parameter?, reordered.parameters]
    rfl

theorem rule?_eq
    (reordered : first.Reordered second) (distinct : first.ruleNames.Nodup) (name : String) :
    first.rule? name = second.rule? name :=
  find?_name_eq_of_perm distinct reordered.rules name

theorem declares_iff (reordered : first.Reordered second) (name : String) :
    first.Declares name ↔ second.Declares name := by
  have isRule : first.isRule name = true ↔ second.isRule name = true := by
    rw [isRule_iff, isRule_iff, reordered.ruleNames_perm.mem_iff]
  rw [← knows_iff, ← knows_iff]
  simp only [knows, Bool.or_eq_true, isRule, reordered.readsLike.feature?,
    reordered.readsLike.parameter?]

theorem resolved_iff (reordered : first.Reordered second) :
    first.Resolved ↔ second.Resolved := by
  simp only [Resolved, reordered.declares_iff, reordered.rules.mem_iff]

theorem awaits_eq (reordered : first.Reordered second) : first.Awaits = second.Awaits := by
  funext source target
  simp only [Awaits, reordered.rules.mem_iff, reordered.ruleNames_perm.mem_iff]

/-! ## Lowering -/

/-- A rule has the same lowered form in both models when the levels give it the same salience. -/
theorem schedule_eq
    (reordered : first.Reordered second) {base : Int} {levels others : List (String × Nat)}
    (sameSalience : ∀ name, Salience.get base levels name = Salience.get base others name) :
    first.schedule base levels = second.schedule base others := by
  funext rule
  rw [reordered.readsLike.schedule_eq base levels others, ← sameSalience]
  rfl

theorem defaultAssignment?_eq
    (reordered : first.Reordered second) (distinct : first.ruleNames.Nodup) :
    first.defaultAssignment? = second.defaultAssignment? := by
  funext feature
  simp only [Model.defaultAssignment?, reordered.readsLike.lower_eq,
    reordered.readsLike.writeHolder_eq, reordered.rule?_eq distinct]

theorem defaults_eq
    (reordered : first.Reordered second) (distinct : first.ruleNames.Nodup) :
    first.features.filterMap first.defaultAssignment? =
      second.features.filterMap second.defaultAssignment? := by
  rw [filterMap_defaultAssignment? first, filterMap_defaultAssignment? second,
    reordered.defaulted, reordered.defaultAssignment?_eq distinct]

end Model.Reordered

/-! ## Schedules -/

namespace Model

variable {firstDeclared secondDeclared : Declarations} {first second : Model} {base : Int}
  {firstSchedule secondSchedule : Schedule}

/-- A schedule holds the defaults, the groups and the required parameters of its model. -/
theorem setup_of_compile
    {model : Model} {schedule : Schedule} (compiled : model.compile base = .ok schedule) :
    schedule.defaults = model.features.filterMap model.defaultAssignment? ∧
      schedule.groups = model.groups ∧
      schedule.required = model.requiredParameters := by
  obtain ⟨levels, _, finished⟩ := exists_of_bind_eq_ok compiled
  cases finished
  exact ⟨rfl, rfl, rfl⟩

theorem level?_of_reordered
    (firstBuilt : firstDeclared.build = .ok first)
    (secondBuilt : secondDeclared.build = .ok second)
    (reordered : first.Reordered second)
    (firstCompiled : first.compile base = .ok firstSchedule)
    (secondCompiled : second.compile base = .ok secondSchedule)
    {name : String} {level : Nat} (found : firstSchedule.level? name = some level) :
    secondSchedule.level? name = some level := by
  have entry := (level?_eq_some_iff firstBuilt firstCompiled).mp found
  have inFirst : name ∈ first.ruleNames :=
    (levelNames_perm firstBuilt firstCompiled).subset (List.mem_map_of_mem entry)
  have inSecond := reordered.ruleNames_perm.subset inFirst
  have sameChains :
      Graph.chainLengths first.Awaits name = Graph.chainLengths second.Awaits name := by
    rw [reordered.awaits_eq]
  rw [← found]
  exact
    (level?_eq_of_chainLengths_eq firstBuilt firstCompiled secondBuilt secondCompiled inFirst
      inSecond sameChains).symm

theorem agreesWith_of_reordered
    (firstBuilt : firstDeclared.build = .ok first)
    (secondBuilt : secondDeclared.build = .ok second)
    (reordered : first.Reordered second)
    (firstCompiled : first.compile base = .ok firstSchedule)
    (secondCompiled : second.compile base = .ok secondSchedule) :
    firstSchedule.AgreesWith secondSchedule := by
  have distinct := nodup_ruleNames_of_build firstBuilt
  have sameLevel : ∀ name, firstSchedule.level? name = secondSchedule.level? name := by
    intro name
    apply Option.ext
    intro level
    constructor
    · exact level?_of_reordered firstBuilt secondBuilt reordered firstCompiled secondCompiled
    · exact
        level?_of_reordered secondBuilt firstBuilt reordered.symm secondCompiled firstCompiled
  have sameDeepest :
      Salience.deepest firstSchedule.levels = Salience.deepest secondSchedule.levels := by
    apply Salience.deepest_eq_of_mem_iff
    intro entry
    rw [← level?_eq_some_iff firstBuilt firstCompiled,
      ← level?_eq_some_iff secondBuilt secondCompiled, sameLevel]
  have sameSalience : ∀ name,
      Salience.get base firstSchedule.levels name =
        Salience.get base secondSchedule.levels name := by
    intro name
    have sameLookup := sameLevel name
    rw [Schedule.level?, Schedule.level?] at sameLookup
    rw [Salience.get, Salience.get, sameLookup, sameDeepest]
  obtain ⟨firstDefaults, firstGroups, firstRequired⟩ := setup_of_compile firstCompiled
  obtain ⟨secondDefaults, secondGroups, secondRequired⟩ := setup_of_compile secondCompiled
  constructor
  · intro name
    have namesDistinct : (firstSchedule.rules.map ScheduledRule.name).Nodup := by
      rw [scheduledNames_of_compile firstCompiled]
      exact distinct
    apply find?_name_eq_of_perm namesDistinct
    rw [(levels_and_rules_of_compile firstCompiled).2,
      (levels_and_rules_of_compile secondCompiled).2, reordered.schedule_eq sameSalience]
    exact reordered.rules.map _
  · exact sameLevel
  · rw [firstDefaults, secondDefaults, reordered.defaults_eq distinct]
  · rw [firstGroups, secondGroups, reordered.groups]
  · rw [Schedule.setupReady, Schedule.setupReady, firstRequired, secondRequired,
      requiredParameters, requiredParameters, reordered.parameters]

theorem sameOutcome_of_reordered
    (firstBuilt : firstDeclared.build = .ok first)
    (secondBuilt : secondDeclared.build = .ok second)
    (reordered : first.Reordered second) (base : Int) :
    SameOutcome (first.compile base) (second.compile base) := by
  have firstDistinct := nodup_ruleNames_of_build firstBuilt
  have secondDistinct := nodup_ruleNames_of_build secondBuilt
  by_cases resolved : first.Resolved
  · have secondResolved := reordered.resolved_iff.mp resolved
    by_cases cyclic : Graph.Cyclic first.Awaits
    · have secondCyclic : Graph.Cyclic second.Awaits := reordered.awaits_eq ▸ cyclic
      obtain ⟨path, failed⟩ := levels_of_cyclic firstDistinct resolved cyclic
      obtain ⟨otherPath, otherFailed⟩ :=
        levels_of_cyclic secondDistinct secondResolved secondCyclic
      rw [compile_of_levels_error base failed, compile_of_levels_error base otherFailed]
      exact .cyclic path otherPath
    · have secondAcyclic : ¬ Graph.Cyclic second.Awaits := reordered.awaits_eq ▸ cyclic
      obtain ⟨levels, levelled⟩ := levels_of_acyclic firstDistinct resolved cyclic
      obtain ⟨otherLevels, otherLevelled⟩ :=
        levels_of_acyclic secondDistinct secondResolved secondAcyclic
      obtain ⟨firstSchedule, firstCompiled, _⟩ := exists_compile_of_levels_ok base levelled
      obtain ⟨secondSchedule, secondCompiled, _⟩ :=
        exists_compile_of_levels_ok base otherLevelled
      rw [firstCompiled, secondCompiled]
      apply SameOutcome.compiled
      exact
        agreesWith_of_reordered firstBuilt secondBuilt reordered firstCompiled secondCompiled
  · have secondUnresolved := reordered.resolved_iff.not.mp resolved
    obtain ⟨rule, reference, unknown⟩ := exists_firstUnknown_iff.mpr resolved
    obtain ⟨otherRule, otherReference, otherUnknown⟩ :=
      exists_firstUnknown_iff.mpr secondUnresolved
    rw [compile_of_levels_error base (levels_of_firstUnknown unknown),
      compile_of_levels_error base (levels_of_firstUnknown otherUnknown)]
    exact .unresolvable rule reference otherRule otherReference

end Model

namespace Declarations

/-- Rule bodies in two orders make up a model both or not at all. The two models compile with the
same outcome, whatever the base. -/
theorem sameOutcome_of_rules_perm
    (declarations : Declarations) {rules : List (String × Json)}
    (permuted : declarations.rules.Perm rules) (base : Int) :
    ((∃ model, declarations.build = .ok model) ↔
        ∃ model, { declarations with rules := rules }.build = .ok model) ∧
      ∀ first second, declarations.build = .ok first →
        { declarations with rules := rules }.build = .ok second →
          SameOutcome (first.compile base) (second.compile base) := by
  refine ⟨⟨?_, ?_⟩, ?_⟩
  · intro buildable
    obtain ⟨model, built⟩ := buildable
    obtain ⟨other, otherBuilt, _⟩ := exists_reordered_of_build permuted built
    exact ⟨other, otherBuilt⟩
  · intro buildable
    obtain ⟨model, built⟩ := buildable
    obtain ⟨other, otherBuilt, _⟩ := exists_reordered_of_build permuted.symm built
    exact ⟨other, otherBuilt⟩
  · intro first second firstBuilt secondBuilt
    obtain ⟨other, otherBuilt, reordered⟩ := exists_reordered_of_build permuted firstBuilt
    rw [secondBuilt] at otherBuilt
    cases otherBuilt
    exact Model.sameOutcome_of_reordered firstBuilt secondBuilt reordered base

/-- Two slices, one of which refers to an item of the other, ahead of a rule that refers to both. -/
def limitSheet : Declarations :=
  { rules :=
      [("low", .array [.string "1"]), ("high", .array [.string "#low_0 * 2"]),
        ("range", .string "#high_0 - #low_0")] }

theorem sameOutcome_of_rules_perm_limits :
    ∃ first second schedule otherSchedule,
      limitSheet.build = .ok first ∧
        { limitSheet with rules := limitSheet.rules.reverse }.build = .ok second ∧
        first.compile 1000 = .ok schedule ∧
        second.compile 1000 = .ok otherSchedule ∧
        schedule.levels = [("low_0", 0), ("low", 1), ("high_0", 1), ("high", 2), ("range", 2)] ∧
        schedule.AgreesWith otherSchedule := by
  let low : Slice := { name := "low", items := [.string "1"] }
  let high : Slice := { name := "high", items := [.string "#low_0 * 2"] }
  let sliceRules : List Rule :=
    [(Rule.plain "low_0" (.string "1")).inContext, low.rule,
      (Rule.plain "high_0" (.string "#low_0 * 2")).inContext, high.rule]
  let model : Model :=
    { features := sliceRules.map Rule.feature
      parameters := []
      rules := Rule.plain "range" (.string "#high_0 - #low_0") :: sliceRules
      groups := []
      slices := ["low", "high"] }
  have built : limitSheet.build = .ok model := rfl
  have permuted : limitSheet.rules.Perm limitSheet.rules.reverse :=
    (List.reverse_perm limitSheet.rules).symm
  obtain ⟨buildable, sameOutcome⟩ := limitSheet.sameOutcome_of_rules_perm permuted 1000
  obtain ⟨other, otherBuilt⟩ := buildable.mp ⟨model, built⟩
  have levelled : model.levels =
      .ok [("low_0", 0), ("low", 1), ("high_0", 1), ("high", 2), ("range", 2)] := by
    decide +kernel
  obtain ⟨schedule, compiled, levels⟩ := Model.exists_compile_of_levels_ok 1000 levelled
  have same := sameOutcome model other built otherBuilt
  rw [compiled] at same
  cases otherOutcome : other.compile 1000 with
  | error failure =>
      rw [otherOutcome] at same
      cases same
  | ok otherSchedule =>
      rw [otherOutcome] at same
      cases same with
      | compiled agrees =>
          exact
            ⟨model, other, schedule, otherSchedule, built, otherBuilt, compiled, otherOutcome,
              levels, agrees⟩

end Declarations

end FeatureRules
