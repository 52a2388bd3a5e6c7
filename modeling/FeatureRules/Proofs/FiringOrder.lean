import FeatureRules.Proofs.Levels

/-!
# Firing order

Saliences fall strictly with the level as long as they do not saturate. The order in which rules fire
is then that of their levels, with the order of declaration among rules of the same level, and every
rule fires behind the rules that it waits for.
-/

namespace FeatureRules

/-! ## Saliences without saturation -/

namespace Salience

theorem signed_of_le {n : Nat} (fits : (n : Int) ≤ greatest) : signed n = n := by
  rw [greatest] at fits
  apply Int.bmod_eq_of_le <;> omega

/-- No salience is cut off: the base, the deepest level and their sum are signed words. -/
structure Unsaturated (base : Int) (deepestLevel : Nat) : Prop where
  word : least ≤ base
  countable : (deepestLevel : Int) ≤ greatest
  sum : base + deepestLevel ≤ greatest

/-- A salience that is not cut off is the distance from the deepest level, counted up from the
base. -/
theorem score_eq {base : Int} {deepestLevel level : Nat}
    (unsaturated : Unsaturated base deepestLevel) (shallow : level ≤ deepestLevel) :
    score base deepestLevel level = base + deepestLevel - level := by
  have word := unsaturated.word
  have countable := unsaturated.countable
  have sum := unsaturated.sum
  have distance : ((deepestLevel - level : Nat) : Int) = deepestLevel - level := by
    omega
  rw [score, signed_of_le (by omega), distance, saturate]
  omega

private theorem foldl_max_le_iff (levels : List (String × Nat)) (start bound : Nat) :
    levels.foldl (fun deepest entry => max deepest entry.2) start ≤ bound ↔
      start ≤ bound ∧ ∀ entry ∈ levels, entry.2 ≤ bound := by
  induction levels generalizing start with
  | nil => simp
  | cons first rest inductionHypothesis =>
      rw [List.foldl_cons, inductionHypothesis, Nat.max_le, List.forall_mem_cons, and_assoc]

theorem deepest_le_iff {levels : List (String × Nat)} {bound : Nat} :
    deepest levels ≤ bound ↔ ∀ entry ∈ levels, entry.2 ≤ bound := by
  rw [deepest, foldl_max_le_iff]
  simp

theorem level_le_deepest {levels : List (String × Nat)} {entry : String × Nat}
    (member : entry ∈ levels) : entry.2 ≤ deepest levels :=
  deepest_le_iff.mp (Nat.le_refl _) entry member

end Salience

/-! ## Positions and stable sorting -/

/-- In a list without repetitions, a pair is a sublist exactly if it stands in this order. -/
theorem pair_sublist_iff_idxOf_lt {names : List String} (distinct : names.Nodup)
    {first second : String} :
    [first, second].Sublist names ↔
      second ∈ names ∧ names.idxOf first < names.idxOf second := by
  induction names with
  | nil => simp
  | cons head tail inductionHypothesis =>
      obtain ⟨absent, tailDistinct⟩ := List.nodup_cons.mp distinct
      have inTail := inductionHypothesis tailDistinct
      by_cases firstHead : first = head
      · subst firstHead
        rw [List.cons_sublist_cons, List.singleton_sublist, List.idxOf_cons_self]
        constructor
        · intro member
          have different : first ≠ second := fun same => absent (same ▸ member)
          rw [List.idxOf_cons_ne _ different]
          exact ⟨List.mem_cons_of_mem first member, Nat.succ_pos _⟩
        · intro ordered
          rcases ordered with ⟨member, later⟩
          rcases List.mem_cons.mp member with rfl | tailMember
          · rw [List.idxOf_cons_self] at later
            exact absurd later (Nat.lt_irrefl 0)
          · exact tailMember
      · have skipped : [first, second].Sublist (head :: tail) ↔ [first, second].Sublist tail := by
          constructor
          · intro sublist
            cases sublist with
            | cons _ rest => exact rest
            | cons_cons _ rest => exact absurd rfl firstHead
          · intro sublist
            exact sublist.cons head
        rw [skipped, inTail, List.idxOf_cons_ne _ (Ne.symm firstHead)]
        by_cases secondHead : second = head
        · subst secondHead
          simp [absent]
        · rw [List.idxOf_cons_ne _ (Ne.symm secondHead), List.mem_cons]
          simp [secondHead]

theorem idxOf_lt_of_pairwise {names : List String} (distinct : names.Nodup)
    {relation : String → String → Prop} (sorted : names.Pairwise relation)
    {first second : String} (member : first ∈ names) (different : first ≠ second)
    (unrelated : ¬ relation second first) :
    names.idxOf first < names.idxOf second := by
  rcases Nat.lt_trichotomy (names.idxOf first) (names.idxOf second) with before | same | behind
  · exact before
  · exact absurd ((List.idxOf_inj member).mp same) different
  · have pair := (pair_sublist_iff_idxOf_lt distinct).mpr ⟨member, behind⟩
    exact absurd (List.pairwise_iff_forall_sublist.mp sorted pair) unrelated

/-- Sorting by a key keeps the order of names with the same key. -/
theorem pairwise_mergeSort_key {names : List String} (distinct : names.Nodup)
    (key : String → Nat) :
    (names.mergeSort fun first second => decide (key first ≤ key second)).Pairwise
      fun first second => key first < key second ∨
        key first = key second ∧ names.idxOf first < names.idxOf second := by
  let precedes : String → String → Bool := fun first second => decide (key first ≤ key second)
  have transitive : ∀ first second third : String,
      precedes first second → precedes second third → precedes first third := by
    simp only [precedes, decide_eq_true_eq]
    omega
  have total : ∀ first second : String, precedes first second || precedes second first := by
    simp only [precedes, Bool.or_eq_true, decide_eq_true_eq]
    omega
  have permuted : (names.mergeSort precedes).Perm names := List.mergeSort_perm names precedes
  have sortedDistinct : (names.mergeSort precedes).Nodup := permuted.nodup_iff.mpr distinct
  have sorted := List.pairwise_mergeSort transitive total names
  rw [List.pairwise_iff_forall_sublist]
  intro first second pair
  have ordered : key first ≤ key second := by
    simpa [precedes] using List.pairwise_iff_forall_sublist.mp sorted pair
  obtain ⟨_, position⟩ := (pair_sublist_iff_idxOf_lt sortedDistinct).mp pair
  have firstMember : first ∈ names := permuted.subset (pair.subset (by simp))
  have secondMember : second ∈ names := permuted.subset (pair.subset (by simp))
  rcases Nat.lt_or_eq_of_le ordered with lower | equal
  · exact Or.inl lower
  · refine Or.inr ⟨equal, ?_⟩
    by_contra notBefore
    -- Stability would have kept the pair the other way round, as it stood before.
    have different : names.idxOf second ≠ names.idxOf first := by
      intro same
      have equalNames := (List.idxOf_inj secondMember).mp same
      rw [equalNames] at position
      exact Nat.lt_irrefl _ position
    have original : [second, first].Sublist names :=
      (pair_sublist_iff_idxOf_lt distinct).mpr ⟨firstMember, by omega⟩
    have kept : [second, first].Sublist (names.mergeSort precedes) :=
      List.pair_sublist_mergeSort transitive total (by simp [precedes, equal]) original
    obtain ⟨_, reversed⟩ := (pair_sublist_iff_idxOf_lt sortedDistinct).mp kept
    omega

/-! ## Rules in their turn -/

namespace Model

variable {declarations : Declarations} {model : Model} {base : Int} {schedule : Schedule}

/-- One rule has its turn before another: its level is lower, or the levels are equal and it is
declared first. -/
def TurnBefore (model : Model) (schedule : Schedule) (first second : String) : Prop :=
  ∃ firstLevel secondLevel,
    schedule.level? first = some firstLevel ∧ schedule.level? second = some secondLevel ∧
      (firstLevel < secondLevel ∨
        firstLevel = secondLevel ∧
          model.ruleNames.idxOf first < model.ruleNames.idxOf second)

theorem deepest_le_length (built : declarations.build = .ok model)
    (compiled : model.compile base = .ok schedule) :
    Salience.deepest schedule.levels ≤ model.rules.length := by
  rw [Salience.deepest_le_iff]
  intro entry member
  have inPeel := (levels_perm_of_compile built compiled).subset member
  have bounds := Graph.level_bounds_of_mem_peel inPeel
  rw [length_graph] at bounds
  omega

theorem salience_eq (built : declarations.build = .ok model)
    (compiled : model.compile base = .ok schedule)
    (unsaturated : Salience.Unsaturated base (Salience.deepest schedule.levels))
    {name : String} {level : Nat} (found : schedule.level? name = some level) :
    Salience.get base schedule.levels name =
      base + Salience.deepest schedule.levels - level := by
  have entry := (level?_eq_some_iff built compiled).mp found
  have shallow : level ≤ Salience.deepest schedule.levels := Salience.level_le_deepest entry
  rw [salience_of_level? found]
  exact Salience.score_eq unsaturated shallow

theorem exists_salience_of_mem_rules (built : declarations.build = .ok model)
    (compiled : model.compile base = .ok schedule)
    (unsaturated : Salience.Unsaturated base (Salience.deepest schedule.levels))
    {scheduled : ScheduledRule} (member : scheduled ∈ schedule.rules) :
    ∃ level, schedule.level? scheduled.name = some level ∧
      scheduled.salience = base + Salience.deepest schedule.levels - level := by
  rw [(levels_and_rules_of_compile compiled).2] at member
  obtain ⟨rule, inModel, rfl⟩ := List.mem_map.mp member
  obtain ⟨level, found⟩ := exists_level built compiled (List.mem_map_of_mem inModel)
  exact ⟨level, found, salience_eq built compiled unsaturated found⟩

/-- Without saturation, firing by salience is sorting by level. -/
theorem firingOrder_eq_mergeSort (built : declarations.build = .ok model)
    (compiled : model.compile base = .ok schedule)
    (unsaturated : Salience.Unsaturated base (Salience.deepest schedule.levels)) :
    schedule.firingOrder =
      model.ruleNames.mergeSort fun first second =>
        decide ((schedule.level? first).getD 0 ≤ (schedule.level? second).getD 0) := by
  rw [Schedule.firingOrder, ← scheduledNames_of_compile compiled]
  apply List.map_mergeSort
  intro first firstMember second secondMember
  obtain ⟨firstLevel, firstFound, firstSalience⟩ :=
    exists_salience_of_mem_rules built compiled unsaturated firstMember
  obtain ⟨secondLevel, secondFound, secondSalience⟩ :=
    exists_salience_of_mem_rules built compiled unsaturated secondMember
  rw [firstFound, secondFound, firstSalience, secondSalience, Option.getD_some, Option.getD_some,
    decide_eq_decide]
  omega

theorem firingOrder_perm (compiled : model.compile base = .ok schedule) :
    schedule.firingOrder.Perm model.ruleNames := by
  rw [Schedule.firingOrder, ← scheduledNames_of_compile compiled]
  exact (List.mergeSort_perm schedule.rules _).map ScheduledRule.name

theorem firingOrder_pairwise (built : declarations.build = .ok model)
    (compiled : model.compile base = .ok schedule)
    (unsaturated : Salience.Unsaturated base (Salience.deepest schedule.levels)) :
    schedule.firingOrder.Pairwise (model.TurnBefore schedule) := by
  have sorted := pairwise_mergeSort_key (nodup_ruleNames_of_build built)
    fun name => (schedule.level? name).getD 0
  rw [← firingOrder_eq_mergeSort built compiled unsaturated] at sorted
  refine sorted.imp_of_mem ?_
  intro first second firstMember secondMember turn
  have inModel := (firingOrder_perm compiled).subset
  obtain ⟨firstLevel, firstFound⟩ := exists_level built compiled (inModel firstMember)
  obtain ⟨secondLevel, secondFound⟩ := exists_level built compiled (inModel secondMember)
  rw [firstFound, secondFound] at turn
  exact ⟨firstLevel, secondLevel, firstFound, secondFound, turn⟩

/-- Rules fire once each, every rule behind those that it refers to, by rising level and in the
order of declaration on the same level. Base, number of rules and the sum of base and deepest level
are signed words: the first two by what a machine can hold, the third by assumption. -/
theorem firingOrder_by_level (built : declarations.build = .ok model)
    (compiled : model.compile base = .ok schedule) (word : Salience.least ≤ base)
    (addressable : (model.rules.length : Int) ≤ Salience.greatest)
    (sum : base + Salience.deepest schedule.levels ≤ Salience.greatest) :
    schedule.firingOrder.Perm model.ruleNames ∧
      (∀ rule ∈ model.rules, ∀ name ∈ dependencies rule.referenceText,
        name ∈ model.ruleNames →
          schedule.firingOrder.idxOf name < schedule.firingOrder.idxOf rule.name) ∧
      schedule.firingOrder.Pairwise (model.TurnBefore schedule) := by
  have bounded := deepest_le_length built compiled
  have unsaturated : Salience.Unsaturated base (Salience.deepest schedule.levels) :=
    ⟨word, by omega, sum⟩
  have permuted := firingOrder_perm compiled
  have sorted := firingOrder_pairwise built compiled unsaturated
  refine ⟨permuted, ?_, sorted⟩
  intro rule inModel name mentioned isRule
  have distinct := permuted.nodup_iff.mpr (nodup_ruleNames_of_build built)
  have waits : model.Awaits rule.name name := ⟨rule, inModel, rfl, mentioned, isRule⟩
  obtain ⟨level, found⟩ := exists_level built compiled (List.mem_map_of_mem inModel)
  obtain ⟨lower, lowerFound, below⟩ := exists_lower_level built compiled found waits
  apply idxOf_lt_of_pairwise distinct sorted (permuted.symm.subset isRule)
  · intro same
    rw [same, found] at lowerFound
    cases lowerFound
    exact Nat.lt_irrefl _ below
  · intro reversed
    rcases reversed with ⟨ruleLevel, nameLevel, ruleFound, nameFound, turn⟩
    rw [found] at ruleFound
    rw [lowerFound] at nameFound
    cases ruleFound
    cases nameFound
    omega

theorem firingOrder_by_level_price :
    ∃ schedule, priceModel.compile 1000 = .ok schedule ∧
      schedule.firingOrder.Perm ["price", "rate", "fee"] ∧
      schedule.firingOrder.idxOf "rate" < schedule.firingOrder.idxOf "price" ∧
      schedule.firingOrder.Pairwise (priceModel.TurnBefore schedule) := by
  obtain ⟨schedule, compiled, levels⟩ := exists_compile_priceModel
  have sum : (1000 : Int) + Salience.deepest schedule.levels ≤ Salience.greatest := by
    rw [levels]
    decide
  obtain ⟨permuted, behind, sorted⟩ :=
    firingOrder_by_level build_priceSheet compiled (by decide) (by decide) sum
  have mentioned : dependencies (Rule.plain "price" (.string "#rate + #fee")).referenceText =
      ["rate", "fee"] := by decide +kernel
  refine ⟨schedule, compiled, permuted, ?_, sorted⟩
  exact behind _ List.mem_cons_self "rate" (by simp [mentioned]) (by decide)

end Model

end FeatureRules
