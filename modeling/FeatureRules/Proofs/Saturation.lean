import FeatureRules.Proofs.BlockLines
import FeatureRules.Proofs.FiringOrder

/-!
# Saliences that reach the greatest one

Saliences count up from the base as levels fall, and they stop at the greatest signed word. Rules of
different levels can only meet there. The setup is placed above the highest salience that is in use,
so it falls in with rules only if there is no room left above them.
-/

namespace FeatureRules

namespace Salience

def InRange (salience : Int) : Prop :=
  least ≤ salience ∧ salience ≤ greatest

theorem inRange_saturate (sum : Int) : InRange (saturate sum) := by
  unfold InRange saturate least greatest
  omega

theorem inRange_get {base : Int} (word : InRange base) (levels : List (String × Nat))
    (name : String) : InRange (get base levels name) := by
  unfold get
  split
  · exact inRange_saturate _
  · exact word

/-! ## The salience of a level -/

/-- The base is the least salience that is given, so only the upper end is ever met. -/
theorem score_eq_min
    {base : Int} (word : InRange base) {deepestLevel level : Nat} (shallow : level ≤ deepestLevel)
    (fits : ((deepestLevel - level : Nat) : Int) ≤ greatest) :
    score base deepestLevel level = min greatest (base + deepestLevel - level) := by
  have distance : ((deepestLevel - level : Nat) : Int) = deepestLevel - level := by
    omega
  rcases word with ⟨lower, upper⟩
  rw [score, signed_of_le fits, saturate]
  omega

theorem deepest_eq
    {levels : List (String × Nat)} {entry : String × Nat} (member : entry ∈ levels)
    (last : ∀ other ∈ levels, other.2 ≤ entry.2) :
    deepest levels = entry.2 :=
  Nat.le_antisymm (deepest_le_iff.mpr last) (level_le_deepest member)

theorem get_of_mem
    (base : Int) {levels : List (String × Nat)} (distinct : (levels.map Prod.fst).Nodup)
    {entry : String × Nat} (member : entry ∈ levels) :
    get base levels entry.1 = score base (deepest levels) entry.2 := by
  rw [get, (lookup_eq_some_iff_mem distinct).mpr member]

/-- Saliences of a level map: counted up from the base, and cut off at the greatest salience. -/
structure Graded (base : Int) (levels : List (String × Nat)) : Prop where
  assigned :
    assign base levels =
      levels.map fun entry => (entry.1, min greatest (base + deepest levels - entry.2))
  found :
    ∀ entry ∈ levels, get base levels entry.1 = min greatest (base + deepest levels - entry.2)
  last :
    ∀ entry ∈ levels, (∀ other ∈ levels, other.2 ≤ entry.2) → get base levels entry.1 = base
  falling :
    ∀ entry ∈ levels, ∀ other ∈ levels, entry.2 ≤ other.2 →
      get base levels other.1 ≤ get base levels entry.1
  tied :
    ∀ entry ∈ levels, ∀ other ∈ levels, entry.2 ≠ other.2 →
      get base levels entry.1 = get base levels other.1 →
        get base levels entry.1 = greatest ∧ get base levels other.1 = greatest
  topOfFirst :
    ∀ entry ∈ levels, (∀ other ∈ levels, entry.2 ≤ other.2) →
      top base levels = get base levels entry.1
  topOfNone : levels = [] → top base levels = base

theorem top_eq_of_le
    {base : Int} {levels : List (String × Nat)} {entry : String × Nat} (member : entry ∈ levels)
    (highestThere : ∀ other ∈ levels,
      score base (deepest levels) other.2 ≤ score base (deepest levels) entry.2) :
    top base levels = score base (deepest levels) entry.2 := by
  have scores :
      (assign base levels).map Prod.snd =
        levels.map fun other => score base (deepest levels) other.2 := by
    rw [assign, List.map_map]
    rfl
  have nonempty : (levels.map fun other => score base (deepest levels) other.2) ≠ [] := by
    simpa using List.ne_nil_of_mem member
  have reachedAndUpper := highest_spec base nonempty
  rcases reachedAndUpper with ⟨reached, upper⟩
  rcases List.mem_map.mp reached with ⟨other, otherMember, isHighest⟩
  rw [top, scores]
  apply Int.le_antisymm
  · rw [← isHighest]
    exact highestThere other otherMember
  · exact upper _ (List.mem_map.mpr ⟨entry, member, rfl⟩)

theorem graded
    {base : Int} (word : InRange base) {levels : List (String × Nat)}
    (distinct : (levels.map Prod.fst).Nodup)
    (fits : ∀ entry ∈ levels, ((deepest levels - entry.2 : Nat) : Int) ≤ greatest) :
    Graded base levels := by
  have upper := word.2
  have scored : ∀ entry ∈ levels,
      score base (deepest levels) entry.2 = min greatest (base + deepest levels - entry.2) := by
    intro entry member
    exact score_eq_min word (level_le_deepest member) (fits entry member)
  have found : ∀ entry ∈ levels,
      get base levels entry.1 = min greatest (base + deepest levels - entry.2) := by
    intro entry member
    rw [get_of_mem base distinct member, scored entry member]
  refine
    { assigned := ?_, found := found, last := ?_, falling := ?_, tied := ?_, topOfFirst := ?_
      topOfNone := ?_ }
  · apply List.map_congr_left
    intro entry member
    rw [scored entry member]
  · intro entry member last
    rw [found entry member, deepest_eq member last]
    omega
  · intro entry member other otherMember notDeeper
    rw [found entry member, found other otherMember]
    omega
  · intro entry member other otherMember different
    rw [found entry member, found other otherMember]
    omega
  · intro entry member first
    rw [get_of_mem base distinct member]
    apply top_eq_of_le member
    intro other otherMember
    have notDeeper := first other otherMember
    rw [scored entry member, scored other otherMember]
    omega
  · rintro rfl
    rfl

end Salience

/-! ## Setup and rules -/

namespace Schedule

def setupBlocks (schedule : Schedule) : List Grl.Block :=
  schedule.defaultBlocks ++ schedule.groupBlocks

def ruleBlocks (schedule : Schedule) : List Grl.Block :=
  schedule.rules.map Grl.ruleBlock

theorem salience_of_mem_setupBlocks
    {schedule : Schedule} {setup : Grl.Block} (member : setup ∈ schedule.setupBlocks) :
    setup.salience = schedule.setupSalience := by
  rcases List.mem_append.mp member with ofDefaults | ofGroups
  · unfold defaultBlocks at ofDefaults
    split at ofDefaults
    · cases ofDefaults
    · rw [List.mem_singleton.mp ofDefaults]
      rfl
  · unfold groupBlocks at ofGroups
    split at ofGroups
    · cases ofGroups
    · rw [List.mem_singleton.mp ofGroups]
      rfl

theorem salience_le_setupSalience
    {schedule : Schedule}
    (words : ∀ rule ∈ schedule.rules, Salience.InRange rule.salience)
    {rule : ScheduledRule} (member : rule ∈ schedule.rules) :
    rule.salience ≤ schedule.setupSalience := by
  have nonempty : schedule.rules.map ScheduledRule.salience ≠ [] := by
    simpa using List.ne_nil_of_mem member
  have bounded :=
    (Salience.highest_spec Salience.standardBase nonempty).2 rule.salience
      (List.mem_map_of_mem member)
  have upper := (words rule member).2
  rw [setupSalience, Salience.saturate]
  omega

/-- The source starts with the setup, and each block starts with a header that tells its salience. No
rule is ahead of the setup, and all rules are behind it exactly if none has the greatest salience. -/
structure SetupFirst (schedule : Schedule) : Prop where
  source :
    schedule.grl =
      String.join (schedule.setupBlocks.map Grl.Block.text) ++
        String.join (schedule.ruleBlocks.map Grl.Block.text)
  headers :
    ∀ block ∈ schedule.setupBlocks ++ schedule.ruleBlocks,
      ∃ body, block.text = Grl.header block.name block.salience ++ "\n" ++ body
  setupNames :
    schedule.setupBlocks.map Grl.Block.name =
      (if schedule.defaults = [] then [] else ["DefaultValues"]) ++
        if schedule.groups = [] then [] else ["GroupEntries"]
  notBehind :
    ∀ setup ∈ schedule.setupBlocks, ∀ block ∈ schedule.ruleBlocks, block.salience ≤ setup.salience
  aheadIff :
    ∀ setup ∈ schedule.setupBlocks,
      (∀ block ∈ schedule.ruleBlocks, block.salience < setup.salience) ↔
        ∀ block ∈ schedule.ruleBlocks, block.salience ≠ Salience.greatest

theorem setupFirst_of_inRange
    {schedule : Schedule}
    (words : ∀ rule ∈ schedule.rules, Salience.InRange rule.salience) :
    schedule.SetupFirst := by
  refine
    { source := ?_
      headers := fun block _ => ⟨_, block.text_eq_header⟩
      setupNames := schedule.setupNames_eq
      notBehind := ?_
      aheadIff := ?_ }
  · rw [grl, blocks, List.map_append, String.join_append]
    rfl
  · intro setup isSetup block isRule
    rcases List.mem_map.mp isRule with ⟨rule, scheduled, rfl⟩
    rw [salience_of_mem_setupBlocks isSetup]
    exact salience_le_setupSalience words scheduled
  · intro setup isSetup
    rw [salience_of_mem_setupBlocks isSetup]
    constructor
    · intro ahead block isRule atEnd
      have room := ahead block isRule
      have limited : schedule.setupSalience ≤ Salience.greatest := (Salience.inRange_saturate _).2
      omega
    · intro free block isRule
      rcases List.mem_map.mp isRule with ⟨rule, scheduled, rfl⟩
      apply salience_lt_setupSalience _ scheduled
      intro other otherScheduled
      rcases words other otherScheduled with ⟨lower, upper⟩
      have notAtEnd : other.salience ≠ Salience.greatest :=
        free (Grl.ruleBlock other) (List.mem_map_of_mem otherScheduled)
      omega

end Schedule

namespace Model

theorem setupFirst_of_compile
    {base : Int} (word : Salience.InRange base) {model : Model} {schedule : Schedule}
    (compiled : model.compile base = .ok schedule) :
    schedule.SetupFirst := by
  apply Schedule.setupFirst_of_inRange
  intro scheduled member
  rw [(levels_and_rules_of_compile compiled).2] at member
  rcases List.mem_map.mp member with ⟨rule, _, rfl⟩
  exact Salience.inRange_get word schedule.levels rule.name

/-- From any base, saliences fall with the level from the greatest salience or from below it down to
the base, and the setup of every compiled model is above all rules or as high as there is. -/
theorem saliences_graded_and_setup_first (base : Int) (word : Salience.InRange base) :
    (∀ levels : List (String × Nat), (levels.map Prod.fst).Nodup →
        (∀ entry ∈ levels,
          ((Salience.deepest levels - entry.2 : Nat) : Int) ≤ Salience.greatest) →
        Salience.Graded base levels) ∧
      ∀ (model : Model) (schedule : Schedule), model.compile base = .ok schedule →
        schedule.SetupFirst :=
  ⟨fun _ distinct fits => Salience.graded word distinct fits,
    fun _ _ compiled => setupFirst_of_compile word compiled⟩

/-- One below the end there is room for one level more, so the two lowest levels meet. -/
theorem saliences_graded_and_setup_first_region :
    Salience.InRange (Salience.greatest - 1) ∧
      Salience.assign (Salience.greatest - 1) [("zone", 0), ("price", 1), ("region", 2)] =
        [("zone", Salience.greatest), ("price", Salience.greatest),
          ("region", Salience.greatest - 1)] ∧
      ∃ schedule, Declarations.regionModel.compile (Salience.greatest - 1) = .ok schedule ∧
        schedule.groupBlocks ≠ [] ∧
        ∀ setup ∈ schedule.groupBlocks,
          (∃ body, setup.text = Grl.header setup.name setup.salience ++ "\n" ++ body) ∧
            ∀ block ∈ schedule.ruleBlocks, block.salience ≤ setup.salience := by
  have word : Salience.InRange (Salience.greatest - 1) := by
    unfold Salience.InRange
    decide
  have found : Declarations.regionModel.levels = .ok regionLevels := by decide +kernel
  obtain ⟨schedule, compiled, _⟩ :=
    exists_compile_of_levels_ok (Salience.greatest - 1) found
  have both := saliences_graded_and_setup_first (Salience.greatest - 1) word
  have graded := both.1 [("zone", 0), ("price", 1), ("region", 2)] (by decide) (by decide)
  have setupFirst := both.2 Declarations.regionModel schedule compiled
  refine ⟨word, graded.assigned.trans (by decide), schedule, compiled, ?_, ?_⟩
  · have groups := (setup_of_compile compiled).2.1
    rw [Schedule.groupBlocks, groups]
    exact List.cons_ne_nil _ _
  · intro setup isGroupBlock
    have isSetup : setup ∈ schedule.setupBlocks := List.mem_append_right _ isGroupBlock
    exact
      ⟨setupFirst.headers setup (List.mem_append_left _ isSetup),
        setupFirst.notBehind setup isSetup⟩

end Model

end FeatureRules
