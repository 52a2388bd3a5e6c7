import FeatureRules.Proofs.Declarations.Building
import FeatureRules.Proofs.FiringOrder
import FeatureRules.Proofs.Holders
import FeatureRules.Proofs.Lowering

/-!
# A rule that nobody refers to

A rule can be added to a model without effect on the others as long as none of them refers to it.
They keep their levels and their lowered forms, their saliences rise by the same amount, and they
fire in the same order.
-/

namespace FeatureRules

/-! ## Models with one more rule -/

/-- Two models that differ in one rule, which stands anywhere among the rules of the second. -/
structure Model.Adds (first second : Model) (added : Rule) : Prop where
  rules : ∃ front back,
    first.rules = front ++ back ∧ second.rules = front ++ added :: back
  features : second.features = first.features
  parameters : second.parameters = first.parameters

namespace Declarations

variable {declarations : Declarations} {front back : List (String × Json)} {name : String}
  {body : Json}

theorem slice?_of_not_array (name : String) (plain : ∀ items, body ≠ .array items) :
    slice? (name, body) = none := by
  cases body with
  | array items => exact absurd rfl (plain items)
  | _ => rfl

theorem slices_insert
    (split : declarations.rules = front ++ back) (plain : slice? (name, body) = none) :
    { declarations with rules := front ++ (name, body) :: back }.slices = declarations.slices := by
  simp [slices, split, plain]

theorem listedRules_insert
    (split : declarations.rules = front ++ back) (plain : slice? (name, body) = none) :
    ∃ earlier later,
      declarations.listedRules = earlier ++ later ∧
        { declarations with rules := front ++ (name, body) :: back }.listedRules =
          earlier ++ Rule.ofJson name body :: later := by
  simp only [listedRules, slices_insert split plain]
  simp only [plainBodies, split, List.filter_append, List.map_append, List.append_assoc,
    List.filter_cons, plain, Option.isNone_none, if_true, List.map_cons, List.cons_append]
  exact ⟨_, _, rfl, rfl⟩

/-- A body that is no list adds one rule to the model and leaves the features as they are. -/
theorem adds_of_build
    {first second : Model} (split : declarations.rules = front ++ back)
    (plain : ∀ items, body ≠ .array items) (firstBuilt : declarations.build = .ok first)
    (secondBuilt :
      { declarations with rules := front ++ (name, body) :: back }.build = .ok second) :
    ∃ added, added.name = name ∧ first.Adds second added := by
  have noSlice := slice?_of_not_array name plain
  obtain ⟨earlier, later, firstListed, secondListed⟩ := listedRules_insert split noSlice
  rw [← rules_of_build secondBuilt] at secondListed
  rw [← rules_of_build firstBuilt] at firstListed
  obtain ⟨ahead, rest, secondRules, rfl, restListed⟩ := List.map_eq_append_iff.mp secondListed
  obtain ⟨added, behind, rfl, read, rfl⟩ := List.map_eq_cons_iff.mp restListed
  have firstRules : first.rules = ahead ++ behind := by
    apply map_ok_injective
    rw [firstListed, List.map_append]
  refine ⟨added, Rule.name_of_ofJson read.symm, ⟨ahead, behind, firstRules, secondRules⟩, ?_, ?_⟩
  · obtain ⟨_, sliceRules, _, sound, _, rfl⟩ := build_eq_ok_iff_claimed.mp firstBuilt
    obtain ⟨_, otherRules, _, otherSound, _, rfl⟩ := build_eq_ok_iff_claimed.mp secondBuilt
    rw [slices_insert split noSlice, sound] at otherSound
    rw [assemble, assemble, map_ok_injective otherSound]
  · obtain ⟨_, _, _, _, _, rfl⟩ := build_eq_ok_iff_claimed.mp firstBuilt
    obtain ⟨_, _, _, _, _, rfl⟩ := build_eq_ok_iff_claimed.mp secondBuilt
    rfl

end Declarations

namespace Model.Adds

variable {first second : Model} {added : Rule}

theorem readsLike (adds : first.Adds second added) : first.ReadsLike second where
  feature? := by
    intro name
    rw [Model.feature?, Model.feature?, adds.features]
  parameter? := by
    intro name
    rw [Model.parameter?, Model.parameter?, adds.parameters]

theorem mem_rules_iff (adds : first.Adds second added) {rule : Rule} :
    rule ∈ second.rules ↔ rule = added ∨ rule ∈ first.rules := by
  obtain ⟨front, back, firstRules, secondRules⟩ := adds.rules
  rw [firstRules, secondRules]
  simp only [List.mem_append, List.mem_cons]
  tauto

theorem mem_ruleNames_iff (adds : first.Adds second added) {name : String} :
    name ∈ second.ruleNames ↔ name = added.name ∨ name ∈ first.ruleNames := by
  simp only [ruleNames, List.mem_map, adds.mem_rules_iff]
  constructor
  · rintro ⟨rule, rfl | inFirst, rfl⟩
    · exact Or.inl rfl
    · exact Or.inr ⟨rule, inFirst, rfl⟩
  · rintro (rfl | ⟨rule, inFirst, rfl⟩)
    · exact ⟨added, Or.inl rfl, rfl⟩
    · exact ⟨rule, Or.inr inFirst, rfl⟩

theorem not_mem_ruleNames
    (adds : first.Adds second added) (distinct : second.ruleNames.Nodup) :
    added.name ∉ first.ruleNames := by
  obtain ⟨front, back, firstRules, secondRules⟩ := adds.rules
  rw [ruleNames, secondRules, List.map_append, List.map_cons, List.nodup_middle] at distinct
  rw [ruleNames, firstRules, List.map_append]
  exact (List.nodup_cons.mp distinct).1

theorem erase_ruleNames
    (adds : first.Adds second added) (distinct : second.ruleNames.Nodup) :
    second.ruleNames.erase added.name = first.ruleNames := by
  have fresh := adds.not_mem_ruleNames distinct
  obtain ⟨front, back, firstRules, secondRules⟩ := adds.rules
  rw [ruleNames, firstRules, List.map_append, List.mem_append, not_or] at fresh
  rw [ruleNames, ruleNames, firstRules, secondRules, List.map_append, List.map_append,
    List.map_cons, List.erase_append_right _ fresh.1, List.erase_cons_head]

/-! ## Waiting -/

theorem awaits_iff
    (adds : first.Adds second added)
    (unreferenced : ∀ rule ∈ first.rules, added.name ∉ rule.dependencies)
    {source target : String} (different : source ≠ added.name) :
    second.Awaits source target ↔ first.Awaits source target := by
  constructor
  · rintro ⟨rule, inSecond, rfl, mentioned, isRule⟩
    have inFirst : rule ∈ first.rules := by
      rcases adds.mem_rules_iff.mp inSecond with rfl | inFirst
      · exact absurd rfl different
      · exact inFirst
    have targetDifferent : target ≠ added.name := by
      rintro rfl
      exact unreferenced rule inFirst mentioned
    have targetInFirst := (adds.mem_ruleNames_iff.mp isRule).resolve_left targetDifferent
    exact ⟨rule, inFirst, rfl, mentioned, targetInFirst⟩
  · rintro ⟨rule, inFirst, named, mentioned, isRule⟩
    exact
      ⟨rule, adds.mem_rules_iff.mpr (Or.inr inFirst), named, mentioned,
        adds.mem_ruleNames_iff.mpr (Or.inr isRule)⟩

/-- Chains that start at another rule never reach the added one. -/
theorem isChain_awaits_iff
    (adds : first.Adds second added)
    (unreferenced : ∀ rule ∈ first.rules, added.name ∉ rule.dependencies)
    {source : String} (different : source ≠ added.name) (rest : List String) :
    List.IsChain second.Awaits (source :: rest) ↔ List.IsChain first.Awaits (source :: rest) := by
  induction rest generalizing source with
  | nil => simp
  | cons target rest inductionHypothesis =>
      rw [List.isChain_cons_cons, List.isChain_cons_cons, adds.awaits_iff unreferenced different]
      apply and_congr_right
      rintro ⟨rule, inFirst, _, mentioned, _⟩
      apply inductionHypothesis
      rintro rfl
      exact unreferenced rule inFirst mentioned

end Model.Adds

theorem Model.TurnBefore.asymm
    {model : Model} {schedule : Schedule} {name other : String}
    (turn : model.TurnBefore schedule name other) : ¬ model.TurnBefore schedule other name := by
  obtain ⟨level, otherLevel, found, otherFound, order⟩ := turn
  rintro ⟨otherLevel', level', otherFound', found', reversed⟩
  rw [found] at found'
  rw [otherFound] at otherFound'
  cases found'
  cases otherFound'
  omega

/-! ## Levels -/

/-- A model and the same model with a rule that no rule of it refers to, each with its schedule. -/
structure AddedApart
    (declarations extended : Declarations) (first second : Model) (added : Rule) (base : Int)
    (before after : Schedule) : Prop where
  firstBuilt : declarations.build = .ok first
  secondBuilt : extended.build = .ok second
  adds : first.Adds second added
  unreferenced : ∀ rule ∈ first.rules, added.name ∉ rule.dependencies
  firstCompiled : first.compile base = .ok before
  secondCompiled : second.compile base = .ok after

namespace AddedApart

open Model

variable {declarations extended : Declarations} {first second : Model} {added : Rule} {base : Int}
  {before after : Schedule}

theorem secondDistinct
    (apart : AddedApart declarations extended first second added base before after) :
    second.ruleNames.Nodup :=
  nodup_ruleNames_of_build apart.secondBuilt

theorem ne_added
    (apart : AddedApart declarations extended first second added base before after)
    {name : String} (isRule : name ∈ first.ruleNames) : name ≠ added.name := by
  rintro rfl
  exact apart.adds.not_mem_ruleNames apart.secondDistinct isRule

theorem mem_second
    (apart : AddedApart declarations extended first second added base before after)
    {name : String} (isRule : name ∈ first.ruleNames) : name ∈ second.ruleNames :=
  apart.adds.mem_ruleNames_iff.mpr (Or.inr isRule)

theorem level?_eq
    (apart : AddedApart declarations extended first second added base before after)
    {name : String} (isRule : name ∈ first.ruleNames) :
    after.level? name = before.level? name := by
  have sameChains :
      Graph.chainLengths second.Awaits name = Graph.chainLengths first.Awaits name := by
    simp only [Graph.chainLengths,
      apart.adds.isChain_awaits_iff apart.unreferenced (apart.ne_added isRule)]
  exact
    level?_eq_of_chainLengths_eq apart.secondBuilt apart.secondCompiled apart.firstBuilt
      apart.firstCompiled (apart.mem_second isRule) isRule sameChains

theorem deepest_le
    (apart : AddedApart declarations extended first second added base before after) :
    Salience.deepest before.levels ≤ Salience.deepest after.levels := by
  rw [Salience.deepest_le_iff]
  rintro ⟨name, level⟩ entry
  have isRule : name ∈ first.ruleNames :=
    (levelNames_perm apart.firstBuilt apart.firstCompiled).subset (List.mem_map_of_mem entry)
  have found := (level?_eq_some_iff apart.firstBuilt apart.firstCompiled).mpr entry
  rw [← apart.level?_eq isRule] at found
  exact
    Salience.level_le_deepest
      ((level?_eq_some_iff apart.secondBuilt apart.secondCompiled).mp found)

/-! ## Saliences and firing -/

theorem salience_eq_add
    (apart : AddedApart declarations extended first second added base before after)
    (unsaturatedBefore : Salience.Unsaturated base (Salience.deepest before.levels))
    (unsaturatedAfter : Salience.Unsaturated base (Salience.deepest after.levels))
    {name : String} (isRule : name ∈ first.ruleNames) :
    Salience.get base after.levels name =
      Salience.get base before.levels name +
        (Salience.deepest after.levels - Salience.deepest before.levels) := by
  obtain ⟨level, found⟩ := exists_level apart.firstBuilt apart.firstCompiled isRule
  have foundAfter := (apart.level?_eq isRule).trans found
  rw [salience_eq apart.firstBuilt apart.firstCompiled unsaturatedBefore found,
    salience_eq apart.secondBuilt apart.secondCompiled unsaturatedAfter foundAfter]
  omega

theorem rule?_eq
    (apart : AddedApart declarations extended first second added base before after)
    (unsaturatedBefore : Salience.Unsaturated base (Salience.deepest before.levels))
    (unsaturatedAfter : Salience.Unsaturated base (Salience.deepest after.levels))
    {scheduled : ScheduledRule} (member : scheduled ∈ before.rules) :
    after.rule? scheduled.name =
      some { scheduled with
        salience :=
          scheduled.salience +
            (Salience.deepest after.levels - Salience.deepest before.levels) } := by
  rw [(levels_and_rules_of_compile apart.firstCompiled).2] at member
  obtain ⟨rule, inFirst, rfl⟩ := List.mem_map.mp member
  have inSecond := apart.adds.mem_rules_iff.mpr (Or.inr inFirst)
  have found : after.rule? rule.name = some (second.schedule base after.levels rule) :=
    rule?_of_compile apart.secondBuilt apart.secondCompiled inSecond
  have raised :=
    apart.salience_eq_add unsaturatedBefore unsaturatedAfter (List.mem_map_of_mem inFirst)
  rw [apart.adds.readsLike.schedule_eq base before.levels after.levels, raised] at found
  exact found

theorem turnBefore_of_turnBefore
    (apart : AddedApart declarations extended first second added base before after)
    {name other : String} (isRule : name ∈ first.ruleNames) (otherIsRule : other ∈ first.ruleNames)
    (turn : second.TurnBefore after name other) :
    first.TurnBefore before name other := by
  obtain ⟨level, otherLevel, found, otherFound, order⟩ := turn
  rw [apart.level?_eq isRule] at found
  rw [apart.level?_eq otherIsRule] at otherFound
  refine ⟨level, otherLevel, found, otherFound, order.imp_right ?_⟩
  rintro ⟨equal, declaredFirst⟩
  refine ⟨equal, ?_⟩
  have pair : [name, other].Sublist second.ruleNames :=
    (pair_sublist_iff_idxOf_lt apart.secondDistinct).mpr
      ⟨apart.mem_second otherIsRule, declaredFirst⟩
  have absent : added.name ∉ [name, other] := by
    simp [(apart.ne_added isRule).symm, (apart.ne_added otherIsRule).symm]
  have kept := pair.erase added.name
  rw [List.erase_of_not_mem absent, apart.adds.erase_ruleNames apart.secondDistinct] at kept
  exact ((pair_sublist_iff_idxOf_lt (nodup_ruleNames_of_build apart.firstBuilt)).mp kept).2

theorem erase_firingOrder
    (apart : AddedApart declarations extended first second added base before after)
    (unsaturatedBefore : Salience.Unsaturated base (Salience.deepest before.levels))
    (unsaturatedAfter : Salience.Unsaturated base (Salience.deepest after.levels)) :
    after.firingOrder.erase added.name = before.firingOrder := by
  have permuted : (after.firingOrder.erase added.name).Perm first.ruleNames := by
    rw [← apart.adds.erase_ruleNames apart.secondDistinct]
    exact (firingOrder_perm apart.secondCompiled).erase added.name
  have sorted :
      (after.firingOrder.erase added.name).Pairwise (first.TurnBefore before) := by
    have inSecond :=
      (firingOrder_pairwise apart.secondBuilt apart.secondCompiled unsaturatedAfter).sublist
        (List.erase_sublist (a := added.name))
    apply inSecond.imp_of_mem
    intro name other member otherMember
    exact apart.turnBefore_of_turnBefore (permuted.subset member) (permuted.subset otherMember)
  -- The order of turns leaves only one way to line up the same names.
  apply List.Perm.eq_of_pairwise _ sorted
    (firingOrder_pairwise apart.firstBuilt apart.firstCompiled unsaturatedBefore)
    (permuted.trans (firingOrder_perm apart.firstCompiled).symm)
  intro name other _ _ turn reversed
  exact absurd reversed turn.asymm

end AddedApart

namespace Declarations

/-- A rule that no other rule refers to can be declared anywhere. The others keep their levels and
all else but their saliences, which rise by the same amount, and they fire in the same order. Base
and number of rules are signed words by what a machine can hold. -/
theorem added_rule_conservative
    {declarations : Declarations} {front back : List (String × Json)}
    (split : declarations.rules = front ++ back) {name : String} {body : Json}
    (plain : ∀ items, body ≠ .array items) {first second : Model}
    (firstBuilt : declarations.build = .ok first)
    (secondBuilt :
      { declarations with rules := front ++ (name, body) :: back }.build = .ok second)
    (unreferenced : ∀ rule ∈ first.rules, name ∉ dependencies rule.referenceText)
    {base : Int} {before after : Schedule} (firstCompiled : first.compile base = .ok before)
    (secondCompiled : second.compile base = .ok after) (word : Salience.least ≤ base)
    (addressable : (second.rules.length : Int) ≤ Salience.greatest)
    (sum :
      base + max (Salience.deepest before.levels) (Salience.deepest after.levels) ≤
        Salience.greatest) :
    (∀ rule ∈ first.rules, after.level? rule.name = before.level? rule.name) ∧
      (∃ rise : Int, 0 ≤ rise ∧
        ∀ rule ∈ before.rules,
          after.rule? rule.name = some { rule with salience := rule.salience + rise }) ∧
      after.firingOrder.erase name = before.firingOrder := by
  obtain ⟨added, rfl, adds⟩ := adds_of_build split plain firstBuilt secondBuilt
  have apart :
      AddedApart declarations { declarations with rules := front ++ (added.name, body) :: back }
        first second added base before after :=
    ⟨firstBuilt, secondBuilt, adds, unreferenced, firstCompiled, secondCompiled⟩
  have deeper := apart.deepest_le
  have bounded := Model.deepest_le_length secondBuilt secondCompiled
  have unsaturatedBefore : Salience.Unsaturated base (Salience.deepest before.levels) :=
    ⟨word, by omega, by omega⟩
  have unsaturatedAfter : Salience.Unsaturated base (Salience.deepest after.levels) :=
    ⟨word, by omega, by omega⟩
  have rises :
      (0 : Int) ≤ Salience.deepest after.levels - Salience.deepest before.levels := by
    omega
  refine ⟨?_, ⟨_, rises, ?_⟩, apart.erase_firingOrder unsaturatedBefore unsaturatedAfter⟩
  · intro rule inFirst
    exact apart.level?_eq (List.mem_map_of_mem inFirst)
  · intro rule scheduled
    exact apart.rule?_eq unsaturatedBefore unsaturatedAfter scheduled

/-- The sample of prices with a total, which stands above all other rules. -/
def totalModel : Model :=
  { Model.priceModel with
    rules :=
      [Rule.plain "price" (.string "#rate + #fee"), Rule.plain "total" (.string "#price * 2"),
        Rule.plain "rate" (.string "2"), (Rule.plain "fee" (.string "1")).inContext] }

theorem added_rule_conservative_total :
    ∃ before after,
      Model.priceModel.compile 1000 = .ok before ∧ totalModel.compile 1000 = .ok after ∧
        after.level? "total" = some 2 ∧ after.level? "price" = before.level? "price" ∧
        after.firingOrder.erase "total" = before.firingOrder := by
  have levels :
      totalModel.levels = .ok [("rate", 0), ("fee", 0), ("price", 1), ("total", 2)] := by
    decide +kernel
  obtain ⟨before, beforeCompiled, beforeLevels⟩ := Model.exists_compile_priceModel
  obtain ⟨after, afterCompiled, afterLevels⟩ := Model.exists_compile_of_levels_ok 1000 levels
  have unreferenced :
      ∀ rule ∈ Model.priceModel.rules, "total" ∉ dependencies rule.referenceText := by
    decide +kernel
  have sum :
      (1000 : Int) + max (Salience.deepest before.levels) (Salience.deepest after.levels) ≤
        Salience.greatest := by
    rw [beforeLevels, afterLevels]
    decide
  let price : List (String × Json) := [("price", .string "#rate + #fee")]
  let others := Model.priceSheet.rules.tail
  have split : Model.priceSheet.rules = price ++ others := rfl
  have built :
      { Model.priceSheet with
          rules := price ++ ("total", Json.string "#price * 2") :: others }.build =
        .ok totalModel :=
    rfl
  obtain ⟨sameLevels, _, sameOrder⟩ :=
    added_rule_conservative split (by simp) Model.build_priceSheet built unreferenced
      beforeCompiled afterCompiled (by decide) (by decide) sum
  refine ⟨before, after, beforeCompiled, afterCompiled, ?_, ?_, sameOrder⟩
  · rw [Schedule.level?, afterLevels]
    rfl
  · exact sameLevels _ List.mem_cons_self

end Declarations

end FeatureRules
