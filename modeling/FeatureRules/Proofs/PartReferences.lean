import FeatureRules.Proofs.GroupWiring

/-!
# References to parts

A group refers to its checks, a check to the value of its member, and a slice to its items. All of
them do so in rule text, with the name of the whole written into it as it stands. The text refers to
what it is meant to refer to exactly if that name is made of word characters, since a reference cannot
name anything else. With any other name the whole waits for another rule, or for none.
-/

namespace FeatureRules

/-- A name that a reference can spell once something stands behind it. It may be empty. -/
def Referable (name : String) : Prop :=
  ∀ c ∈ name.toList, isWordChar c = true

instance (name : String) : Decidable (Referable name) :=
  decidable_of_iff (name.toList.all isWordChar = true) (by simp [Referable])

/-! ## Names that references can spell -/

theorem referable_of_mem_dependencies
    {text name : String} (mentioned : name ∈ dependencies text) : Referable name := by
  obtain ⟨mention, occurs, waits⟩ := mem_dependencies_iff.mp mentioned
  have wellFormed : mention.WellFormed :=
    (Fragment.canonical_split text).wellFormed (.reference mention) occurs
  have spelled := wellFormed.name.2
  cases sigil : mention.sigil with
  | parameter =>
      rw [Reference.dependency?, sigil] at waits
      cases waits
  | result =>
      rw [Reference.dependency?, sigil] at waits
      cases waits
      exact spelled
  | synonym =>
      rw [Reference.dependency?, sigil] at waits
      cases waits
      exact spelled
  | membership =>
      rw [Reference.dependency?, sigil] at waits
      cases waits
      have ending : Referable "_value" := by decide
      intro c member
      rw [String.toList_append, List.mem_append] at member
      exact member.elim (spelled c) (ending c)

theorem referable_of_partName
    {whole ending : String} {index : Nat} (spelled : Referable (partName whole index ++ ending)) :
    Referable whole := by
  intro c member
  apply spelled c
  simp [partName, member]

theorem dependencies_joinReferences_iff
    {separator : String} (neutral : Neutral separator) (whole : String) (count : Nat) :
    dependencies (joinReferences separator (partNames whole count)) = partNames whole count ↔
      count = 0 ∨ Referable whole := by
  constructor
  · intro found
    by_cases none : count = 0
    · exact Or.inl none
    · have first : partName whole 0 ∈ partNames whole count :=
        List.mem_map_of_mem (List.mem_range.mpr (Nat.pos_of_ne_zero none))
      rw [← found] at first
      have spelled := referable_of_mem_dependencies first
      rw [← String.append_empty (s := partName whole 0)] at spelled
      exact Or.inr (referable_of_partName spelled)
  · intro admissible
    apply dependencies_joinReferences neutral
    rcases admissible with rfl | referable
    · simp [partNames]
    · exact isWord_of_mem_partNames referable count

/-! ## Groups -/

namespace Group

theorem dependencies_rule_iff (group : Group) :
    group.rule.dependencies = partNames group.name group.members.length ↔
      group.members = [] ∨ Referable group.name := by
  rw [← List.length_eq_zero_iff]
  exact dependencies_joinReferences_iff neutral_and group.name group.members.length

theorem dependencies_checkRule_iff (group : Group) (index : Nat) :
    (group.checkRule index).dependencies = [partName group.name index ++ "_value"] ↔
      Referable group.name := by
  constructor
  · intro found
    have mentioned :
        partName group.name index ++ "_value" ∈ (group.checkRule index).dependencies := by
      rw [found]
      exact List.mem_cons_self
    exact referable_of_partName (referable_of_mem_dependencies mentioned)
  · intro referable
    exact dependencies_checkRule referable index

end Group

/-! ## Slices -/

namespace Slice

theorem neutral_comma : Neutral ", " :=
  neutral_of_separates (by decide)

theorem dependencies_rule_iff (slice : Slice) :
    slice.rule.dependencies = partNames slice.name slice.items.length ↔
      slice.items = [] ∨ Referable slice.name := by
  rw [← List.length_eq_zero_iff]
  exact dependencies_joinReferences_iff neutral_comma slice.name slice.items.length

end Slice

namespace Declarations

variable {declarations : Declarations} {model : Model}

theorem mem_rules_of_slice
    (built : declarations.build = .ok model) {slice : Slice}
    (declared : slice ∈ declarations.slices) :
    slice.rule ∈ model.rules := by
  apply mem_rules_of_listed built
  apply List.mem_append_right
  apply List.mem_flatMap.mpr
  exact ⟨slice, declared, List.mem_append_right _ List.mem_cons_self⟩

theorem rule?_of_build
    (built : declarations.build = .ok model) {rule : Rule} (inModel : rule ∈ model.rules) :
    model.rule? rule.name = some rule :=
  (find?_name_eq_some_iff (nodup_ruleNames_of_build built)).mpr ⟨inModel, rfl⟩

theorem itemNames_subset_ruleNames
    (built : declarations.build = .ok model) {slice : Slice}
    (declared : slice ∈ declarations.slices) :
    partNames slice.name slice.items.length ⊆ model.ruleNames := by
  intro name isItem
  rw [ruleNames_of_build built]
  apply List.mem_append_right
  exact List.mem_flatMap.mpr ⟨slice, declared, List.mem_append_left _ isItem⟩

/-- In a built model, the rule of a group refers to its checks, each check to the value of its member
and the rule of a slice to its items, in order and to nothing else, exactly if the name of the whole
is made of word characters. Wholes without parts refer to nothing. What is to be referred to is there
in any case. -/
theorem part_references_iff (built : declarations.build = .ok model) :
    (∀ group ∈ declarations.groups,
      model.rule? group.name = some group.rule ∧
        (group.rule.dependencies = partNames group.name group.members.length ↔
          group.members = [] ∨ Referable group.name) ∧
        ∀ index member, group.members[index]? = some member →
          model.rule? (partName group.name index) = some (group.checkRule index) ∧
            model.rule? (partName group.name index ++ "_value") =
              some (group.valueRule index member) ∧
            ((group.checkRule index).dependencies = [partName group.name index ++ "_value"] ↔
              Referable group.name)) ∧
      ∀ slice ∈ declarations.slices,
        model.rule? slice.name = some slice.rule ∧
          (∀ name ∈ partNames slice.name slice.items.length, name ∈ model.ruleNames) ∧
          (slice.rule.dependencies = partNames slice.name slice.items.length ↔
            slice.items = [] ∨ Referable slice.name) := by
  constructor
  · intro group declared
    have ofGroup : ∀ rule ∈ group.rules, model.rule? rule.name = some rule := by
      intro rule inGroup
      exact rule?_of_build built (mem_rules_of_group built declared inGroup)
    refine ⟨ofGroup group.rule group.rule_mem_rules, group.dependencies_rule_iff, ?_⟩
    intro index member isMember
    exact
      ⟨ofGroup (group.checkRule index) (Group.checkRule_mem_rules isMember),
        ofGroup (group.valueRule index member) (Group.valueRule_mem_rules isMember),
        group.dependencies_checkRule_iff index⟩
  · intro slice declared
    exact
      ⟨rule?_of_build built (mem_rules_of_slice built declared),
        itemNames_subset_ruleNames built declared, slice.dependencies_rule_iff⟩

theorem part_references_iff_region :
    regionSheet.build = .ok regionModel ∧
      region.rule.dependencies = ["region_0", "region_1"] ∧
      (region.checkRule 1).dependencies = ["region_1_value"] ∧
      rates.rule.dependencies = ["rates_0", "rates_1"] := by
  obtain ⟨ofGroups, ofSlices⟩ := part_references_iff build_regionSheet
  obtain ⟨_, whole, ofMember⟩ := ofGroups region List.mem_cons_self
  obtain ⟨_, _, check⟩ := ofMember 1 _ rfl
  obtain ⟨_, _, items⟩ := ofSlices rates List.mem_cons_self
  have regionReferable : Referable region.name := by decide
  have ratesReferable : Referable rates.name := by decide
  refine ⟨build_regionSheet, ?_, ?_, ?_⟩
  · exact (whole.mpr (Or.inr regionReferable)).trans (by decide +kernel)
  · exact (check.mpr regionReferable).trans (by decide +kernel)
  · exact (items.mpr (Or.inr ratesReferable)).trans (by decide +kernel)

/-! ## A group under another name -/

def taxFree : Group :=
  { name := "tax-free"
    members := [{ template := "\x7b$country\x7d", entries := .array [.string "BR"] }] }

/-- Two rules and a group whose name starts like theirs. -/
def taxSheet : Declarations :=
  { rules := [("tax", .string "0.2"), ("tax_value", .string "$price * #tax")]
    groups := [taxFree] }

def taxModel : Model :=
  { features := taxFree.features
    parameters := []
    rules :=
      [Rule.plain "tax" (.string "0.2"), Rule.plain "tax_value" (.string "$price * #tax")] ++
        taxFree.rules
    groups := [taxFree]
    slices := [] }

/-- The group waits for the tax and not for its check, which waits for the value of the tax and not
for that of its member. So the group fires before its check does. -/
theorem taxFree_misses_its_check :
    ∃ schedule,
      taxSheet.build = .ok taxModel ∧
        taxModel.rule? "tax-free" = some taxFree.rule ∧
        taxModel.rule? "tax-free_0" = some (taxFree.checkRule 0) ∧
        taxFree.rule.dependencies = ["tax"] ∧
        (taxFree.checkRule 0).dependencies = ["tax_value"] ∧
        taxModel.compile 1000 = .ok schedule ∧
        schedule.level? "tax-free" = some 1 ∧
        schedule.level? "tax-free_0" = some 2 := by
  have found :
      taxModel.levels =
        .ok [("tax", 0), ("tax_value", 1), ("tax-free_0_value", 0), ("tax-free_0", 2),
          ("tax-free", 1)] := by
    decide +kernel
  obtain ⟨schedule, compiled, levels⟩ := Model.exists_compile_of_levels_ok 1000 found
  refine
    ⟨schedule, rfl, rfl, rfl, by decide +kernel, by decide +kernel, compiled, ?_, ?_⟩
  · rw [Schedule.level?, levels]
    rfl
  · rw [Schedule.level?, levels]
    rfl

end Declarations

end FeatureRules
