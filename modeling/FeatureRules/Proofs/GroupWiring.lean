import FeatureRules.Proofs.BlockLines
import FeatureRules.Proofs.Declarations.Features
import FeatureRules.Proofs.Reference.Joining

/-!
# Wiring of groups

The rules of a group, the calls in them and the blocks around them name the same keys and holders.
The entries of a member and its value are there before the member is checked, and all members are
checked before the group.
-/

namespace FeatureRules

/-! ## Texts of calls -/

theorem Holder.read_eq (holder : Holder) (getter : Getter) (key : String) :
    holder.read getter key =
      holder.name ++ ("." ++ (getter.name ++ ("(\"" ++ (key ++ "\")")))) := by
  simp only [Holder.read, Getter.call, String.append_assoc]

theorem Reference.membershipTest_eq (name : String) :
    membershipTest name =
      "processor.Contains(ctx.GetSlice(\"" ++ name ++ "_entries\"), ctx.Get(\"" ++ name ++
        "_value\"))" := by
  have opening : "processor.Contains(ctx.GetSlice(\"" =
      "processor.Contains(" ++ ("ctx" ++ ("." ++ ("GetSlice" ++ "(\""))) := by decide +kernel
  have middle : "_entries\"), ctx.Get(\"" =
      "_entries" ++ ("\")" ++ (", " ++ ("ctx" ++ ("." ++ ("Get" ++ "(\""))))) := by decide +kernel
  have closing : "_value\"))" = "_value" ++ ("\")" ++ ")") := by decide +kernel
  have parts : membershipTest name =
      "processor.Contains(" ++ Holder.context.read .getSlice (name ++ "_entries") ++ ", " ++
        Holder.context.read .get (name ++ "_value") ++ ")" := rfl
  rw [parts, opening, middle, closing, Holder.read_eq, Holder.read_eq]
  simp only [String.append_assoc, Holder.name, Getter.name]

theorem Model.access_of_feature?
    {model : Model} {name : String} {feature : Feature}
    (found : model.feature? name = some feature) :
    (Reference.named .result name).access model =
      feature.holder.read (Getter.ofType feature.type) name := by
  simp [Reference.access, Reference.named, resolve, found, Reference.rootGetter,
    Reference.pathCalls]

namespace Group

/-! ## Rules of a group -/

theorem valueRule_mem_rules
    {group : Group} {index : Nat} {member : Member}
    (isMember : group.members[index]? = some member) :
    group.valueRule index member ∈ group.rules := by
  apply List.mem_append_left
  exact List.mem_flatMap.mpr
    ⟨(member, index), List.mk_mem_zipIdx_iff_getElem?.mpr isMember, List.mem_cons_self⟩

theorem checkRule_mem_rules
    {group : Group} {index : Nat} {member : Member}
    (isMember : group.members[index]? = some member) :
    group.checkRule index ∈ group.rules := by
  apply List.mem_append_left
  exact List.mem_flatMap.mpr
    ⟨(member, index), List.mk_mem_zipIdx_iff_getElem?.mpr isMember,
      List.mem_cons_of_mem _ List.mem_cons_self⟩

theorem rule_mem_rules (group : Group) : group.rule ∈ group.rules :=
  List.mem_append_right _ List.mem_cons_self

theorem neutral_and : Neutral " && " :=
  neutral_of_separates (by decide)

variable {group : Group}

theorem dependencies_checkRule
    (words : ∀ c ∈ group.name.toList, isWordChar c = true) (index : Nat) :
    (group.checkRule index).dependencies = [partName group.name index ++ "_value"] := by
  have text :
      (group.checkRule index).referenceText =
        (Reference.named .membership (partName group.name index)).source := by
    rw [Reference.source_named]
    rfl
  rw [Rule.dependencies, text,
    dependencies_source (Reference.wellFormed_named (isWord_partName words index))]
  rfl

end Group

namespace Declarations

variable {declarations : Declarations} {model : Model}

theorem mem_rules_of_group
    (built : declarations.build = .ok model) {group : Group}
    (declared : group ∈ declarations.groups) {rule : Rule} (ofGroup : rule ∈ group.rules) :
    rule ∈ model.rules := by
  apply mem_rules_of_listed built
  apply List.mem_append_left
  apply List.mem_append_right
  exact List.mem_map_of_mem (List.mem_flatMap.mpr ⟨group, declared, ofGroup⟩)

end Declarations

/-! ## Entries in the setup -/

namespace Schedule

end Schedule

namespace Model

variable {declarations : Declarations} {model : Model} {base : Int} {schedule : Schedule}

/-! ## Levels and saliences -/

variable {group : Group}

end Model

end FeatureRules
