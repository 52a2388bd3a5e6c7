import FeatureRules.Proofs.Declarations.Building

/-!
# Features of built models

Groups and slices make up features for their rules. Such a feature gives way to one that is declared
under its name. It never gives way to another one that is made up, since no two rules share a name.
-/

namespace FeatureRules

theorem Group.featureNames_sublist_ruleNames (group : Group) :
    (partNames group.name group.members.length ++ [group.name]).Sublist group.ruleNames := by
  rw [ruleNames, partNames, List.map_eq_flatMap]
  apply List.Sublist.append_right
  apply List.Sublist.flatMap_right
  intro index _
  exact List.sublist_cons_self _ _

theorem Group.map_name_features (group : Group) :
    group.features.map Feature.name =
      partNames group.name group.members.length ++ [group.name] := by
  rw [features, checkRules, List.map_append, List.map_map, List.map_map]
  rfl

namespace Declarations

variable {declarations : Declarations} {model : Model}

/-- Features that are made up have the names of rules, each of another one. -/
theorem nodup_madeNames
    {sliceRules : List Rule} (claimedOnce : declarations.claimedNames.Nodup)
    (sliceSound : declarations.slices.flatMap Slice.rules = sliceRules.map .ok) :
    ((declarations.groups.flatMap Group.features ++ sliceRules.map Rule.feature).map
      Feature.name).Nodup := by
  have ofGroups :
      ((declarations.groups.flatMap Group.features).map Feature.name).Sublist
        (declarations.groups.flatMap Group.ruleNames) := by
    rw [List.map_flatMap]
    apply List.Sublist.flatMap_right
    intro group _
    rw [group.map_name_features]
    exact group.featureNames_sublist_ruleNames
  have ofSlices :
      (sliceRules.map Rule.feature).map Feature.name =
        declarations.slices.flatMap fun slice => slice.itemNames ++ [slice.name] := by
    rw [← Slice.names_of_flatMap_rules sliceSound, List.map_map]
    rfl
  have listedOnce := declarations.claimedNames_perm_listedNames.nodup_iff.mp claimedOnce
  rw [listedNames, List.append_assoc] at listedOnce
  rw [List.map_append, ofSlices]
  exact listedOnce.of_append_right.sublist (ofGroups.append_right _)

/-- The feature of a slice and those of its items stand for their names unless others are declared. -/
theorem feature?_of_slice
    (built : declarations.build = .ok model) {slice : Slice}
    (declared : slice ∈ declarations.slices) {rule : Rule} (ofSlice : .ok rule ∈ slice.rules)
    (undeclared : ∀ feature ∈ declarations.features, feature.name ≠ rule.name) :
    model.feature? rule.name = some rule.feature := by
  obtain ⟨bodies, sliceRules, _, sliceSound, claimedOnce, rfl⟩ :=
    build_eq_ok_iff_claimed.mp built
  have enrolled : (.ok rule : Except ModelError Rule) ∈ sliceRules.map .ok := by
    rw [← sliceSound]
    exact List.mem_flatMap.mpr ⟨slice, declared, ofSlice⟩
  have made : rule ∈ sliceRules :=
    (List.mem_map_of_injective fun _ _ => Except.ok.inj).mp enrolled
  have free : declarations.features.find? (fun other => other.name == rule.name) = none := by
    rw [List.find?_eq_none]
    intro feature isDeclared
    simpa using undeclared feature isDeclared
  rw [Model.feature?, assemble, find?_foldl_declareFeature, List.find?_append, free,
    Option.none_or, find?_name_eq_some_iff (nodup_madeNames claimedOnce sliceSound)]
  exact ⟨List.mem_append_right _ (List.mem_map_of_mem made), rfl⟩

end Declarations

end FeatureRules
