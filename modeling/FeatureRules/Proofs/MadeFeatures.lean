import FeatureRules.Proofs.Declarations.Features
import FeatureRules.Proofs.SliceWiring

/-!
# The features of a built model

Building leaves declared features and parameters as they are, repetitions among them. Behind the
features come those that groups and slices make up, one for each name that nobody has declared.
-/

namespace FeatureRules

/-! ## Features that are made up -/

def Feature.made (name : String) (type : Option ValueType) (holder : Holder) : Feature :=
  { name, type, holder, defaultValue := none }

/-- A truth value for each member, and one for the group. -/
def Group.madeFeatures (group : Group) : List Feature :=
  (partNames group.name group.members.length ++ [group.name]).map fun name =>
    .made name (some .boolean) .result

/-- A value in the context for each item, of the type that the item says, and the slice as a
result. -/
def Slice.madeFeatures (slice : Slice) : List Feature :=
  (slice.items.zipIdx.map fun entry =>
      .made (partName slice.name entry.2) entry.1.declaredType? .context) ++
    [.made slice.name (some .slice) .result]

def Declarations.madeFeatures (declarations : Declarations) : List Feature :=
  declarations.groups.flatMap Group.madeFeatures ++
    declarations.slices.flatMap Slice.madeFeatures

theorem Group.features_eq_madeFeatures (group : Group) : group.features = group.madeFeatures := by
  rw [features, checkRules, madeFeatures, partNames, List.map_append, List.map_map, List.map_map]
  rfl

theorem Slice.feature_of_itemRule
    {slice : Slice} {index : Nat} {item : Json} {rule : Rule}
    (read : slice.itemRule index item = .ok rule) :
    rule.feature = .made (partName slice.name index) item.declaredType? .context := by
  have named := name_of_itemRule read
  have kept := holder_and_type_of_itemRule read
  rw [Rule.feature, named, kept.1, kept.2]
  rfl

theorem Slice.features_of_rules
    {slice : Slice} {rules : List Rule} (sound : slice.rules = rules.map .ok) :
    rules.map Rule.feature = slice.madeFeatures :=
  map_of_rules (fun _ _ _ read => feature_of_itemRule read) sound

theorem Feature.defaultValue_of_made
    {declarations : Declarations} {feature : Feature} (made : feature ∈ declarations.madeFeatures) :
    feature.defaultValue = none := by
  rcases List.mem_append.mp made with ofGroups | ofSlices
  · rcases List.mem_flatMap.mp ofGroups with ⟨group, _, ofGroup⟩
    rcases List.mem_map.mp ofGroup with ⟨name, _, rfl⟩
    rfl
  · rcases List.mem_flatMap.mp ofSlices with ⟨slice, _, ofSlice⟩
    rcases List.mem_append.mp ofSlice with ofItem | ofWhole
    · rcases List.mem_map.mp ofItem with ⟨entry, _, rfl⟩
      rfl
    · rw [List.mem_singleton.mp ofWhole]
      rfl

/-! ## Declaring one after the other -/

/-- Features with distinct names give way to those that were there at the start, and never to each
other. -/
theorem foldl_declareFeature
    (declared : List Feature) {made : List Feature} (distinct : (made.map Feature.name).Nodup) :
    made.foldl declareFeature declared =
      declared ++
        made.filter fun feature => decide (feature.name ∉ declared.map Feature.name) := by
  induction made generalizing declared with
  | nil => simp
  | cons feature rest inductionHypothesis =>
      rw [List.map_cons, List.nodup_cons] at distinct
      rcases distinct with ⟨unrepeated, restDistinct⟩
      rw [List.foldl_cons, inductionHypothesis _ restDistinct]
      by_cases isDeclared : feature.name ∈ declared.map Feature.name
      · have kept : declareFeature declared feature = declared := by
          rw [declareFeature, if_pos]
          simpa using isDeclared
        rw [kept, List.filter_cons_of_neg (by simpa using isDeclared)]
      · have added : declareFeature declared feature = declared ++ [feature] := by
          rw [declareFeature, if_neg]
          simpa using isDeclared
        -- The feature is declared from here on, but no later one has its name.
        have sameFilter :
            (rest.filter fun other =>
                decide (other.name ∉ (declared ++ [feature]).map Feature.name)) =
              rest.filter fun other => decide (other.name ∉ declared.map Feature.name) := by
          apply List.filter_congr
          intro other member
          have different : other.name ≠ feature.name := by
            intro same
            exact unrepeated (same ▸ List.mem_map_of_mem member)
          simp [different]
        rw [added, sameFilter, List.filter_cons_of_pos (by simpa using isDeclared),
          List.append_assoc, List.singleton_append]

/-! ## Features of built models -/

namespace Declarations

variable {declarations : Declarations} {model : Model}

/-- Building keeps declared parameters and features. Features that are made up have distinct names and
no defaults, and they follow in order, without those whose names are declared. -/
theorem declared_kept_by_build (built : declarations.build = .ok model) :
    model.parameters = declarations.parameters ∧
      model.features =
        declarations.features ++
          declarations.madeFeatures.filter (fun feature =>
            decide (feature.name ∉ declarations.features.map Feature.name)) ∧
      (declarations.madeFeatures.map Feature.name).Nodup ∧
      ∀ feature ∈ declarations.madeFeatures, feature.defaultValue = none := by
  obtain ⟨bodies, sliceRules, _, sliceSound, claimedOnce, rfl⟩ :=
    build_eq_ok_iff_claimed.mp built
  have ofSlices : sliceRules.map Rule.feature = declarations.slices.flatMap Slice.madeFeatures :=
    Slice.map_of_flatMap_rules (fun _ _ => Slice.features_of_rules) sliceSound
  have made :
      declarations.groups.flatMap Group.features ++ sliceRules.map Rule.feature =
        declarations.madeFeatures := by
    rw [ofSlices, madeFeatures, funext Group.features_eq_madeFeatures]
  have distinct := nodup_madeNames claimedOnce sliceSound
  rw [made] at distinct
  refine ⟨rfl, ?_, distinct, fun _ => Feature.defaultValue_of_made⟩
  rw [assemble, made]
  exact foldl_declareFeature declarations.features distinct

/-- A check and a slice of the sample are declared, the slice twice and with a default. -/
def declaredRegionSheet : Declarations :=
  { regionSheet with
    features :=
      [.made "rates" (some .slice) .context, .made "region_1" none .result,
        { name := "rates", type := some .string, holder := .result
          defaultValue := some (.string "none") }] }

theorem declared_kept_by_build_region :
    ∃ model, declaredRegionSheet.build = .ok model ∧
      model.features =
        declaredRegionSheet.features ++
          [.made "region_0" (some .boolean) .result, .made "region" (some .boolean) .result,
            .made "rates_0" none .context, .made "rates_1" (some .integer) .context] := by
  have built : ∃ model, declaredRegionSheet.build = .ok model := ⟨_, rfl⟩
  rcases built with ⟨model, built⟩
  refine ⟨model, built, (declared_kept_by_build built).2.1.trans ?_⟩
  rfl

end Declarations

end FeatureRules
