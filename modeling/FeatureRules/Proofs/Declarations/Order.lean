import FeatureRules.Proofs.Declarations.Names
import Mathlib.Data.List.Perm.Basic

/-!
# Order of rule bodies

Declarations whose rule bodies stand in another order make up a model exactly if they do in the
given order. The two models have the same rules up to their order, the same feature under every name
and the same features with a default.
-/

namespace FeatureRules

/-! ## Look-up by name -/

/-- Among entries with distinct names, look-up does not depend on their order. -/
theorem find?_name_eq_of_perm
    {α : Type} {name : α → String} {entries others : List α}
    (distinct : (entries.map name).Nodup) (permuted : entries.Perm others) (key : String) :
    entries.find? (fun entry => name entry == key) =
      others.find? (fun entry => name entry == key) := by
  have othersDistinct : (others.map name).Nodup :=
    (permuted.map name).nodup_iff.mp distinct
  apply Option.ext
  intro entry
  rw [find?_name_eq_some_iff distinct, find?_name_eq_some_iff othersDistinct,
    permuted.mem_iff]

/-! ## Enrolment in another order -/

theorem enroll_of_perm
    {α : Type} {name : α → String} {taken otherTaken : List String}
    {entries others : List (Except ModelError α)} {values : List α}
    (permuted : entries.Perm others) (sameTaken : taken.Perm otherTaken)
    (enrolled : enroll name taken entries = .ok values) :
    ∃ otherValues,
      enroll name otherTaken others = .ok otherValues ∧ values.Perm otherValues := by
  obtain ⟨sound, distinct, fresh⟩ := enroll_eq_ok_iff.mp enrolled
  rw [sound] at permuted
  have rearranged :
      Relation.Comp (fun list source => list = List.map Except.ok source) List.Perm
        others values := by
    rw [List.eq_map_comp_perm]
    exact permuted.symm
  obtain ⟨otherValues, otherSound, valuesPermuted⟩ := rearranged
  refine ⟨otherValues, enroll_eq_ok_iff.mpr ⟨otherSound, ?_, ?_⟩, valuesPermuted.symm⟩
  · exact (valuesPermuted.map name).nodup_iff.mpr distinct
  · intro value member isTaken
    exact fresh value (valuesPermuted.subset member) (sameTaken.symm.subset isTaken)

/-! ## Features -/

def Feature.hasDefault (feature : Feature) : Bool :=
  feature.defaultValue.isSome

theorem find?_declareFeature (features : List Feature) (feature : Feature) (name : String) :
    (declareFeature features feature).find? (fun other => other.name == name) =
      (features ++ [feature]).find? (fun other => other.name == name) := by
  by_cases declared : features.any fun other => other.name == feature.name
  · rw [declareFeature, if_pos declared, List.find?_append]
    by_cases sameName : feature.name = name
    · have found : (features.find? fun other => other.name == name).isSome := by
        rw [List.find?_isSome, ← sameName]
        simpa using declared
      rw [Option.or_of_isSome found]
    · simp [sameName]
  · rw [declareFeature, if_neg declared]

/-- Behind a name stands the first feature of that name, declared or made up. -/
theorem find?_foldl_declareFeature (declared made : List Feature) (name : String) :
    (made.foldl declareFeature declared).find? (fun other => other.name == name) =
      (declared ++ made).find? (fun other => other.name == name) := by
  induction made generalizing declared with
  | nil =>
      rw [List.foldl_nil, List.append_nil]
  | cons feature rest inductionHypothesis =>
      rw [List.foldl_cons, inductionHypothesis, List.find?_append, find?_declareFeature,
        ← List.find?_append, List.append_assoc, List.singleton_append]

/-- Features without a default leave those with one as they are. -/
theorem filter_foldl_declareFeature
    (declared : List Feature) {made : List Feature}
    (plain : ∀ feature ∈ made, feature.hasDefault = false) :
    (made.foldl declareFeature declared).filter Feature.hasDefault =
      declared.filter Feature.hasDefault := by
  induction made generalizing declared with
  | nil => rfl
  | cons feature rest inductionHypothesis =>
      obtain ⟨featurePlain, restPlain⟩ := List.forall_mem_cons.mp plain
      rw [List.foldl_cons, inductionHypothesis _ restPlain, declareFeature]
      split
      · rfl
      · rw [List.filter_append]
        simp [featurePlain]

theorem hasDefault_of_mem_made
    {groups : List Group} {rules : List Rule} :
    ∀ feature ∈ groups.flatMap Group.features ++ rules.map Rule.feature,
      feature.hasDefault = false := by
  intro feature member
  rcases List.mem_append.mp member with ofGroup | ofRule
  · obtain ⟨group, _, inGroup⟩ := List.mem_flatMap.mp ofGroup
    rcases List.mem_append.mp inGroup with ofCheck | ofWhole
    · obtain ⟨rule, _, rfl⟩ := List.mem_map.mp ofCheck
      rfl
    · rw [List.mem_singleton] at ofWhole
      subst ofWhole
      rfl
  · obtain ⟨rule, _, rfl⟩ := List.mem_map.mp ofRule
    rfl

/-! ## Models in another order -/

/-- Two models that differ only in the order of their rules and of the features that nobody
declared. -/
structure Model.Reordered (first second : Model) : Prop where
  rules : first.rules.Perm second.rules
  feature? : ∀ name, first.feature? name = second.feature? name
  defaulted :
    first.features.filter Feature.hasDefault = second.features.filter Feature.hasDefault
  parameters : first.parameters = second.parameters
  groups : first.groups = second.groups

namespace Declarations

def assemble (declarations : Declarations) (bodies : List Body) (sliceRules : List Rule) : Model :=
  { features :=
      (declarations.groups.flatMap Group.features ++ sliceRules.map Rule.feature).foldl
        declareFeature declarations.features
    parameters := declarations.parameters
    rules := bodies.filterMap Body.rule? ++ sliceRules
    groups := Group.gather declarations.groups
    slices := (bodies.filterMap Body.slice?).map Slice.name }

theorem build_eq_ok_iff {declarations : Declarations} {model : Model} :
    declarations.build = .ok model ↔
      ∃ bodies sliceRules,
        enroll Body.name [] declarations.bodies = .ok bodies ∧
        enroll Rule.name ((bodies.filterMap Body.rule?).map Rule.name)
          ((bodies.filterMap Body.slice?).flatMap Slice.rules) = .ok sliceRules ∧
        model = declarations.assemble bodies sliceRules := by
  constructor
  · intro built
    obtain ⟨bodies, bodiesEnrolled, rest⟩ := exists_of_bind_eq_ok built
    obtain ⟨sliceRules, rulesEnrolled, finished⟩ := exists_of_bind_eq_ok rest
    cases finished
    exact ⟨bodies, sliceRules, bodiesEnrolled, rulesEnrolled, rfl⟩
  · intro enrolled
    rcases enrolled with ⟨bodies, sliceRules, bodiesEnrolled, rulesEnrolled, rfl⟩
    rw [build, bodiesEnrolled]
    simp only [bind, Except.bind]
    rw [rulesEnrolled]
    rfl

theorem bodies_perm
    (declarations : Declarations) {rules : List (String × Json)}
    (permuted : declarations.rules.Perm rules) :
    declarations.bodies.Perm { declarations with rules := rules }.bodies :=
  (permuted.map _).append_right _

theorem reordered_assemble
    (declarations : Declarations) (rules : List (String × Json))
    {bodies otherBodies : List Body} {sliceRules otherRules : List Rule}
    (bodiesPermuted : bodies.Perm otherBodies) (rulesPermuted : sliceRules.Perm otherRules)
    (distinct : (sliceRules.map Rule.name).Nodup) :
    (declarations.assemble bodies sliceRules).Reordered
      ({ declarations with rules := rules }.assemble otherBodies otherRules) where
  rules := (bodiesPermuted.filterMap Body.rule?).append rulesPermuted
  feature? := by
    intro name
    have sameMade :
        (sliceRules.map Rule.feature).find? (fun other => other.name == name) =
          (otherRules.map Rule.feature).find? (fun other => other.name == name) := by
      apply find?_name_eq_of_perm
      · rw [List.map_map]
        exact distinct
      · exact rulesPermuted.map Rule.feature
    simp only [Model.feature?, assemble, find?_foldl_declareFeature, List.find?_append, sameMade]
  defaulted := by
    simp only [assemble, filter_foldl_declareFeature _ hasDefault_of_mem_made]
  parameters := rfl
  groups := rfl

/-- Rule bodies in another order make up a model as well, one that differs in order only. -/
theorem exists_reordered_of_build
    {declarations : Declarations} {rules : List (String × Json)} {model : Model}
    (permuted : declarations.rules.Perm rules) (built : declarations.build = .ok model) :
    ∃ other, { declarations with rules := rules }.build = .ok other ∧ model.Reordered other := by
  obtain ⟨bodies, sliceRules, bodiesEnrolled, rulesEnrolled, rfl⟩ := build_eq_ok_iff.mp built
  obtain ⟨otherBodies, othersEnrolled, bodiesPermuted⟩ :=
    enroll_of_perm (declarations.bodies_perm permuted) (List.Perm.refl []) bodiesEnrolled
  have takenPermuted :=
    (bodiesPermuted.filterMap Body.rule?).map Rule.name
  have entriesPermuted :=
    (bodiesPermuted.filterMap Body.slice?).flatMap_right Slice.rules
  obtain ⟨otherRules, otherRulesEnrolled, rulesPermuted⟩ :=
    enroll_of_perm entriesPermuted takenPermuted rulesEnrolled
  have distinct := (enroll_eq_ok_iff.mp rulesEnrolled).2.1
  have otherBuilt :=
    build_eq_ok_iff.mpr ⟨otherBodies, otherRules, othersEnrolled, otherRulesEnrolled, rfl⟩
  exact
    ⟨_, otherBuilt,
      reordered_assemble declarations rules bodiesPermuted rulesPermuted distinct⟩

end Declarations

end FeatureRules
