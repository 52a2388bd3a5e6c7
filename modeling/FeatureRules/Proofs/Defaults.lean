import FeatureRules.Proofs.DeclarationOrder

/-!
# Defaults of features that are declared again

A name stands for the first feature that is declared under it, and later declarations of the name are
passed over wherever the name is looked up. Defaults are not looked up by name: each declaration with
a default is written, one after the other, so that the last of them prevails.
-/

namespace FeatureRules

namespace Model

variable {model : Model} {base : Int} {schedule : Schedule}

/-! ## The default of one feature -/

theorem defaultAssignment?_eq_some_iff {feature : Feature} {assignment : DefaultAssignment} :
    model.defaultAssignment? feature = some assignment ↔
      ∃ value, feature.defaultValue = some value ∧
        model.lower value.sourceText (defaultType feature value) ≠ "" ∧
        assignment =
          { name := feature.name
            value := model.lower value.sourceText (defaultType feature value)
            holder :=
              model.writeHolder feature.name
                (((model.rule? feature.name).map Rule.holder).getD .result) } := by
  cases given : feature.defaultValue with
  | none => simp [defaultAssignment?, given]
  | some value =>
      simp only [defaultAssignment?, given, Option.some.injEq, exists_eq_left']
      by_cases empty : model.lower value.sourceText (defaultType feature value) = ""
      · simp [empty]
      · rw [if_neg (by simpa using empty)]
        simp [empty, eq_comm]

theorem defaultAssignment?_eq_none_iff {feature : Feature} :
    model.defaultAssignment? feature = none ↔
      ∀ value, feature.defaultValue = some value →
        model.lower value.sourceText (defaultType feature value) = "" := by
  rw [Option.eq_none_iff_forall_ne_some]
  simp only [ne_eq, defaultAssignment?_eq_some_iff]
  constructor
  · intro unwritten value given
    by_contra nonempty
    exact unwritten _ ⟨value, given, nonempty, rfl⟩
  · rintro empty assignment ⟨value, given, nonempty, _⟩
    exact nonempty (empty value given)

theorem name_of_defaultAssignment?
    {feature : Feature} {assignment : DefaultAssignment}
    (written : model.defaultAssignment? feature = some assignment) :
    assignment.name = feature.name := by
  obtain ⟨_, _, _, rfl⟩ := defaultAssignment?_eq_some_iff.mp written
  rfl

theorem exists_default_of_value
    (compiled : model.compile base = .ok schedule) {feature : Feature}
    (declared : feature ∈ model.features) {value : Json}
    (given : feature.defaultValue = some value)
    (nonempty : model.lower value.sourceText (defaultType feature value) ≠ "") :
    ∃ assignment ∈ schedule.defaults,
      model.defaultAssignment? feature = some assignment ∧ assignment.name = feature.name ∧
        assignment.value = model.lower value.sourceText (defaultType feature value) := by
  have made := defaultAssignment?_eq_some_iff.mpr ⟨value, given, nonempty, rfl⟩
  have assigned := List.mem_filterMap.mpr ⟨feature, declared, made⟩
  rw [← (setup_of_compile compiled).1] at assigned
  exact ⟨_, assigned, made, rfl, rfl⟩

/-! ## The defaults of a name -/

def declarationsOf (model : Model) (name : String) : List Feature :=
  model.features.filter fun feature => feature.name == name

theorem head?_declarationsOf (model : Model) (name : String) :
    (model.declarationsOf name).head? = model.feature? name :=
  List.head?_filter ..

end Model

def Schedule.defaultsOf (schedule : Schedule) (name : String) : List DefaultAssignment :=
  schedule.defaults.filter fun assignment => assignment.name == name

namespace Model

variable {model : Model} {base : Int} {schedule : Schedule}

theorem defaultsOf_eq_filterMap
    (compiled : model.compile base = .ok schedule) (name : String) :
    schedule.defaultsOf name =
      (model.declarationsOf name).filterMap model.defaultAssignment? := by
  rw [Schedule.defaultsOf, (setup_of_compile compiled).1, List.filter_filterMap, declarationsOf,
    List.filterMap_filter]
  apply List.filterMap_congr
  intro feature _
  cases written : model.defaultAssignment? feature with
  | none => simp
  | some assignment =>
      have named := name_of_defaultAssignment? written
      by_cases same : feature.name = name
      · simp [named, same]
      · simp [named, same]

theorem filterMap_eq_first_iff
    {α β : Type} (write : α → Option β) (entries : List α) :
    entries.filterMap write = (entries.head?.bind write).toList ↔
      ∀ later ∈ entries.tail, write later = none := by
  cases entries with
  | nil => simp
  | cons first rest =>
      have split : (first :: rest).filterMap write = (write first).toList ++ rest.filterMap write := by
        cases written : write first with
        | none => simp [written]
        | some entry => simp [written]
      rw [split, List.head?_cons, Option.bind_some, List.tail_cons, List.append_right_eq_self,
        List.filterMap_eq_nil_iff]

/-- Every declaration of a name writes its default, in order, and the last that has one prevails. So
the only default of a name is that of its first declaration exactly if no later declaration has a
default that says anything. -/
theorem defaults_of_first_iff
    (compiled : model.compile base = .ok schedule) (name : String) :
    schedule.defaultsOf name =
        (model.declarationsOf name).filterMap model.defaultAssignment? ∧
      (model.declarationsOf name).head? = model.feature? name ∧
      (schedule.defaultsOf name).getLast? =
        (model.declarationsOf name).reverse.findSome? model.defaultAssignment? ∧
      (schedule.defaultsOf name = ((model.feature? name).bind model.defaultAssignment?).toList ↔
        ∀ later ∈ (model.declarationsOf name).tail, ∀ value, later.defaultValue = some value →
          model.lower value.sourceText (defaultType later value) = "") := by
  have written := defaultsOf_eq_filterMap compiled name
  refine ⟨written, model.head?_declarationsOf name, ?_, ?_⟩
  · rw [written, List.getLast?_filterMap]
  · rw [written, ← head?_declarationsOf, filterMap_eq_first_iff]
    simp only [defaultAssignment?_eq_none_iff]

/-! ## A sample -/

/-- Two names that are declared twice, with another type the second time. The score has a default of
each type, the limit has one. -/
def scoreSheet : Declarations :=
  { features :=
      [{ name := "score", type := some .integer, holder := .result
         defaultValue := some (.ofInt 1) },
        { name := "score", type := some .string, holder := .result
          defaultValue := some (.string "high") },
        { name := "limit", type := some .integer, holder := .result
          defaultValue := some (.ofInt 10) },
        { name := "limit", type := some .string, holder := .result, defaultValue := none }]
    rules := [("score", .ofInt 5)] }

def scoreModel : Model :=
  { features := scoreSheet.features
    parameters := []
    rules := [Rule.plain "score" (.ofInt 5)]
    groups := []
    slices := [] }

theorem exists_compile_scoreModel : ∃ schedule, scoreModel.compile 1000 = .ok schedule := by
  have found : scoreModel.levels = .ok [("score", 0)] := by decide +kernel
  obtain ⟨schedule, compiled, _⟩ := exists_compile_of_levels_ok 1000 found
  exact ⟨schedule, compiled⟩

theorem defaults_of_first_iff_limit :
    ∃ schedule, scoreModel.compile 1000 = .ok schedule ∧
      schedule.defaultsOf "limit" = [{ name := "limit", value := "10", holder := .result }] := by
  obtain ⟨schedule, compiled⟩ := exists_compile_scoreModel
  obtain ⟨_, _, _, first⟩ := defaults_of_first_iff compiled "limit"
  have bare : ∀ later ∈ (scoreModel.declarationsOf "limit").tail, ∀ value,
      later.defaultValue = some value →
        scoreModel.lower value.sourceText (defaultType later value) = "" := by
    intro later declared value given
    rw [List.mem_singleton.mp declared] at given
    cases given
  exact ⟨schedule, compiled, (first.mpr bare).trans (by decide +kernel)⟩

/-- The score has two defaults, and the second one is that of a declaration that the name does not
stand for. -/
theorem score_set_up_twice :
    ∃ schedule, scoreSheet.build = .ok scoreModel ∧ scoreModel.compile 1000 = .ok schedule ∧
      (scoreModel.feature? "score").bind scoreModel.defaultAssignment? =
        some { name := "score", value := "1", holder := .result } ∧
      schedule.defaultsOf "score" =
        [{ name := "score", value := "1", holder := .result },
          { name := "score", value := "\"high\"", holder := .result }] ∧
      ¬ (schedule.defaults.map DefaultAssignment.name).Nodup := by
  obtain ⟨schedule, compiled⟩ := exists_compile_scoreModel
  refine ⟨schedule, rfl, compiled, by decide +kernel, ?_, ?_⟩
  · rw [defaultsOf_eq_filterMap compiled]
    decide +kernel
  · rw [(setup_of_compile compiled).1]
    decide +kernel

end Model

end FeatureRules
