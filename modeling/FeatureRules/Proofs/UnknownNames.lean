import FeatureRules.Proofs.Defaults
import FeatureRules.Proofs.Reference.Locality

/-!
# Unknown names

Compilation stops at a reference to a name that nothing declares exactly if it stands in the
expression or the condition of a rule. The defaults of features are lowered like all other texts, but
nobody looks at the names in them: whatever a default refers to is read in its assignment.
-/

namespace FeatureRules

/-! ## References in the texts of rules -/

def Rule.HasText (rule : Rule) (text : String) : Prop :=
  text = rule.expressionText ∨ rule.condition = some text

/-- A text refers to a name that is neither that of a feature nor of a parameter nor of a rule. -/
def Model.HasUnknown (model : Model) (text : String) : Prop :=
  ∃ mention name, .reference mention ∈ Fragment.split text ∧
    mention.dependency? = some name ∧ ¬ model.Declares name

theorem Rule.mem_dependencies_iff {rule : Rule} {name : String} :
    name ∈ rule.dependencies ↔ ∃ text, rule.HasText text ∧ name ∈ FeatureRules.dependencies text := by
  rw [Rule.dependencies, dependencies_referenceText, List.filterMap_append, List.mem_append]
  cases written : rule.condition with
  | none =>
      have always : (Fragment.split "true").filterMap Fragment.dependency? = [] := by
        rw [Model.split_true]
        rfl
      simp [HasText, written, always, FeatureRules.dependencies]
  | some condition =>
      simp [HasText, written, FeatureRules.dependencies, or_and_right, exists_or]

namespace Model

variable {model : Model} {base : Int} {schedule : Schedule}

theorem hasUnknown_iff {text : String} :
    model.HasUnknown text ↔ ∃ name ∈ dependencies text, ¬ model.Declares name := by
  simp only [FeatureRules.mem_dependencies_iff, HasUnknown]
  constructor
  · rintro ⟨mention, name, occurs, waits, unknown⟩
    exact ⟨name, ⟨mention, occurs, waits⟩, unknown⟩
  · rintro ⟨name, ⟨mention, occurs, waits⟩, unknown⟩
    exact ⟨mention, name, occurs, waits, unknown⟩

theorem not_resolved_iff :
    ¬ model.Resolved ↔
      ∃ rule ∈ model.rules, ∃ text, rule.HasText text ∧ model.HasUnknown text := by
  simp only [Resolved, not_forall, Rule.mem_dependencies_iff, hasUnknown_iff]
  constructor
  · rintro ⟨rule, inModel, name, ⟨text, isText, mentioned⟩, unknown⟩
    exact ⟨rule, inModel, text, isText, name, mentioned, unknown⟩
  · rintro ⟨rule, inModel, text, isText, name, mentioned, unknown⟩
    exact ⟨rule, inModel, name, ⟨text, isText, mentioned⟩, unknown⟩

theorem exists_unresolvable_iff :
    (∃ rule reference, model.compile base = .error (.unresolvableReference rule reference)) ↔
      ¬ model.Resolved := by
  simp only [compile_error_iff]
  constructor
  · rintro ⟨rule, reference, failed⟩ resolved
    obtain ⟨last, found⟩ := exists_leveling resolved
    rw [levels_of_leveling found] at failed
    split at failed <;> cases failed
  · intro unresolved
    obtain ⟨rule, reference, unknown⟩ := exists_firstUnknown_iff.mpr unresolved
    exact ⟨rule, reference, levels_of_firstUnknown unknown⟩

/-! ## Defaults -/

def withDefaults (model : Model) (values : Feature → Option Json) : Model :=
  { model with
    features := model.features.map fun feature => { feature with defaultValue := values feature } }

theorem knows_withDefaults (model : Model) (values : Feature → Option Json) :
    (model.withDefaults values).knows = model.knows := by
  funext name
  have declared :
      ((model.withDefaults values).feature? name).isSome = (model.feature? name).isSome := by
    rw [feature?, withDefaults, List.find?_map, Option.isSome_map]
    rfl
  rw [knows, declared]
  rfl

theorem levels_withDefaults (model : Model) (values : Feature → Option Json) :
    (model.withDefaults values).levels = model.levels := by
  have sameSymbols : (model.withDefaults values).symbols = model.symbols := by
    rw [symbols, model.knows_withDefaults values]
    rfl
  rw [levels, leveling, sameSymbols]
  rfl

end Model

theorem Reference.access_ne_empty (model : Model) (mention : Reference) :
    mention.access model ≠ "" := by
  intro empty
  cases resolved : model.resolve mention.sigil mention.name with
  | none =>
      have test : ∃ front, mention.access model = front ++ ")" := by
        rw [access, resolved]
        exact ⟨_, rfl⟩
      obtain ⟨front, test⟩ := test
      rw [empty] at test
      simpa using congrArg String.toList test
  | some target =>
      have starts := Model.access_startsWith resolved
      rw [empty] at starts
      revert starts
      cases target.holder <;> decide

theorem conform_ne_empty (type : Option ValueType) {expression : String}
    (nonempty : expression ≠ "") : conform type expression ≠ "" := by
  fun_cases conform type expression <;> simp [nonempty]

namespace Model

variable {model : Model} {base : Int} {schedule : Schedule}

/-- Every reference of a default is read in the assignment of the default. -/
theorem exists_default_of_mention
    (compiled : model.compile base = .ok schedule) {feature : Feature}
    (declared : feature ∈ model.features) {value : Json}
    (hasDefault : feature.defaultValue = some value) {mention : Reference}
    (occurs : .reference mention ∈ Fragment.split value.sourceText) :
    ∃ assignment ∈ schedule.defaults, assignment.name = feature.name ∧
      ∃ before after,
        assignment.value =
          conform (defaultType feature value) (before ++ mention.access model ++ after) := by
  obtain ⟨before, after, lowered⟩ := model.substitute_of_mem occurs
  have text :
      model.lower value.sourceText (defaultType feature value) =
        conform (defaultType feature value) (before ++ mention.access model ++ after) := by
    rw [lower, lowered]
  have nonempty : model.lower value.sourceText (defaultType feature value) ≠ "" := by
    rw [text]
    apply conform_ne_empty
    simp [mention.access_ne_empty model]
  obtain ⟨assignment, assigned, _, named, written⟩ :=
    exists_default_of_value compiled declared hasDefault nonempty
  exact ⟨assignment, assigned, named, before, after, written.trans text⟩

/-- Compilation reports an unknown name exactly if there is one in the expression or the condition of a
rule. Defaults decide nothing about it: with any others the model fails in the same way or compiles
as well. Once it compiles, all names in the texts of rules are declared, and every reference of a
default is read in an assignment, be its name declared or not. -/
theorem unresolvable_iff_unknown_in_rule (model : Model) (base : Int) :
    ((∃ rule reference, model.compile base = .error (.unresolvableReference rule reference)) ↔
        ∃ rule ∈ model.rules, ∃ text, rule.HasText text ∧ model.HasUnknown text) ∧
      (∀ values failure, (model.withDefaults values).compile base = .error failure ↔
        model.compile base = .error failure) ∧
      ∀ schedule, model.compile base = .ok schedule →
        (∀ rule ∈ model.rules, ∀ text, rule.HasText text → ¬ model.HasUnknown text) ∧
          ∀ feature ∈ model.features, ∀ value, feature.defaultValue = some value →
            ∀ mention, .reference mention ∈ Fragment.split value.sourceText →
              ∃ assignment ∈ schedule.defaults, assignment.name = feature.name ∧
                ∃ before after,
                  assignment.value =
                    conform (defaultType feature value)
                      (before ++ mention.access model ++ after) := by
  refine ⟨exists_unresolvable_iff.trans not_resolved_iff, ?_, ?_⟩
  · intro values failure
    rw [compile_error_iff, compile_error_iff, levels_withDefaults]
  · intro schedule compiled
    constructor
    · intro rule inModel text isText unknown
      have resolved := resolved_of_levels_ok (levels_and_rules_of_compile compiled).1
      exact not_resolved_iff.mpr ⟨rule, inModel, text, isText, unknown⟩ resolved
    · intro feature declared value hasDefault mention occurs
      exact exists_default_of_mention compiled declared hasDefault occurs

/-! ## A sample -/

/-- A price that doubles a fee, whose default refers to a name of nothing. -/
def feeSheet : Declarations :=
  { features :=
      [{ name := "fee", type := some .integer, holder := .result
         defaultValue := some (.string "#surcharge + 1") }]
    rules := [("price", .string "#fee * 2")] }

def feeModel : Model :=
  { features := feeSheet.features
    parameters := []
    rules := [Rule.plain "price" (.string "#fee * 2")]
    groups := []
    slices := [] }

theorem build_feeSheet : feeSheet.build = .ok feeModel := rfl

theorem exists_compile_feeModel :
    ∃ schedule, feeModel.compile 1000 = .ok schedule ∧ schedule.levels = [("price", 0)] := by
  have found : feeModel.levels = .ok [("price", 0)] := by decide +kernel
  exact exists_compile_of_levels_ok 1000 found

theorem hasUnknown_feeModel : feeModel.HasUnknown "#surcharge + 1" := by
  refine ⟨⟨.result, "surcharge", [], none⟩, "surcharge", by decide +kernel, rfl, ?_⟩
  rw [← knows_iff]
  decide +kernel

theorem unresolvable_iff_unknown_in_rule_fee :
    ∃ schedule, feeModel.compile 1000 = .ok schedule ∧
      ¬ feeModel.HasUnknown "#fee * 2" ∧
      ∃ assignment ∈ schedule.defaults, assignment.name = "fee" := by
  obtain ⟨schedule, compiled, _⟩ := exists_compile_feeModel
  obtain ⟨_, _, ofSchedule⟩ := unresolvable_iff_unknown_in_rule feeModel 1000
  obtain ⟨known, assigned⟩ := ofSchedule schedule compiled
  have occurs :
      .reference ⟨.result, "surcharge", [], none⟩ ∈ Fragment.split "#surcharge + 1" := by
    decide +kernel
  obtain ⟨assignment, made, named, _⟩ :=
    assigned _ List.mem_cons_self (.string "#surcharge + 1") rfl _ occurs
  exact
    ⟨schedule, compiled, known _ List.mem_cons_self "#fee * 2" (Or.inl rfl), assignment, made,
      named⟩

/-- The default compiles, and the fee is set up from a name that nothing declares. -/
theorem surcharge_read_in_default :
    ∃ schedule, feeSheet.build = .ok feeModel ∧ feeModel.compile 1000 = .ok schedule ∧
      feeModel.HasUnknown "#surcharge + 1" ∧
      schedule.defaults =
        [{ name := "fee", value := "result.Get(\"surcharge\") + 1", holder := .result }] := by
  obtain ⟨schedule, compiled, _⟩ := exists_compile_feeModel
  refine ⟨schedule, build_feeSheet, compiled, hasUnknown_feeModel, ?_⟩
  rw [(setup_of_compile compiled).1]
  decide +kernel

end Model

end FeatureRules
