import FeatureRules.Proofs.Defaults
import FeatureRules.Proofs.Holders

/-!
# Parameters behind the sigil of a rule

A reference to the value of a rule may name a parameter instead. Levels take it for an input then,
and compilation goes through. Reading it takes no notice of parameters: unless there is a feature of
that name as well, the value is looked for in the result, where nothing writes it.
-/

namespace FeatureRules

def Reference.ofParameter (mention : Reference) : Reference :=
  { mention with sigil := .parameter }

namespace Model

variable {model : Model} {base : Int} {schedule : Schedule}

/-- A name that is declared as a parameter and as nothing else. -/
structure IsInput (model : Model) (name : String) : Prop where
  parameter : ∃ parameter ∈ model.parameters, parameter.name = name
  noFeature : ∀ feature ∈ model.features, feature.name ≠ name
  noRule : name ∉ model.ruleNames

theorem IsInput.feature?_eq_none {name : String} (input : model.IsInput name) :
    model.feature? name = none := by
  rw [feature?, List.find?_eq_none]
  intro feature declared
  simpa using input.noFeature feature declared

theorem IsInput.not_keepsInContext {name : String} (input : model.IsInput name) :
    ¬ model.KeepsInContext name := by
  rintro ⟨feature, found, _⟩
  rw [input.feature?_eq_none] at found
  cases found

theorem startsWith_ctx_ofParameter (model : Model) (mention : Reference) :
    startsWith "ctx." (mention.ofParameter.access model) = true := by
  have resolved :
      model.resolve mention.ofParameter.sigil mention.ofParameter.name =
        some { holder := .context, type := (model.parameter? mention.name).map Parameter.type } :=
    rfl
  exact access_startsWith resolved

theorem access_of_isInput
    {mention : Reference} (reads : mention.sigil.ReadsRule) (input : model.IsInput mention.name) :
    mention.access model =
      Holder.result.read (mention.rootGetter none) mention.name ++
        Reference.pathCalls (Getter.ofType mention.castType?) mention.path := by
  have resolved : model.resolve mention.sigil mention.name = some ⟨.result, none⟩ := by
    rw [model.resolve_of_readsRule mention.name reads]
    simp only [resolve, input.feature?_eq_none]
  rw [Reference.access, resolved]

/-- A default has the name of a declared feature. -/
theorem exists_feature_of_default
    (compiled : model.compile base = .ok schedule) {default : DefaultAssignment}
    (assigned : default ∈ schedule.defaults) :
    ∃ feature ∈ model.features, feature.name = default.name := by
  rw [(setup_of_compile compiled).1] at assigned
  obtain ⟨feature, declared, made⟩ := List.mem_filterMap.mp assigned
  exact ⟨feature, declared, (name_of_defaultAssignment? made).symm⟩

theorem IsInput.not_written
    {name : String} (input : model.IsInput name) (compiled : model.compile base = .ok schedule) :
    (∀ rule ∈ schedule.rules, rule.name ≠ name) ∧
      ∀ default ∈ schedule.defaults, default.name ≠ name := by
  constructor
  · rintro rule scheduled rfl
    apply input.noRule
    rw [← scheduledNames_of_compile compiled]
    exact List.mem_map_of_mem scheduled
  · rintro default assigned rfl
    obtain ⟨feature, declared, named⟩ := exists_feature_of_default compiled assigned
    exact input.noFeature feature declared named

/-- A parameter behind the sigil of a rule is known and waited for by nobody, so it does not hinder
compilation. Wherever a rule text refers to it, it is read from the result, without the type of the
parameter, although the sigil of a parameter would read it from the context and no rule or default
writes it. -/
theorem input_read_from_result
    {declarations : Declarations} (built : declarations.build = .ok model)
    (compiled : model.compile base = .ok schedule) {rule : Rule} (inModel : rule ∈ model.rules)
    {text : String} (isText : text = rule.expressionText ∨ rule.condition = some text)
    {mention : Reference} (occurs : .reference mention ∈ Fragment.split text)
    (reads : mention.sigil.ReadsRule) (input : model.IsInput mention.name) :
    model.knows mention.name = true ∧
      (∀ name, ¬ model.Awaits name mention.name) ∧
      (∃ reader, schedule.rule? rule.name = some reader ∧
        reader.Emits (mention.access model)) ∧
      mention.access model =
        Holder.result.read (mention.rootGetter none) mention.name ++
          Reference.pathCalls (Getter.ofType mention.castType?) mention.path ∧
      startsWith "ctx." (mention.access model) = false ∧
      startsWith "ctx." (mention.ofParameter.access model) = true ∧
      (∀ other ∈ schedule.rules, other.name ≠ mention.name) ∧
      ∀ default ∈ schedule.defaults, default.name ≠ mention.name := by
  have emitted : ∃ reader, schedule.rule? rule.name = some reader ∧
      reader.Emits (mention.access model) :=
    ⟨_, rule?_of_compile built compiled inModel, emits_access isText occurs⟩
  refine
    ⟨knows_iff.mpr (Or.inr (Or.inl input.parameter)), ?_, emitted, access_of_isInput reads input,
      ?_, model.startsWith_ctx_ofParameter mention, input.not_written compiled⟩
  · rintro name ⟨_, _, _, _, isRule⟩
    exact input.noRule isRule
  · rw [Bool.eq_false_iff, ne_eq, model.startsWith_ctx_iff reads]
    exact input.not_keepsInContext

/-- A rule that refers to a parameter with the sigil of a rule. -/
def ceilingSheet : Declarations :=
  { parameters := [{ name := "limit", type := .integer, required := false, resolver := none }]
    rules := [("over", .string "#limit < 10")] }

def ceilingModel : Model :=
  { features := []
    parameters := ceilingSheet.parameters
    rules := [Rule.plain "over" (.string "#limit < 10")]
    groups := []
    slices := [] }

theorem build_ceilingSheet : ceilingSheet.build = .ok ceilingModel := rfl

theorem exists_compile_ceilingModel :
    ∃ schedule, ceilingModel.compile 1000 = .ok schedule ∧ schedule.levels = [("over", 0)] := by
  have found : ceilingModel.levels = .ok [("over", 0)] := by decide +kernel
  exact exists_compile_of_levels_ok 1000 found

theorem isInput_ceilingModel : ceilingModel.IsInput "limit" where
  parameter := ⟨_, List.mem_cons_self, rfl⟩
  noFeature := by simp [ceilingModel]
  noRule := by decide

theorem input_read_from_result_ceiling :
    ∃ schedule, ceilingModel.compile 1000 = .ok schedule ∧
      Reference.access ceilingModel ⟨.result, "limit", [], none⟩ = "result.Get(\"limit\")" ∧
      ∀ rule ∈ schedule.rules, rule.name ≠ "limit" := by
  obtain ⟨schedule, compiled, _⟩ := exists_compile_ceilingModel
  have occurs :
      .reference ⟨.result, "limit", [], none⟩ ∈ Fragment.split "#limit < 10" := by
    decide +kernel
  obtain ⟨_, _, _, access, _, _, unwritten, _⟩ :=
    input_read_from_result build_ceilingSheet compiled List.mem_cons_self (Or.inl rfl) occurs
      (Or.inl rfl) isInput_ceilingModel
  exact ⟨schedule, compiled, access.trans (by decide +kernel), unwritten⟩

/-- The limit is supplied in the context and looked for in the result. -/
theorem limit_not_read_from_context :
    ∃ schedule reader, ceilingSheet.build = .ok ceilingModel ∧
      ceilingModel.compile 1000 = .ok schedule ∧
      ceilingModel.IsInput "limit" ∧
      schedule.rule? "over" = some reader ∧
      schedule.level? "over" = some 0 ∧
      reader.expression = "result.Get(\"limit\") < 10" ∧
      startsWith "ctx." reader.expression = false := by
  obtain ⟨schedule, compiled, levels⟩ := exists_compile_ceilingModel
  have expression :
      ceilingModel.lower "#limit < 10" (some .boolean) = "result.Get(\"limit\") < 10" := by
    decide +kernel
  refine
    ⟨schedule, _, build_ceilingSheet, compiled, isInput_ceilingModel,
      rule?_of_compile build_ceilingSheet compiled List.mem_cons_self, ?_, expression, ?_⟩
  · rw [Schedule.level?, levels]
    rfl
  · have lowered :
        startsWith "ctx." (ceilingModel.lower "#limit < 10" (some .boolean)) = false := by
      decide +kernel
    exact lowered

end Model

end FeatureRules
