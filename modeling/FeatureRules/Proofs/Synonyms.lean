import FeatureRules.Proofs.Lowering
import FeatureRules.Proofs.Reference.Locality

/-!
# The two sigils of rules

The value of a rule is referred to behind either of two sigils. A text in which the one is written in
place of the other wherever it opens a reference is split at the same places, waits for the same
rules and is lowered to the same expression. Sigils that open nothing stay where they are. A model
therefore compiles as before when the texts of its rules are respelled.
-/

namespace FeatureRules

/-! ## Respelled texts -/

/-- The first of the two sigils of rules in place of the second. -/
def Sigil.principal : Sigil → Sigil
  | .synonym => .result
  | sigil => sigil

namespace Reference

def respelled (mention : Reference) : Reference :=
  { mention with sigil := mention.sigil.principal }

theorem dependency?_respelled (mention : Reference) :
    mention.respelled.dependency? = mention.dependency? := by
  cases sigil : mention.sigil <;> simp [dependency?, respelled, sigil, Sigil.principal]

theorem access_respelled (model : Model) (mention : Reference) :
    mention.respelled.access model = mention.access model := by
  have resolved :
      model.resolve mention.respelled.sigil mention.respelled.name =
        model.resolve mention.sigil mention.name := by
    cases sigil : mention.sigil <;> simp only [respelled, sigil] <;> rfl
  rw [access, access, resolved]
  rfl

theorem WellFormed.respelled {mention : Reference} (wellFormed : mention.WellFormed) :
    mention.respelled.WellFormed where
  name := wellFormed.name
  path := wellFormed.path
  cast := wellFormed.cast

end Reference

namespace Fragment

/-- A fragment with its reference respelled. -/
def respelled : Fragment → Fragment
  | literal content => literal content
  | reference mention => reference mention.respelled

theorem WellFormed.respelled {fragment : Fragment} (wellFormed : fragment.WellFormed) :
    fragment.respelled.WellFormed := by
  cases fragment with
  | literal content => exact wellFormed
  | reference mention => exact Reference.WellFormed.respelled wellFormed

theorem MayPrecede.respelled {fragment next : Fragment} (mayPrecede : fragment.MayPrecede next) :
    fragment.respelled.MayPrecede next.respelled := by
  cases fragment <;> cases next <;> exact mayPrecede

/-- The form of fragments does not depend on which sigil opens a reference. -/
theorem Canonical.respelled {fragments : List Fragment} (canonical : Canonical fragments) :
    Canonical (fragments.map Fragment.respelled) where
  wellFormed := by
    intro fragment member
    obtain ⟨original, isOriginal, rfl⟩ := List.mem_map.mp member
    exact (canonical.wellFormed original isOriginal).respelled
  adjacent := by
    rw [List.isChain_map]
    exact canonical.adjacent.imp fun _ _ => MayPrecede.respelled

theorem dependency?_respelled (fragment : Fragment) :
    fragment.respelled.dependency? = fragment.dependency? := by
  cases fragment with
  | literal content => rfl
  | reference mention => exact mention.dependency?_respelled

theorem lower_respelled (model : Model) (fragment : Fragment) :
    fragment.respelled.lower model = fragment.lower model := by
  cases fragment with
  | literal content => rfl
  | reference mention => exact mention.access_respelled model

end Fragment

/-- A text with `#` in place of every `@` that opens a reference. -/
def respell (text : String) : String :=
  Fragment.sources ((Fragment.split text).map Fragment.respelled)

theorem split_respell (text : String) :
    Fragment.split (respell text) = (Fragment.split text).map Fragment.respelled :=
  Fragment.split_sources (Fragment.canonical_split text).respelled

theorem dependencies_respell (text : String) :
    dependencies (respell text) = dependencies text := by
  rw [dependencies, split_respell, List.filterMap_map, dependencies]
  congr 1
  funext fragment
  exact fragment.dependency?_respelled

namespace Model

theorem substitute_respell (model : Model) (text : String) :
    model.substitute (respell text) = model.substitute text := by
  have fragments :
      (Fragment.split (respell text)).map (Fragment.lower model) =
        (Fragment.split text).map (Fragment.lower model) := by
    rw [split_respell, List.map_map]
    exact List.map_congr_left fun fragment _ => fragment.lower_respelled model
  rw [substitute, substitute, fragments]

theorem lower_respell (model : Model) (text : String) (type : Option ValueType) :
    model.lower (respell text) type = model.lower text type := by
  rw [lower, lower, substitute_respell]

theorem lowerCondition_respell (model : Model) (condition : Option String) :
    model.lowerCondition (condition.map respell) = model.lowerCondition condition := by
  cases condition with
  | none => rfl
  | some text =>
      rw [Option.map_some, lowerCondition_some, lowerCondition_some, substitute_respell]

end Model

/-! ## Rules of the same effect -/

/-- Two rules that wait for the same rules and are lowered alike in every model. -/
structure Rule.Alike (first second : Rule) : Prop where
  name : first.name = second.name
  type : first.type = second.type
  holder : first.holder = second.holder
  dependencies : first.dependencies = second.dependencies
  expression : ∀ (model : Model) (type : Option ValueType),
    model.lower first.expressionText type = model.lower second.expressionText type
  condition : ∀ model : Model,
    model.lowerCondition first.condition = model.lowerCondition second.condition

namespace Model

variable (model : Model)

/-- A model with every rule changed. -/
def mapRules (change : Rule → Rule) : Model :=
  { model with rules := model.rules.map change }

theorem readsLike_mapRules (change : Rule → Rule) : model.ReadsLike (model.mapRules change) where
  feature? := fun _ => rfl
  parameter? := fun _ => rfl

variable {change : Rule → Rule} (alike : ∀ rule, (change rule).Alike rule)

include alike

theorem ruleNames_mapRules : (model.mapRules change).ruleNames = model.ruleNames := by
  rw [ruleNames, mapRules, List.map_map]
  exact List.map_congr_left fun rule _ => (alike rule).name

theorem isRule_mapRules : (model.mapRules change).isRule = model.isRule := by
  funext name
  rw [isRule, model.ruleNames_mapRules alike, isRule]

theorem knows_mapRules : (model.mapRules change).knows = model.knows := by
  funext name
  rw [knows, model.isRule_mapRules alike]
  rfl

theorem levels_mapRules : (model.mapRules change).levels = model.levels := by
  have sameSymbols : (model.mapRules change).symbols = model.symbols := by
    rw [symbols, symbols, model.knows_mapRules alike, model.isRule_mapRules alike]
  have sameStart :
      Leveling.start (model.mapRules change).rules = Leveling.start model.rules := by
    rw [Leveling.start, Leveling.start, mapRules, List.map_map]
    congr 1
    refine List.map_congr_left fun rule _ => ?_
    rw [Function.comp_apply, Waiting.ofRule, Waiting.ofRule, (alike rule).dependencies,
      (alike rule).name]
  rw [levels, leveling, sameSymbols, sameStart, levels, leveling]

theorem schedule_mapRules (base : Int) (levels : List (String × Nat)) (rule : Rule) :
    (model.mapRules change).schedule base levels (change rule) = model.schedule base levels rule := by
  have sameType : model.outputType (change rule) = model.outputType rule := by
    rw [outputType, outputType, (alike rule).type, (alike rule).name]
  rw [(model.readsLike_mapRules change).schedule_eq base levels levels]
  simp only [schedule, sameType, (alike rule).name, (alike rule).holder, (alike rule).expression,
    (alike rule).condition]

theorem defaultAssignment?_mapRules :
    (model.mapRules change).defaultAssignment? = model.defaultAssignment? := by
  have sameHolder : ∀ name,
      ((model.mapRules change).rule? name).map Rule.holder =
        (model.rule? name).map Rule.holder := by
    intro name
    have sameName : (fun rule : Rule => rule.name == name) ∘ change =
        fun rule => rule.name == name := by
      funext rule
      rw [Function.comp_apply, (alike rule).name]
    rw [rule?, mapRules, List.find?_map, sameName, Option.map_map, rule?]
    congr 1
    funext rule
    exact (alike rule).holder
  funext feature
  have reads := model.readsLike_mapRules change
  simp only [defaultAssignment?, sameHolder, reads.lower_eq, reads.writeHolder_eq]

/-- Rules can be exchanged for others of the same effect. -/
theorem compile_mapRules (base : Int) :
    (model.mapRules change).compile base = model.compile base := by
  have rules : ∀ levels,
      (model.mapRules change).rules.map ((model.mapRules change).schedule base levels) =
        model.rules.map (model.schedule base levels) := by
    intro levels
    rw [mapRules, List.map_map]
    exact List.map_congr_left fun rule _ => model.schedule_mapRules alike base levels rule
  simp only [compile, model.levels_mapRules alike, rules, model.defaultAssignment?_mapRules alike]
  rfl

end Model

/-! ## Respelled models -/

/-- A body with its text respelled. Values of other kinds are no rule text and stay. -/
def Json.respelled : Json → Json
  | .string text => .string (respell text)
  | body => body

def Rule.respelled (rule : Rule) : Rule :=
  { rule with
    expression := rule.expression.respelled
    condition := rule.condition.map respell }

def Model.respelled (model : Model) : Model :=
  model.mapRules Rule.respelled

namespace Rule

theorem expressionText_respelled (rule : Rule) :
    rule.respelled.expressionText = rule.expressionText ∨
      rule.respelled.expressionText = respell rule.expressionText := by
  cases body : rule.expression with
  | string text =>
      right
      simp only [expressionText, respelled, body]
      rfl
  | _ =>
      left
      simp only [expressionText, respelled, body]
      rfl

theorem dependencies_respelled (rule : Rule) :
    rule.respelled.dependencies = rule.dependencies := by
  have expression :
      FeatureRules.dependencies rule.respelled.expressionText =
        FeatureRules.dependencies rule.expressionText := by
    rcases rule.expressionText_respelled with same | respelt
    · rw [same]
    · rw [respelt, dependencies_respell]
  have condition :
      FeatureRules.dependencies (rule.respelled.condition.getD "true") =
        FeatureRules.dependencies (rule.condition.getD "true") := by
    cases written : rule.condition with
    | none => simp only [respelled, written, Option.map_none]
    | some text =>
        simp only [respelled, written, Option.map_some, Option.getD_some, dependencies_respell]
  rw [Rule.dependencies, Rule.dependencies, dependencies_referenceText, dependencies_referenceText,
    List.filterMap_append, List.filterMap_append]
  exact congrArg₂ (· ++ ·) expression condition

theorem alike_respelled (rule : Rule) : rule.respelled.Alike rule where
  name := rfl
  type := rfl
  holder := rfl
  dependencies := rule.dependencies_respelled
  expression := by
    intro model type
    rcases rule.expressionText_respelled with same | respelt
    · rw [same]
    · rw [respelt, model.lower_respell]
  condition := fun model => model.lowerCondition_respell rule.condition

end Rule

/-- The second sigil of rules means what the first one means. A text that is respelled with the first
has the same references at the same places, waits for the same rules, and is lowered to the same
expression of any type. A model with all its rules respelled compiles to the same schedule, or fails
in the same way. -/
theorem synonym_means_result (model : Model) :
    (∀ text,
      Fragment.split (respell text) = (Fragment.split text).map Fragment.respelled ∧
        dependencies (respell text) = dependencies text ∧
        ∀ type, model.lower (respell text) type = model.lower text type) ∧
      ∀ base, model.respelled.compile base = model.compile base := by
  constructor
  · intro text
    exact ⟨split_respell text, dependencies_respell text, model.lower_respell text⟩
  · exact model.compile_mapRules Rule.alike_respelled

/-- Sigils that open no reference stay, also where they stand against a reference. -/
example : respell "@@rate@fee.due@ + @ @é" = "@#rate#fee.due@ + @ @é" := by
  decide +kernel

end FeatureRules
