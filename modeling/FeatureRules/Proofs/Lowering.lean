import FeatureRules.Compilation

/-!
# What lowering depends on

A rule is lowered by way of the features and parameters that names stand for. Models that agree on
these lower every rule alike, whatever else they declare, but for its salience.
-/

namespace FeatureRules

/-- Two models in which every name stands for the same feature and for the same parameter. -/
structure Model.ReadsLike (first second : Model) : Prop where
  feature? : ∀ name, first.feature? name = second.feature? name
  parameter? : ∀ name, first.parameter? name = second.parameter? name

namespace Model.ReadsLike

variable {first second : Model}

theorem resolve_eq (alike : first.ReadsLike second) : first.resolve = second.resolve := by
  funext sigil name
  cases sigil <;> simp only [Model.resolve, alike.feature?, alike.parameter?]

theorem lower_eq (alike : first.ReadsLike second) : first.lower = second.lower := by
  have access : ∀ mention : Reference, mention.access first = mention.access second := by
    intro mention
    rw [Reference.access, Reference.access, alike.resolve_eq]
  have fragments : Fragment.lower first = Fragment.lower second := by
    funext fragment
    cases fragment with
    | literal content => rfl
    | reference mention => exact access mention
  funext text type
  rw [Model.lower, Model.lower, substitute, substitute, fragments]

theorem writeHolder_eq (alike : first.ReadsLike second) :
    first.writeHolder = second.writeHolder := by
  funext name asked
  rw [Model.writeHolder, Model.writeHolder, alike.feature?]

theorem outputType_eq (alike : first.ReadsLike second) :
    first.outputType = second.outputType := by
  funext rule
  rw [Model.outputType, Model.outputType, alike.feature?]

theorem lowerCondition_eq (alike : first.ReadsLike second) :
    first.lowerCondition = second.lowerCondition := by
  funext condition
  cases condition with
  | none => rfl
  | some text => rw [Model.lowerCondition, Model.lowerCondition, alike.lower_eq]

/-- A rule has the same lowered form in both models, up to the salience that its level gives it. -/
theorem schedule_eq
    (alike : first.ReadsLike second) (base : Int) (levels others : List (String × Nat))
    (rule : Rule) :
    second.schedule base others rule =
      { first.schedule base levels rule with salience := Salience.get base others rule.name } := by
  simp only [Model.schedule, alike.outputType_eq, alike.lowerCondition_eq, alike.lower_eq,
    alike.writeHolder_eq]

end Model.ReadsLike

end FeatureRules
