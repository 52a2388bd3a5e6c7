import FeatureRules.Proofs.Declarations.Order
import FeatureRules.Proofs.Compilation

/-!
# Where values are written and read

A rule writes its value to the result unless it or its feature keeps the value in the context. A
reference reads where the feature says, and so misses a value that only the rule keeps in the context.
-/

namespace FeatureRules

/-! ## Beginnings of texts -/

theorem startsWith_iff {start text : String} :
    startsWith start text = true ↔ start.toList <+: text.toList := by
  rw [startsWith, List.isPrefixOf_iff_prefix]

theorem startsWith_append (start rest : String) : startsWith start (start ++ rest) = true := by
  rw [startsWith_iff, String.toList_append]
  exact List.prefix_append _ _

theorem holder_eq_of_nested {first second : Holder}
    (inner : (first.name ++ ".").toList <+: (second.name ++ ".").toList) :
    first = second := by
  revert inner
  cases first <;> cases second <;> decide

/-- A text starts with a call on one holder at most. -/
theorem holder_eq_of_startsWith {text : String} {first second : Holder}
    (startsFirst : startsWith (first.name ++ ".") text = true)
    (startsSecond : startsWith (second.name ++ ".") text = true) :
    first = second := by
  rw [startsWith_iff] at startsFirst startsSecond
  rcases List.prefix_or_prefix_of_prefix startsFirst startsSecond with inner | inner
  · exact holder_eq_of_nested inner
  · exact (holder_eq_of_nested inner).symm

/-! ## Parts of texts -/

theorem join_of_mem {α : Type} (text : α → String) {entries : List α} {entry : α}
    (member : entry ∈ entries) :
    ∃ before after, String.join (entries.map text) = before ++ text entry ++ after := by
  obtain ⟨front, back, split⟩ := List.append_of_mem member
  rw [split, List.map_append, List.map_cons, String.join_append, String.join_cons,
    ← String.append_assoc]
  exact ⟨_, _, rfl⟩

/-! ## Reading -/

def Sigil.ReadsRule (sigil : Sigil) : Prop :=
  sigil = .result ∨ sigil = .synonym

namespace Model

/-- The first feature declared under a name keeps its value in the context. -/
def KeepsInContext (model : Model) (name : String) : Prop :=
  ∃ feature, model.feature? name = some feature ∧ feature.holder = .context

theorem resolve_of_readsRule (model : Model) (name : String) {sigil : Sigil}
    (reads : sigil.ReadsRule) :
    model.resolve sigil name = model.resolve .result name := by
  rcases reads with rfl | rfl
  · rfl
  · rfl

theorem exists_resolve_of_readsRule (model : Model) (name : String) {sigil : Sigil}
    (reads : sigil.ReadsRule) :
    ∃ target, model.resolve sigil name = some target ∧
      (target.holder = .context ↔ model.KeepsInContext name) := by
  rw [model.resolve_of_readsRule name reads]
  cases found : model.feature? name with
  | none =>
      refine ⟨{ holder := .result, type := none }, ?_, ?_⟩
      · simp only [resolve, found]
      · simp [KeepsInContext, found]
  | some feature =>
      refine ⟨{ holder := feature.holder, type := feature.type }, ?_, ?_⟩
      · simp only [resolve, found]
      · simp [KeepsInContext, found]

theorem access_startsWith {model : Model} {mention : Reference} {target : Target}
    (resolved : model.resolve mention.sigil mention.name = some target) :
    startsWith (target.holder.name ++ ".") (mention.access model) = true := by
  have call : ∃ rest, mention.access model = target.holder.name ++ "." ++ rest := by
    rw [Reference.access, resolved]
    simp only [Holder.read, Getter.call, String.append_assoc]
    exact ⟨_, rfl⟩
  obtain ⟨rest, call⟩ := call
  rw [call]
  exact startsWith_append _ rest

theorem startsWith_access_iff (model : Model) {mention : Reference}
    (reads : mention.sigil.ReadsRule) (holder : Holder) :
    startsWith (holder.name ++ ".") (mention.access model) = true ↔
      (holder = .context ↔ model.KeepsInContext mention.name) := by
  obtain ⟨target, resolved, kept⟩ := exists_resolve_of_readsRule model mention.name reads
  have starts := access_startsWith resolved
  rw [← kept]
  constructor
  · intro startsHolder
    rw [holder_eq_of_startsWith startsHolder starts]
  · intro same
    have equal : holder = target.holder := by
      cases holder <;> cases other : target.holder <;> simp [other] at same ⊢
    rw [equal]
    exact starts

/-- A reference to the value of a rule reads the context exactly if the feature keeps the value
there. -/
theorem startsWith_ctx_iff (model : Model) {mention : Reference}
    (reads : mention.sigil.ReadsRule) :
    startsWith "ctx." (mention.access model) = true ↔ model.KeepsInContext mention.name := by
  have start : Holder.context.name ++ "." = "ctx." := by decide
  rw [← start, model.startsWith_access_iff reads .context]
  simp

theorem startsWith_result_iff (model : Model) {mention : Reference}
    (reads : mention.sigil.ReadsRule) :
    startsWith "result." (mention.access model) = true ↔
      ¬ model.KeepsInContext mention.name := by
  have start : Holder.result.name ++ "." = "result." := by decide
  rw [← start, model.startsWith_access_iff reads .result]
  simp

/-! ## Writing -/

/-- A value is written to the context if its rule or its feature says so. -/
theorem writeHolder_eq_context_iff {model : Model} {name : String} {asked : Holder} :
    model.writeHolder name asked = .context ↔ asked = .context ∨ model.KeepsInContext name := by
  cases found : model.feature? name with
  | none => simp [writeHolder, KeepsInContext, found]
  | some feature =>
      cases asked <;> simp [writeHolder, KeepsInContext, found, Holder.meet]

@[simp]
theorem schedule_holder (model : Model) (base : Int) (levels : List (String × Nat))
    (rule : Rule) :
    (model.schedule base levels rule).holder = model.writeHolder rule.name rule.holder :=
  rfl

theorem schedule_mem_rules {model : Model} {base : Int} {schedule : Schedule}
    (compiled : model.compile base = .ok schedule) {rule : Rule} (inModel : rule ∈ model.rules) :
    model.schedule base schedule.levels rule ∈ schedule.rules := by
  rw [(levels_and_rules_of_compile compiled).2]
  exact List.mem_map_of_mem inModel

theorem rule?_of_compile {declarations : Declarations} {model : Model} {base : Int}
    {schedule : Schedule} (built : declarations.build = .ok model)
    (compiled : model.compile base = .ok schedule) {rule : Rule} (inModel : rule ∈ model.rules) :
    schedule.rule? rule.name = some (model.schedule base schedule.levels rule) := by
  have distinct : (schedule.rules.map ScheduledRule.name).Nodup := by
    rw [scheduledNames_of_compile compiled]
    exact nodup_ruleNames_of_build built
  exact (find?_name_eq_some_iff distinct).mpr ⟨schedule_mem_rules compiled inModel, rfl⟩

/-! ## Calls in scheduled rules -/

theorem substitute_of_mem (model : Model) {text : String} {mention : Reference}
    (occurs : .reference mention ∈ Fragment.split text) :
    ∃ before after, model.substitute text = before ++ mention.access model ++ after :=
  join_of_mem _ occurs

theorem split_true : Fragment.split "true" = [.literal "true"] := by decide +kernel

/-- Conditions are lowered like all other texts. The one that always holds has no references. -/
theorem lowerCondition_some (model : Model) (condition : String) :
    model.lowerCondition (some condition) = model.substitute condition := by
  by_cases always : condition = "true"
  · subst always
    rw [substitute, split_true]
    rfl
  · rw [lowerCondition, if_neg always]
    rfl

end Model

def ScheduledRule.Emits (rule : ScheduledRule) (call : String) : Prop :=
  (∃ before after, rule.expression = conform rule.type (before ++ call ++ after)) ∨
    ∃ before after, rule.condition = before ++ call ++ after

namespace Model

theorem emits_access {model : Model} {base : Int} {levels : List (String × Nat)} {rule : Rule}
    {text : String} (isText : text = rule.expressionText ∨ rule.condition = some text)
    {mention : Reference} (occurs : .reference mention ∈ Fragment.split text) :
    (model.schedule base levels rule).Emits (mention.access model) := by
  obtain ⟨before, after, lowered⟩ := model.substitute_of_mem occurs
  rcases isText with rfl | condition
  · refine Or.inl ⟨before, after, ?_⟩
    rw [← lowered]
    rfl
  · refine Or.inr ⟨before, after, ?_⟩
    rw [← lowered, ← lowerCondition_some, ← condition]
    rfl

theorem split_priceText :
    Fragment.split "#rate + #fee" =
      [.reference ⟨.result, "rate", [], none⟩, .literal " + ",
        .reference ⟨.result, "fee", [], none⟩] := by decide +kernel

/-- Wherever a rule text refers to a rule, what is written to the result is read from the result.
What is written to the context is read from there exactly if the feature of the name keeps it there:
a value that only its rule keeps in the context is looked for in the result. -/
theorem access_reads_written_iff {declarations : Declarations} {model : Model} {base : Int}
    {schedule : Schedule} (built : declarations.build = .ok model)
    (compiled : model.compile base = .ok schedule) {rule : Rule} (inModel : rule ∈ model.rules)
    {text : String} (isText : text = rule.expressionText ∨ rule.condition = some text)
    {mention : Reference} (occurs : .reference mention ∈ Fragment.split text)
    (reads : mention.sigil.ReadsRule) {target : Rule} (targetInModel : target ∈ model.rules)
    (named : target.name = mention.name) :
    ∃ reader writer,
      schedule.rule? rule.name = some reader ∧ schedule.rule? mention.name = some writer ∧
        reader.Emits (mention.access model) ∧
        (writer.holder = .result → startsWith "result." (mention.access model) = true) ∧
        (writer.holder = .context →
          (startsWith "ctx." (mention.access model) = true ↔
            model.KeepsInContext mention.name)) ∧
        (startsWith (writer.holder.name ++ ".") (mention.access model) = true ↔
          (target.holder = .context → model.KeepsInContext mention.name)) := by
  refine
    ⟨_, _, rule?_of_compile built compiled inModel,
      named ▸ rule?_of_compile built compiled targetInModel, emits_access isText occurs, ?_, ?_, ?_⟩
  · intro toResult
    rw [model.startsWith_result_iff reads, ← named]
    intro kept
    rw [schedule_holder, writeHolder_eq_context_iff.mpr (Or.inr kept)] at toResult
    cases toResult
  · intro _
    exact model.startsWith_ctx_iff reads
  · rw [model.startsWith_access_iff reads, schedule_holder, writeHolder_eq_context_iff, named]
    tauto

theorem access_reads_written_rate :
    ∃ schedule reader writer, priceModel.compile 1000 = .ok schedule ∧
      schedule.rule? "price" = some reader ∧ schedule.rule? "rate" = some writer ∧
      writer.holder = .context ∧
      reader.Emits (Reference.access priceModel ⟨.result, "rate", [], none⟩) ∧
      startsWith "ctx." (Reference.access priceModel ⟨.result, "rate", [], none⟩) = true := by
  obtain ⟨schedule, compiled, _⟩ := exists_compile_priceModel
  have occurs : .reference ⟨.result, "rate", [], none⟩ ∈ Fragment.split "#rate + #fee" := by
    simp [split_priceText]
  obtain ⟨reader, writer, readerFound, writerFound, emitted, _, fromContext, _⟩ :=
    access_reads_written_iff build_priceSheet compiled List.mem_cons_self (Or.inl rfl) occurs
      (Or.inl rfl) (List.mem_cons_of_mem _ List.mem_cons_self) rfl
  have scheduled : schedule.rule? "rate" = some _ :=
    rule?_of_compile build_priceSheet compiled (List.mem_cons_of_mem _ List.mem_cons_self)
  have kept : priceModel.KeepsInContext "rate" := ⟨_, rfl, rfl⟩
  have toContext : writer.holder = .context := by
    rw [writerFound] at scheduled
    cases scheduled
    rw [schedule_holder]
    exact writeHolder_eq_context_iff.mpr (Or.inr kept)
  exact
    ⟨schedule, reader, writer, compiled, readerFound, writerFound, toContext, emitted,
      (fromContext toContext).mpr kept⟩

/-- The fee is written to the context and looked for in the result. -/
theorem fee_not_read_from_context :
    ∃ schedule reader writer, priceSheet.build = .ok priceModel ∧
      priceModel.compile 1000 = .ok schedule ∧
      schedule.rule? "price" = some reader ∧ schedule.rule? "fee" = some writer ∧
      writer.holder = .context ∧
      reader.Emits (Reference.access priceModel ⟨.result, "fee", [], none⟩) ∧
      startsWith "ctx." (Reference.access priceModel ⟨.result, "fee", [], none⟩) = false := by
  obtain ⟨schedule, compiled, _⟩ := exists_compile_priceModel
  have occurs : .reference ⟨.result, "fee", [], none⟩ ∈ Fragment.split "#rate + #fee" := by
    simp [split_priceText]
  refine
    ⟨schedule, _, _, build_priceSheet, compiled,
      rule?_of_compile build_priceSheet compiled List.mem_cons_self,
      rule?_of_compile build_priceSheet compiled
        (List.mem_cons_of_mem _ (List.mem_cons_of_mem _ List.mem_cons_self)),
      ?_, emits_access (Or.inl rfl) occurs, ?_⟩
  · rw [schedule_holder]
    exact writeHolder_eq_context_iff.mpr (Or.inl rfl)
  · rw [Bool.eq_false_iff, ne_eq, startsWith_ctx_iff priceModel (Or.inl rfl)]
    intro kept
    rcases kept with ⟨feature, declared, _⟩
    cases declared

end Model

end FeatureRules
