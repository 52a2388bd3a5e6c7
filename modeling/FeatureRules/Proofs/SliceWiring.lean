import FeatureRules.Proofs.PartReferences

/-!
# Wiring of slices

The items of a slice are kept in the context, and the slice collects them from there. It reads each
item with the getter of the type that the body of the item says, unless another feature is declared
under the name of the item, and it fires right after the last of them.
-/

namespace FeatureRules

def ValueType.ofField? : Option Json → Option ValueType
  | some (.string text) => ofName? text
  | _ => none

/-- The type that a body says, if it carries a value and says a type of its own. -/
def Json.declaredType? : Json → Option ValueType
  | .object fields =>
      if (fields.lookup "value").isSome then ValueType.ofField? (fields.lookup "type") else none
  | _ => none

/-! ## Rules of a slice -/

theorem Rule.readType_eq_ok
    {name : String} {declared : Option Json} {type : Option ValueType}
    (read : readType name declared = .ok type) :
    type = ValueType.ofField? declared := by
  cases declared with
  | none =>
      cases read
      rfl
  | some body =>
      cases body with
      | null =>
          cases read
          rfl
      | string text =>
          cases known : ValueType.ofName? text with
          | none => simp [readType, known] at read
          | some found =>
              simp only [readType, known, Except.ok.injEq] at read
              rw [← read, ValueType.ofField?, known]
      | _ => cases read

theorem Rule.type_of_ofJson
    {name : String} {body : Json} {rule : Rule} (read : ofJson name body = .ok rule) :
    rule.type = body.declaredType? := by
  cases body with
  | object fields =>
      cases valued : fields.lookup "value" with
      | none =>
          simp only [ofJson, valued] at read
          cases read
          simp [plain, Json.declaredType?, valued]
      | some expression =>
          rw [ofJson_of_value valued] at read
          obtain ⟨type, typed, rfl⟩ := map_eq_ok_iff.mp read
          simp [readType_eq_ok typed, Json.declaredType?, valued]
  | _ =>
      cases read
      rfl

namespace Slice

variable {slice : Slice} {index : Nat} {item : Json}

theorem itemRule_mem_rules (isItem : slice.items[index]? = some item) :
    slice.itemRule index item ∈ slice.rules := by
  apply List.mem_append_left
  exact List.mem_map.mpr ⟨(item, index), List.mk_mem_zipIdx_iff_getElem?.mpr isItem, rfl⟩

/-- Items are kept in the context whatever they ask for. -/
theorem holder_and_type_of_itemRule
    {rule : Rule} (read : slice.itemRule index item = .ok rule) :
    rule.holder = .context ∧ rule.type = item.declaredType? := by
  obtain ⟨original, plain, rfl⟩ := map_eq_ok_iff.mp read
  have typed : original.type = item.declaredType? := Rule.type_of_ofJson plain
  exact ⟨rfl, typed⟩

end Slice

namespace Model

variable {declarations : Declarations} {model : Model} {base : Int} {schedule : Schedule}
  {slice : Slice}

/-! ## Items -/

/-- An item of a slice as it is scheduled: it has the type that its body says, and a line in the text
of its block writes it to the context. -/
structure ItemWired (schedule : Schedule) (name : String) (body : Json) (item : ScheduledRule) :
    Prop where
  found : schedule.rule? name = some item
  typed : item.type = body.declaredType?
  kept : item.holder = .context
  block : Grl.ruleBlock item ∈ schedule.blocks
  written :
    (Grl.ruleBlock item).actions =
      [Grl.assignment .context (if body.declaredType? = some .slice then "AddItems" else "Put") name
        item.expression]
  line :
    schedule.Writes (Grl.ruleBlock item)
      ("ctx." ++ (if body.declaredType? = some .slice then "AddItems" else "Put") ++ "(\"" ++ name ++
        "\", " ++ item.expression ++ ")")

theorem exists_itemRule_of_build
    (built : declarations.build = .ok model) (declared : slice ∈ declarations.slices)
    {index : Nat} {item : Json} (isItem : slice.items[index]? = some item) :
    ∃ rule ∈ model.rules, slice.itemRule index item = .ok rule := by
  have wellTyped := (Declarations.exists_build_iff declarations).mp ⟨model, built⟩
  have itemTyped := wellTyped.1.2 slice declared item (List.mem_of_getElem? isItem)
  have readable : ∃ rule, slice.itemRule index item = .ok rule :=
    Slice.exists_itemRule_eq_ok_iff.mpr itemTyped
  obtain ⟨rule, read⟩ := readable
  refine ⟨rule, ?_, read⟩
  apply Declarations.mem_rules_of_listed built
  apply List.mem_append_right
  rw [← read]
  exact List.mem_flatMap.mpr ⟨slice, declared, Slice.itemRule_mem_rules isItem⟩

/-- Unless another feature is declared under the name of an item, the feature of the item keeps it in
the context and has the type that its body says. -/
theorem feature?_of_item
    (built : declarations.build = .ok model) (declared : slice ∈ declarations.slices)
    (undeclared : ∀ feature ∈ declarations.features, feature.name ∉ slice.itemNames)
    {index : Nat} {item : Json} (isItem : slice.items[index]? = some item) :
    ∃ feature,
      model.feature? (partName slice.name index) = some feature ∧
        feature.holder = .context ∧ feature.type = item.declaredType? := by
  obtain ⟨rule, _, read⟩ := exists_itemRule_of_build built declared isItem
  have named := Slice.name_of_itemRule read
  have ofSlice : .ok rule ∈ slice.rules := by
    rw [← read]
    exact Slice.itemRule_mem_rules isItem
  have free : ∀ feature ∈ declarations.features, feature.name ≠ rule.name := by
    intro feature isDeclared same
    have indexBound := (List.getElem?_eq_some_iff.mp isItem).1
    apply undeclared feature isDeclared
    rw [same, named]
    exact List.mem_map_of_mem (List.mem_range.mpr indexBound)
  have found := Declarations.feature?_of_slice built declared ofSlice free
  rw [named] at found
  exact ⟨rule.feature, found, Slice.holder_and_type_of_itemRule read⟩

theorem access_of_item
    (built : declarations.build = .ok model) (declared : slice ∈ declarations.slices)
    (undeclared : ∀ feature ∈ declarations.features, feature.name ∉ slice.itemNames)
    {index : Nat} {item : Json} (isItem : slice.items[index]? = some item) :
    (Reference.named .result (partName slice.name index)).access model =
      "ctx." ++ (Getter.ofType item.declaredType?).name ++ "(\"" ++ partName slice.name index ++
        "\")" := by
  obtain ⟨feature, found, kept, typed⟩ := feature?_of_item built declared undeclared isItem
  have start : "ctx." = "ctx" ++ "." := by decide
  rw [access_of_feature? found, kept, typed, Holder.read_eq, start]
  simp only [String.append_assoc, Holder.name]

theorem itemWired_of_compile
    (built : declarations.build = .ok model) (compiled : model.compile base = .ok schedule)
    (declared : slice ∈ declarations.slices)
    (undeclared : ∀ feature ∈ declarations.features, feature.name ∉ slice.itemNames)
    {index : Nat} {item : Json} (isItem : slice.items[index]? = some item) :
    ∃ scheduled, ItemWired schedule (partName slice.name index) item scheduled := by
  obtain ⟨rule, inModel, read⟩ := exists_itemRule_of_build built declared isItem
  have named := Slice.name_of_itemRule read
  obtain ⟨asked, typed⟩ := Slice.holder_and_type_of_itemRule read
  obtain ⟨feature, found, _, featureTyped⟩ := feature?_of_item built declared undeclared isItem
  have outputTyped : model.outputType rule = item.declaredType? := by
    rw [outputType, typed, named, found]
    cases said : item.declaredType? with
    | none => exact featureTyped.trans said
    | some type => rfl
  have kept : model.writeHolder rule.name rule.holder = .context :=
    writeHolder_eq_context_iff.mpr (Or.inl asked)
  have isBlock := Schedule.ruleBlock_mem_blocks (schedule_mem_rules compiled inModel)
  have written :
      (Grl.ruleBlock (model.schedule base schedule.levels rule)).actions =
        [Grl.assignment .context (if item.declaredType? = some .slice then "AddItems" else "Put")
          (partName slice.name index) (model.schedule base schedule.levels rule).expression] := by
    rw [← outputTyped, ← kept, ← named]
    rfl
  refine ⟨model.schedule base schedule.levels rule,
    { found := ?_
      typed := outputTyped
      kept := kept
      block := isBlock
      written := written
      line := ?_ }⟩
  · rw [← named]
    exact rule?_of_compile built compiled inModel
  · rw [← Grl.assignment_context]
    apply Schedule.writes_of_mem_actions isBlock
    rw [written]
    exact List.mem_cons_self

/-! ## The slice -/

theorem expression_slice
    (built : declarations.build = .ok model) (declared : slice ∈ declarations.slices)
    (referable : Referable slice.name)
    (undeclared : ∀ feature ∈ declarations.features, feature.name ∉ slice.itemNames)
    (levels : List (String × Nat)) :
    (model.schedule base levels slice.rule).expression =
      String.intercalate ", "
        (slice.items.mapIdx fun index item =>
          "ctx." ++ (Getter.ofType item.declaredType?).name ++ "(\"" ++ partName slice.name index ++
            "\")") := by
  have lowered :
      (model.schedule base levels slice.rule).expression =
        String.intercalate ", "
          (slice.itemNames.map fun name => (Reference.named .result name).access model) :=
    substitute_joinReferences model Slice.neutral_comma (isWord_of_mem_partNames referable _)
  rw [lowered]
  congr 1
  apply List.ext_getElem
  · simp [Slice.itemNames, partNames]
  · intro index _ inRange
    rw [List.length_mapIdx] at inRange
    have isItem := List.getElem?_eq_getElem inRange
    simpa [Slice.itemNames, partNames] using access_of_item built declared undeclared isItem

theorem level?_sliceRule
    (built : declarations.build = .ok model) (compiled : model.compile base = .ok schedule)
    (declared : slice ∈ declarations.slices) (referable : Referable slice.name)
    (inhabited : slice.items ≠ []) :
    ∃ highest,
      schedule.level? slice.name = some (highest + 1) ∧
        IsGreatest { level | ∃ name ∈ slice.itemNames, schedule.level? name = some level }
          highest := by
  have inModel := Declarations.mem_rules_of_slice built declared
  have waits : slice.rule.dependencies = slice.itemNames :=
    slice.dependencies_rule_iff.mpr (Or.inr referable)
  rw [← waits]
  apply level?_of_dependencies built compiled inModel
  · rw [waits, Slice.itemNames, partNames]
    simpa using inhabited
  · rw [waits]
    exact Declarations.itemNames_subset_ruleNames built declared

/-- A slice collects its items from the context, in order and each with the getter of the type that
its body says. A line in the text of its block adds them to the slice, and it fires right above the
highest of them. Each item is written to the context, even if its body asks for the result. -/
theorem slice_wired
    (built : declarations.build = .ok model) (compiled : model.compile base = .ok schedule)
    (declared : slice ∈ declarations.slices) (referable : Referable slice.name)
    (inhabited : slice.items ≠ [])
    (undeclared : ∀ feature ∈ declarations.features, feature.name ∉ slice.itemNames) :
    ∃ whole highest,
      schedule.rule? slice.name = some whole ∧
      whole.expression =
        String.intercalate ", "
          (slice.items.mapIdx fun index item =>
            "ctx." ++ (Getter.ofType item.declaredType?).name ++ "(\"" ++
              partName slice.name index ++ "\")") ∧
      whole.type = some .slice ∧
      (Grl.ruleBlock whole ∈ schedule.blocks ∧
        (Grl.ruleBlock whole).actions =
          [Grl.assignment whole.holder "AddItems" slice.name whole.expression] ∧
        schedule.Writes (Grl.ruleBlock whole)
          (whole.holder.name ++ ".AddItems(\"" ++ slice.name ++ "\", " ++ whole.expression ++
            ")")) ∧
      schedule.level? slice.name = some (highest + 1) ∧
      IsGreatest { level | ∃ name ∈ slice.itemNames, schedule.level? name = some level }
        highest ∧
      ∀ index item, slice.items[index]? = some item →
        ∃ scheduled, ItemWired schedule (partName slice.name index) item scheduled := by
  have inModel := Declarations.mem_rules_of_slice built declared
  have isBlock := Schedule.ruleBlock_mem_blocks (schedule_mem_rules compiled inModel)
  obtain ⟨highest, wholeLevel, greatest⟩ :=
    level?_sliceRule built compiled declared referable inhabited
  refine
    ⟨model.schedule base schedule.levels slice.rule, highest,
      rule?_of_compile built compiled inModel,
      expression_slice built declared referable undeclared schedule.levels, rfl,
      ⟨isBlock, rfl, ?_⟩, wholeLevel, greatest, ?_⟩
  · rw [← Grl.assignment_addItems]
    exact Schedule.writes_ruleBlock (schedule_mem_rules compiled inModel)
  · intro index item isItem
    exact itemWired_of_compile built compiled declared undeclared isItem

/-! ## A sample -/

/-- An item that says a type and asks for the result, and one that refers to it. -/
def fees : Slice :=
  { name := "fees"
    items :=
      [.object [("value", .string "$base * 2"), ("type", .string "integer"), ("result", .bool true)],
        .string "#fees_0 + 1"] }

/-- The slice with a feature of its own, an integer kept in the context. -/
def feesSheet : Declarations :=
  { features :=
      [{ name := "fees", type := some .integer, holder := .context, defaultValue := none }]
    rules := [("fees", .array fees.items)] }

def feesModel : Model :=
  let items :=
    [{ (Rule.plain "fees_0" (.string "$base * 2")).inContext with type := some .integer },
      (Rule.plain "fees_1" (.string "#fees_0 + 1")).inContext]
  { features := feesSheet.features ++ items.map Rule.feature
    parameters := []
    rules := items ++ [fees.rule]
    groups := []
    slices := ["fees"] }

theorem slice_wired_fees :
    ∃ schedule whole item,
      feesSheet.build = .ok feesModel ∧
        feesModel.compile 1000 = .ok schedule ∧
        schedule.rule? "fees" = some whole ∧
        whole.expression = "ctx.GetInt(\"fees_0\"), ctx.Get(\"fees_1\")" ∧
        whole.type = some .slice ∧
        schedule.Writes (Grl.ruleBlock whole)
          "ctx.AddItems(\"fees\", ctx.GetInt(\"fees_0\"), ctx.Get(\"fees_1\"))" ∧
        schedule.level? "fees" = some 2 ∧
        ItemWired schedule "fees_0"
          (.object
            [("value", .string "$base * 2"), ("type", .string "integer"), ("result", .bool true)])
          item := by
  have built : feesSheet.build = .ok feesModel := rfl
  have found : feesModel.levels = .ok [("fees_0", 0), ("fees_1", 1), ("fees", 2)] := by
    decide +kernel
  obtain ⟨schedule, compiled, levels⟩ := exists_compile_of_levels_ok 1000 found
  have declared : fees ∈ feesSheet.slices := List.mem_cons_self
  have referable : Referable fees.name := by decide
  have undeclared : ∀ feature ∈ feesSheet.features, feature.name ∉ fees.itemNames := by
    intro feature isDeclared
    rw [List.mem_singleton.mp isDeclared]
    decide +kernel
  obtain ⟨whole, _, wholeFound, collected, typed, ⟨_, _, added⟩, _, _, items⟩ :=
    slice_wired built compiled declared referable (List.cons_ne_nil _ _) undeclared
  obtain ⟨item, wired⟩ := items 0 _ rfl
  have firstName : partName fees.name 0 = "fees_0" := by decide +kernel
  rw [firstName] at wired
  have expression : whole.expression = "ctx.GetInt(\"fees_0\"), ctx.Get(\"fees_1\")" :=
    collected.trans (by decide +kernel)
  have kept : whole.holder = .context := by
    have inModel : fees.rule ∈ feesModel.rules := List.mem_append_right _ List.mem_cons_self
    have scheduled := rule?_of_compile built compiled inModel
    rw [← Option.some.inj (scheduled.symm.trans wholeFound)]
    rfl
  refine
    ⟨schedule, whole, item, built, compiled, wholeFound, expression, typed, ?_, ?_, wired⟩
  · rw [expression, kept] at added
    have line :
        Holder.context.name ++ ".AddItems(\"" ++ fees.name ++ "\", " ++
            "ctx.GetInt(\"fees_0\"), ctx.Get(\"fees_1\")" ++ ")" =
          "ctx.AddItems(\"fees\", ctx.GetInt(\"fees_0\"), ctx.Get(\"fees_1\"))" := by
      decide +kernel
    rwa [line] at added
  · rw [Schedule.level?, levels]
    rfl

end Model

end FeatureRules
