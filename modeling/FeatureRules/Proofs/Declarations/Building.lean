import FeatureRules.Proofs.Declarations.Order
import Mathlib.Data.List.Flatten
import Mathlib.Data.Set.List

/-!
# Building models

Declarations make up a model exactly when every body that says a type says one of the known types
and no name is claimed twice, be it by a rule body, by the rules of a group or by the items of a
slice. The rules of the model are then those of the plain bodies, of the groups and of the slices, in
this order.
-/

namespace FeatureRules

/-! ## Entries without faults -/

theorem map_eq_ok_iff {ε α β : Type} {entry : Except ε α} {change : α → β} {changed : β} :
    entry.map change = .ok changed ↔ ∃ value, entry = .ok value ∧ change value = changed := by
  cases entry <;> simp [Except.map]

theorem exists_map_eq_ok_iff {ε α β : Type} {entry : Except ε α} {change : α → β} :
    (∃ changed, entry.map change = .ok changed) ↔ ∃ value, entry = .ok value := by
  cases entry <;> simp [Except.map]

theorem map_ok_injective {ε α : Type} :
    Function.Injective (List.map (Except.ok : α → Except ε α)) :=
  List.map_injective_iff.mpr fun _ _ => Except.ok.inj

theorem exists_eq_map_ok_iff {ε α : Type} {entries : List (Except ε α)} :
    (∃ values : List α, entries = values.map .ok) ↔
      ∀ entry ∈ entries, ∃ value, entry = .ok value := by
  have range := Set.ext_iff.mp (Set.range_list_map (Except.ok : α → Except ε α)) entries
  simpa [eq_comm] using range

theorem map_eq_of_map_ok
    {ε α β γ : Type} {entries : List β} {read : β → Except ε α} {values : List α}
    {name : α → γ} {key : β → γ}
    (named : ∀ entry value, read entry = .ok value → name value = key entry)
    (sound : entries.map read = values.map .ok) :
    values.map name = entries.map key := by
  induction entries generalizing values with
  | nil =>
      cases values with
      | nil => rfl
      | cons value others => cases sound
  | cons entry rest inductionHypothesis =>
      cases values with
      | nil => cases sound
      | cons value others =>
          injection sound with first later
          rw [List.map_cons, List.map_cons, named entry value first, inductionHypothesis later]

/-! ## Types of bodies -/

theorem ValueType.ofName?_eq_some_iff {text : String} {type : ValueType} :
    ofName? text = some type ↔ text = type.name := by
  constructor
  · intro found
    have same := List.find?_some found
    exact (beq_iff_eq.mp same).symm
  · rintro rfl
    cases type <;> decide

/-- A type is left out, null or the name of a type. -/
def NamesType (declared : Option Json) : Prop :=
  declared = none ∨ declared = some .null ∨ ∃ type : ValueType, declared = some (.string type.name)

/-- A body that carries a value does not say a type that there is not. -/
def Json.WellTyped : Json → Prop
  | .object fields => fields.lookup "value" ≠ none → NamesType (fields.lookup "type")
  | _ => True

namespace Rule

theorem exists_readType_eq_ok_iff {name : String} {declared : Option Json} :
    (∃ type, readType name declared = .ok type) ↔ NamesType declared := by
  cases declared with
  | none => simp [readType, NamesType]
  | some body =>
      cases body with
      | string text =>
          cases known : ValueType.ofName? text with
          | none =>
              have unnamed : ∀ type : ValueType, text ≠ type.name := by
                intro type same
                rw [ValueType.ofName?_eq_some_iff.mpr same] at known
                cases known
              simp [readType, known, NamesType, unnamed]
          | some type =>
              have same := ValueType.ofName?_eq_some_iff.mp known
              have read : readType name (some (.string text)) = .ok (some type) := by
                simp only [readType, known]
              exact iff_of_true ⟨_, read⟩ (Or.inr (Or.inr ⟨type, by rw [same]⟩))
      | _ => simp [readType, NamesType]

theorem ofJson_of_value
    {name : String} {fields : List (String × Json)} {expression : Json}
    (valued : fields.lookup "value" = some expression) :
    ofJson name (.object fields) =
      (readType name (fields.lookup "type")).map fun type =>
        { name, expression, type
          condition := readCondition (fields.lookup "condition")
          holder := readHolder (fields.lookup "result") } := by
  simp only [ofJson, valued]
  rfl

theorem exists_ofJson_eq_ok_iff {name : String} {body : Json} :
    (∃ rule, ofJson name body = .ok rule) ↔ body.WellTyped := by
  cases body with
  | object fields =>
      cases valued : fields.lookup "value" with
      | none =>
          simp only [ofJson, Json.WellTyped, valued]
          simp
      | some expression =>
          rw [ofJson_of_value valued, exists_map_eq_ok_iff, exists_readType_eq_ok_iff,
            Json.WellTyped, valued]
          simp
  | _ => simp [ofJson, Json.WellTyped]

theorem name_of_ofJson
    {name : String} {body : Json} {rule : Rule} (read : ofJson name body = .ok rule) :
    rule.name = name := by
  cases body with
  | object fields =>
      cases valued : fields.lookup "value" with
      | none =>
          simp only [ofJson, valued] at read
          cases read
          rfl
      | some expression =>
          rw [ofJson_of_value valued] at read
          obtain ⟨type, _, rfl⟩ := map_eq_ok_iff.mp read
          rfl
  | _ =>
      cases read
      rfl

end Rule

/-! ## Names of groups and slices -/

namespace Group

/-- The names of the rules of a group: value and check of each member in order, then the group
itself. -/
def ruleNames (group : Group) : List String :=
  (List.range group.members.length).flatMap
      (fun index => [partName group.name index ++ "_value", partName group.name index]) ++
    [group.name]

/-- Groups under distinct names stay as they are. -/
theorem gather_of_nodup {groups : List Group} (distinct : (groups.map name).Nodup) :
    gather groups = groups := by
  rw [gather, Entries.ofList_of_nodup (by simpa [Function.comp_def] using distinct), List.map_map]
  exact List.map_id groups

theorem map_name_rules (group : Group) : group.rules.map Rule.name = group.ruleNames := by
  have indices : group.members.zipIdx.map Prod.snd = List.range group.members.length := by
    rw [List.zipIdx_map_snd, List.range_eq_range']
  rw [rules, ruleNames, List.map_append, List.map_flatMap, ← indices, List.flatMap_map]
  rfl

end Group

namespace Slice

def itemNames (slice : Slice) : List String :=
  partNames slice.name slice.items.length

theorem name_of_itemRule
    {slice : Slice} {index : Nat} {item : Json} {rule : Rule}
    (read : slice.itemRule index item = .ok rule) :
    rule.name = partName slice.name index := by
  obtain ⟨original, plain, rfl⟩ := map_eq_ok_iff.mp read
  have named : original.name = partName slice.name index := Rule.name_of_ofJson plain
  exact named

theorem map_of_rules
    {β : Type} {slice : Slice} {rules : List Rule} {image : Rule → β} {ofItem : Json × Nat → β}
    (items : ∀ item index rule,
      slice.itemRule index item = .ok rule → image rule = ofItem (item, index))
    (sound : slice.rules = rules.map .ok) :
    rules.map image = slice.items.zipIdx.map ofItem ++ [image slice.rule] := by
  obtain ⟨itemRules, last, rfl, itemsSound, lastSound⟩ := List.append_eq_map_iff.mp sound
  have itemImages : itemRules.map image = slice.items.zipIdx.map ofItem := by
    apply map_eq_of_map_ok _ itemsSound.symm
    intro entry rule read
    exact items entry.1 entry.2 rule read
  obtain ⟨whole, rfl, isWhole⟩ := List.map_eq_singleton_iff.mp lastSound
  cases isWhole
  rw [List.map_append, itemImages, List.map_singleton]

theorem names_of_rules
    {slice : Slice} {rules : List Rule} (sound : slice.rules = rules.map .ok) :
    rules.map Rule.name = slice.itemNames ++ [slice.name] := by
  have indices : slice.items.zipIdx.map Prod.snd = List.range slice.items.length := by
    rw [List.zipIdx_map_snd, List.range_eq_range']
  have named :
      rules.map Rule.name =
        (slice.items.zipIdx.map fun entry => partName slice.name entry.2) ++ [slice.name] :=
    map_of_rules (fun _ _ _ read => name_of_itemRule read) sound
  rw [named, itemNames, partNames, ← indices, List.map_map]
  rfl

/-- What the rules of each slice give, the rules of all slices give in a row. -/
theorem map_of_flatMap_rules
    {β : Type} {slices : List Slice} {rules : List Rule} {image : Rule → β}
    {ofSlice : Slice → List β}
    (each : ∀ (slice : Slice) (rules : List Rule),
      slice.rules = rules.map .ok → rules.map image = ofSlice slice)
    (sound : slices.flatMap Slice.rules = rules.map .ok) :
    rules.map image = slices.flatMap ofSlice := by
  induction slices generalizing rules with
  | nil =>
      rw [List.flatMap_nil, List.nil_eq, List.map_eq_nil_iff] at sound
      rw [sound]
      rfl
  | cons slice rest inductionHypothesis =>
      rw [List.flatMap_cons] at sound ⊢
      obtain ⟨first, later, rfl, firstSound, laterSound⟩ := List.append_eq_map_iff.mp sound
      rw [List.map_append, each slice first firstSound.symm, inductionHypothesis laterSound.symm]

theorem names_of_flatMap_rules
    {slices : List Slice} {rules : List Rule} (sound : slices.flatMap Slice.rules = rules.map .ok) :
    rules.map Rule.name = slices.flatMap fun slice => slice.itemNames ++ [slice.name] :=
  map_of_flatMap_rules (fun _ _ => names_of_rules) sound

theorem exists_itemRule_eq_ok_iff {slice : Slice} {index : Nat} {item : Json} :
    (∃ rule, slice.itemRule index item = .ok rule) ↔ item.WellTyped := by
  rw [itemRule, exists_map_eq_ok_iff, Rule.exists_ofJson_eq_ok_iff]

theorem rules_sound_iff {slice : Slice} :
    (∀ entry ∈ slice.rules, ∃ rule, entry = .ok rule) ↔ ∀ item ∈ slice.items, item.WellTyped := by
  have items : slice.items.zipIdx.map Prod.fst = slice.items := List.zipIdx_map_fst 0 slice.items
  rw [rules, List.forall_mem_append, List.forall_mem_map, ← items, List.forall_mem_map]
  simp only [exists_itemRule_eq_ok_iff, items]
  simp

end Slice

/-! ## Plain bodies and slices -/

namespace Declarations

def slice? : String × Json → Option Slice
  | (name, .array items) => some { name, items }
  | _ => none

def slices (declarations : Declarations) : List Slice :=
  declarations.rules.filterMap slice?

def plainBodies (declarations : Declarations) : List (String × Json) :=
  declarations.rules.filter fun entry => (slice? entry).isNone

end Declarations

namespace Body

theorem ofJson_of_slice?
    {entry : String × Json} {slice : Slice} (isSlice : Declarations.slice? entry = some slice) :
    ofJson entry.1 entry.2 = .ok (.slice slice) ∧ slice.name = entry.1 := by
  obtain ⟨name, body⟩ := entry
  cases body <;> cases isSlice
  exact ⟨rfl, rfl⟩

theorem ofJson_of_plain
    {entry : String × Json} (isPlain : Declarations.slice? entry = none) :
    ofJson entry.1 entry.2 = (Rule.ofJson entry.1 entry.2).map .rule := by
  obtain ⟨name, body⟩ := entry
  cases body with
  | array items => cases isPlain
  | _ => rfl

theorem name_of_ofJson
    {entry : String × Json} {content : Body} (read : ofJson entry.1 entry.2 = .ok content) :
    content.name = entry.1 := by
  cases kind : Declarations.slice? entry with
  | some slice =>
      obtain ⟨isSlice, named⟩ := ofJson_of_slice? kind
      rw [isSlice] at read
      cases read
      exact named
  | none =>
      rw [ofJson_of_plain kind] at read
      obtain ⟨rule, plain, rfl⟩ := map_eq_ok_iff.mp read
      exact Rule.name_of_ofJson plain

theorem exists_ofJson_eq_ok_iff {entry : String × Json} :
    (∃ content, ofJson entry.1 entry.2 = .ok content) ↔ entry.2.WellTyped := by
  cases kind : Declarations.slice? entry with
  | some slice =>
      obtain ⟨name, body⟩ := entry
      cases body <;> cases kind
      simp [ofJson, Json.WellTyped]
  | none =>
      rw [ofJson_of_plain kind, exists_map_eq_ok_iff, Rule.exists_ofJson_eq_ok_iff]

/-- Bodies that have been read are the declared slices and the rules of the plain bodies, each in
their order. -/
theorem slices_and_rules_of_map_ofJson
    {entries : List (String × Json)} {bodies : List Body}
    (sound : (entries.map fun entry => ofJson entry.1 entry.2) = bodies.map .ok) :
    bodies.filterMap slice? = entries.filterMap Declarations.slice? ∧
      (bodies.filterMap rule?).map Except.ok =
        (entries.filter fun entry => (Declarations.slice? entry).isNone).map fun entry =>
          Rule.ofJson entry.1 entry.2 := by
  induction entries generalizing bodies with
  | nil =>
      cases bodies with
      | nil => exact ⟨rfl, rfl⟩
      | cons body others => cases sound
  | cons entry rest inductionHypothesis =>
      cases bodies with
      | nil => cases sound
      | cons body others =>
          rw [List.map_cons, List.map_cons, List.cons.injEq] at sound
          obtain ⟨first, later⟩ := sound
          obtain ⟨slices, rules⟩ := inductionHypothesis later
          cases kind : Declarations.slice? entry with
          | some slice =>
              rw [(ofJson_of_slice? kind).1] at first
              cases first
              simp [List.filterMap_cons, slice?, rule?, kind, slices, rules]
          | none =>
              rw [ofJson_of_plain kind] at first
              obtain ⟨rule, plain, rfl⟩ := map_eq_ok_iff.mp first
              simp [List.filterMap_cons, slice?, rule?, kind, slices, rules, plain]

end Body

namespace Declarations

open scoped List

/-! ## Claimed names and listed rules -/

/-- Every body says a known type if it says one, and so does every item of a slice. -/
def WellTyped (declarations : Declarations) : Prop :=
  (∀ entry ∈ declarations.rules, entry.2.WellTyped) ∧
    ∀ slice ∈ declarations.slices, ∀ item ∈ slice.items, item.WellTyped

/-- The names that declarations lay claim to: those of all rule bodies, of the rules of groups and
of the items of slices. -/
def claimedNames (declarations : Declarations) : List String :=
  declarations.rules.map Prod.fst ++ declarations.groups.flatMap Group.ruleNames ++
    declarations.slices.flatMap Slice.itemNames

/-- The rules that declarations list: plain bodies, rules of groups, then the items of each slice
with the slice behind them. -/
def listedRules (declarations : Declarations) : List (Except ModelError Rule) :=
  (declarations.plainBodies.map fun entry => Rule.ofJson entry.1 entry.2) ++
    (declarations.groups.flatMap Group.rules).map .ok ++ declarations.slices.flatMap Slice.rules

def listedNames (declarations : Declarations) : List String :=
  declarations.plainBodies.map Prod.fst ++ declarations.groups.flatMap Group.ruleNames ++
    declarations.slices.flatMap fun slice => slice.itemNames ++ [slice.name]

theorem names_perm_plain_append_slices (entries : List (String × Json)) :
    (entries.map Prod.fst).Perm
      ((entries.filter fun entry => (slice? entry).isNone).map Prod.fst ++
        (entries.filterMap slice?).map Slice.name) := by
  induction entries with
  | nil => exact List.Perm.refl []
  | cons entry rest inductionHypothesis =>
      cases kind : slice? entry with
      | some slice =>
          have named := (Body.ofJson_of_slice? kind).2
          simp only [List.map_cons, List.filter_cons, kind, List.filterMap_cons, named,
            Option.isNone_some, Bool.false_eq_true, if_false]
          exact (inductionHypothesis.cons entry.1).trans List.perm_middle.symm
      | none =>
          simp only [List.map_cons, List.filter_cons, kind, List.filterMap_cons, Option.isNone_none,
            if_true, List.cons_append]
          exact inductionHypothesis.cons entry.1

/-- The listed rules have the claimed names, in another order. -/
theorem claimedNames_perm_listedNames (declarations : Declarations) :
    declarations.claimedNames.Perm declarations.listedNames := by
  have ruleNames := names_perm_plain_append_slices declarations.rules
  have sliceNames :
      (declarations.slices.flatMap Slice.itemNames ++ declarations.slices.map Slice.name).Perm
        (declarations.slices.flatMap fun slice => slice.itemNames ++ [slice.name]) := by
    rw [List.map_eq_flatMap]
    exact List.flatMap_append_perm declarations.slices _ _
  let plain := declarations.plainBodies.map Prod.fst
  let whole := declarations.slices.map Slice.name
  let ofGroups := declarations.groups.flatMap Group.ruleNames
  let items := declarations.slices.flatMap Slice.itemNames
  calc
    declarations.claimedNames
    _ = declarations.rules.map Prod.fst ++ (ofGroups ++ items) := List.append_assoc _ _ _
    _ ~ (plain ++ whole) ++ (ofGroups ++ items) := ruleNames.append_right _
    _ = plain ++ (whole ++ (ofGroups ++ items)) := List.append_assoc _ _ _
    _ ~ plain ++ (ofGroups ++ items ++ whole) := List.perm_append_comm.append_left plain
    _ = (plain ++ ofGroups) ++ (items ++ whole) := by simp only [List.append_assoc]
    _ ~ declarations.listedNames := sliceNames.append_left (plain ++ ofGroups)

/-- Bodies that have been read without a fault are rule bodies and, behind them, the rules of
groups. -/
theorem exists_ruleBodies_of_bodies
    {declarations : Declarations} {bodies : List Body}
    (sound : declarations.bodies = bodies.map .ok) :
    ∃ ruleBodies,
      bodies = ruleBodies ++ (declarations.groups.flatMap Group.rules).map .rule ∧
        (declarations.rules.map fun entry => Body.ofJson entry.1 entry.2) = ruleBodies.map .ok := by
  obtain ⟨ruleBodies, groupBodies, rfl, rulesSound, groupsSound⟩ :=
    List.append_eq_map_iff.mp sound
  refine ⟨ruleBodies, ?_, rulesSound.symm⟩
  congr 1
  apply map_ok_injective
  rw [groupsSound, List.map_map]
  rfl

theorem names_of_bodies
    {declarations : Declarations} {bodies : List Body}
    (sound : declarations.bodies = bodies.map .ok) :
    bodies.map Body.name =
      declarations.rules.map Prod.fst ++ declarations.groups.flatMap Group.ruleNames := by
  obtain ⟨ruleBodies, rfl, rulesSound⟩ := exists_ruleBodies_of_bodies sound
  have ruleNames : ruleBodies.map Body.name = declarations.rules.map Prod.fst := by
    apply map_eq_of_map_ok _ rulesSound
    intro entry content read
    exact Body.name_of_ofJson read
  rw [List.map_append, ruleNames, List.map_map, List.map_flatMap]
  congr 2
  funext group
  exact group.map_name_rules

theorem slices_of_bodies
    {declarations : Declarations} {bodies : List Body}
    (sound : declarations.bodies = bodies.map .ok) :
    bodies.filterMap Body.slice? = declarations.slices := by
  obtain ⟨ruleBodies, rfl, rulesSound⟩ := exists_ruleBodies_of_bodies sound
  rw [List.filterMap_append, (Body.slices_and_rules_of_map_ofJson rulesSound).1,
    List.filterMap_map]
  simp [slices, Body.slice?, Function.comp_def]

theorem rules_of_bodies
    {declarations : Declarations} {bodies : List Body}
    (sound : declarations.bodies = bodies.map .ok) :
    ∃ plain,
      bodies.filterMap Body.rule? = plain ++ declarations.groups.flatMap Group.rules ∧
        (declarations.plainBodies.map fun entry => Rule.ofJson entry.1 entry.2) =
          plain.map .ok := by
  obtain ⟨ruleBodies, rfl, rulesSound⟩ := exists_ruleBodies_of_bodies sound
  refine ⟨ruleBodies.filterMap Body.rule?, ?_, ?_⟩
  · rw [List.filterMap_append, List.filterMap_map]
    simp [Body.rule?, Function.comp_def]
  · exact (Body.slices_and_rules_of_map_ofJson rulesSound).2.symm

theorem names_of_plainRules
    {declarations : Declarations} {bodies : List Body}
    (sound : declarations.bodies = bodies.map .ok) :
    (bodies.filterMap Body.rule?).map Rule.name =
      declarations.plainBodies.map Prod.fst ++ declarations.groups.flatMap Group.ruleNames := by
  obtain ⟨plain, rules, plainSound⟩ := rules_of_bodies sound
  have plainNames : plain.map Rule.name = declarations.plainBodies.map Prod.fst := by
    apply map_eq_of_map_ok _ plainSound
    intro entry rule read
    exact Rule.name_of_ofJson read
  rw [rules, List.map_append, plainNames, List.map_flatMap]
  congr 2
  funext group
  exact group.map_name_rules

/-! ## Building -/

theorem wellTyped_iff (declarations : Declarations) :
    declarations.WellTyped ↔
      (∃ bodies : List Body, declarations.bodies = bodies.map .ok) ∧
        ∃ sliceRules : List Rule,
          declarations.slices.flatMap Slice.rules = sliceRules.map .ok := by
  have bodiesSound :
      (∀ entry ∈ declarations.bodies, ∃ content, entry = .ok content) ↔
        ∀ entry ∈ declarations.rules, entry.2.WellTyped := by
    rw [bodies, List.forall_mem_append, List.forall_mem_map, List.forall_mem_map]
    simp only [Body.exists_ofJson_eq_ok_iff]
    exact and_iff_left fun rule _ => ⟨_, rfl⟩
  have sliceRulesSound :
      (∀ entry ∈ declarations.slices.flatMap Slice.rules, ∃ rule, entry = .ok rule) ↔
        ∀ slice ∈ declarations.slices, ∀ item ∈ slice.items, item.WellTyped := by
    rw [List.forall_mem_flatMap]
    simp only [Slice.rules_sound_iff]
  rw [exists_eq_map_ok_iff, exists_eq_map_ok_iff, bodiesSound, sliceRulesSound, WellTyped]

/-- Names are claimed once each exactly when bodies and rules of slices can be enrolled. -/
theorem nodup_claimedNames_iff
    {declarations : Declarations} {bodies : List Body} {sliceRules : List Rule}
    (sound : declarations.bodies = bodies.map .ok)
    (sliceSound : declarations.slices.flatMap Slice.rules = sliceRules.map .ok) :
    declarations.claimedNames.Nodup ↔
      (bodies.map Body.name).Nodup ∧ (sliceRules.map Rule.name).Nodup ∧
        ∀ rule ∈ sliceRules, rule.name ∉ (bodies.filterMap Body.rule?).map Rule.name := by
  have claimed :
      declarations.claimedNames =
        bodies.map Body.name ++ declarations.slices.flatMap Slice.itemNames := by
    rw [names_of_bodies sound, claimedNames]
  have listed :
      declarations.listedNames =
        (bodies.filterMap Body.rule?).map Rule.name ++ sliceRules.map Rule.name := by
    rw [names_of_plainRules sound, Slice.names_of_flatMap_rules sliceSound, listedNames]
  have permuted := declarations.claimedNames_perm_listedNames
  constructor
  · intro distinct
    have listedDistinct := permuted.nodup_iff.mp distinct
    rw [listed, List.nodup_append'] at listedDistinct
    rw [claimed] at distinct
    obtain ⟨_, slicesDistinct, disjoint⟩ := listedDistinct
    refine ⟨distinct.of_append_left, slicesDistinct, ?_⟩
    intro rule member isTaken
    exact disjoint isTaken (List.mem_map_of_mem member)
  · rintro ⟨bodiesDistinct, slicesDistinct, fresh⟩
    have plainDistinct := bodiesDistinct.sublist (Body.names_rules_sublist bodies)
    rw [permuted.nodup_iff, listed]
    refine List.nodup_append'.mpr ⟨plainDistinct, slicesDistinct, ?_⟩
    intro name inPlain inSlices
    obtain ⟨rule, member, rfl⟩ := List.mem_map.mp inSlices
    exact fresh rule member inPlain

/-- The model of declarations is made up of bodies and rules of slices that have been read without a
fault, provided that no name is claimed twice. -/
theorem build_eq_ok_iff_claimed {declarations : Declarations} {model : Model} :
    declarations.build = .ok model ↔
      ∃ bodies sliceRules,
        declarations.bodies = bodies.map .ok ∧
          declarations.slices.flatMap Slice.rules = sliceRules.map .ok ∧
          declarations.claimedNames.Nodup ∧
          model = declarations.assemble bodies sliceRules := by
  rw [build_eq_ok_iff]
  simp only [enroll_eq_ok_iff]
  constructor
  · rintro ⟨bodies, sliceRules, ⟨sound, distinct, _⟩, ⟨sliceSound, slicesDistinct, fresh⟩, rfl⟩
    rw [slices_of_bodies sound] at sliceSound
    have claimedOnce :=
      (nodup_claimedNames_iff sound sliceSound).mpr ⟨distinct, slicesDistinct, fresh⟩
    exact ⟨bodies, sliceRules, sound, sliceSound, claimedOnce, rfl⟩
  · rintro ⟨bodies, sliceRules, sound, sliceSound, claimedOnce, rfl⟩
    obtain ⟨distinct, slicesDistinct, fresh⟩ :=
      (nodup_claimedNames_iff sound sliceSound).mp claimedOnce
    rw [← slices_of_bodies sound] at sliceSound
    exact
      ⟨bodies, sliceRules, ⟨sound, distinct, by simp⟩, ⟨sliceSound, slicesDistinct, fresh⟩, rfl⟩

theorem nodup_claimedNames_of_build
    {declarations : Declarations} {model : Model} (built : declarations.build = .ok model) :
    declarations.claimedNames.Nodup := by
  obtain ⟨_, _, _, _, claimedOnce, _⟩ := build_eq_ok_iff_claimed.mp built
  exact claimedOnce

/-- A group claims its own name, so no two groups have the same and none replaces another. -/
theorem groups_of_build
    {declarations : Declarations} {model : Model} (built : declarations.build = .ok model) :
    model.groups = declarations.groups := by
  have claimedOnce := nodup_claimedNames_of_build built
  have groupNames := claimedOnce.of_append_left.of_append_right
  have distinct : (declarations.groups.map Group.name).Nodup := by
    rw [List.map_eq_flatMap]
    exact
      groupNames.sublist
        (List.Sublist.flatMap_right declarations.groups fun group _ =>
          List.sublist_append_right _ [group.name])
  obtain ⟨_, _, _, _, rfl⟩ := build_eq_ok_iff.mp built
  exact Group.gather_of_nodup distinct

theorem rules_of_build
    {declarations : Declarations} {model : Model} (built : declarations.build = .ok model) :
    model.rules.map .ok = declarations.listedRules := by
  obtain ⟨bodies, sliceRules, sound, sliceSound, _, rfl⟩ := build_eq_ok_iff_claimed.mp built
  obtain ⟨plain, rules, plainSound⟩ := rules_of_bodies sound
  rw [listedRules, plainSound, sliceSound, assemble, rules, List.map_append, List.map_append]

theorem mem_rules_of_listed
    {declarations : Declarations} {model : Model} (built : declarations.build = .ok model)
    {rule : Rule} (listed : .ok rule ∈ declarations.listedRules) :
    rule ∈ model.rules := by
  rw [← rules_of_build built] at listed
  exact (List.mem_map_of_injective fun _ _ => Except.ok.inj).mp listed

theorem ruleNames_of_build
    {declarations : Declarations} {model : Model} (built : declarations.build = .ok model) :
    model.ruleNames = declarations.listedNames := by
  obtain ⟨bodies, sliceRules, sound, sliceSound, _, rfl⟩ := build_eq_ok_iff_claimed.mp built
  rw [Model.ruleNames, assemble, List.map_append, names_of_plainRules sound,
    Slice.names_of_flatMap_rules sliceSound, listedNames]

theorem exists_build_iff (declarations : Declarations) :
    (∃ model, declarations.build = .ok model) ↔
      declarations.WellTyped ∧ declarations.claimedNames.Nodup := by
  rw [wellTyped_iff]
  constructor
  · rintro ⟨model, built⟩
    obtain ⟨bodies, sliceRules, sound, sliceSound, claimedOnce, _⟩ :=
      build_eq_ok_iff_claimed.mp built
    exact ⟨⟨⟨bodies, sound⟩, sliceRules, sliceSound⟩, claimedOnce⟩
  · rintro ⟨⟨⟨bodies, sound⟩, sliceRules, sliceSound⟩, claimedOnce⟩
    exact
      ⟨_, build_eq_ok_iff_claimed.mpr ⟨bodies, sliceRules, sound, sliceSound, claimedOnce, rfl⟩⟩

/-- Declarations make up a model exactly when every type is known and no name is claimed twice. The
model lists each rule once, under its own name: plain bodies, rules of groups, then the items of
each slice with the slice behind them. -/
theorem build_iff_claimed_once (declarations : Declarations) :
    ((∃ model, declarations.build = .ok model) ↔
        declarations.WellTyped ∧ declarations.claimedNames.Nodup) ∧
      ∀ model, declarations.build = .ok model →
        model.rules.map .ok = declarations.listedRules ∧
          model.ruleNames = declarations.listedNames ∧
          model.ruleNames.Nodup ∧
          (∀ rule ∈ model.rules, model.rule? rule.name = some rule) ∧
          model.slices = declarations.slices.map Slice.name ∧
          model.groups = declarations.groups := by
  refine ⟨declarations.exists_build_iff, ?_⟩
  intro model built
  have distinct := nodup_ruleNames_of_build built
  refine ⟨rules_of_build built, ruleNames_of_build built, distinct, ?_, ?_⟩
  · intro rule member
    exact (find?_name_eq_some_iff distinct).mpr ⟨member, rfl⟩
  · obtain ⟨bodies, sliceRules, sound, _, _, rfl⟩ := build_eq_ok_iff_claimed.mp built
    exact ⟨by rw [assemble, slices_of_bodies sound], groups_of_build built⟩

/-! ## A sample -/

def region : Group :=
  { name := "region"
    members :=
      [{ template := "\x7b$state\x7d-\x7b$city\x7d", entries := .array [.string "SP-Santos"] },
        { template := "\x7b#zone\x7d", entries := .array [.string "south"] }] }

def rates : Slice :=
  { name := "rates"
    items :=
      [.string "1", .object [("value", .string "#rates_0 * 2"), ("type", .string "integer")]] }

/-- A slice ahead of two plain rules, and a group whose second member waits for one of them. -/
def regionSheet : Declarations :=
  { rules :=
      [("rates", .array rates.items), ("zone", .string "south"), ("price", .string "#rates_1")]
    groups := [region] }

def regionModel : Model :=
  let sliceRules :=
    [(Rule.plain "rates_0" (.string "1")).inContext,
      { (Rule.plain "rates_1" (.string "#rates_0 * 2")).inContext with type := some .integer },
      rates.rule]
  { features := region.features ++ sliceRules.map Rule.feature
    parameters := []
    rules :=
      [Rule.plain "zone" (.string "south"), Rule.plain "price" (.string "#rates_1")] ++
        region.rules ++ sliceRules
    groups := [region]
    slices := ["rates"] }

theorem build_regionSheet : regionSheet.build = .ok regionModel := rfl

/-- An item of one slice and another slice cannot share a name. -/
theorem build_iff_claimed_once_region :
    (∃ model, regionSheet.build = .ok model ∧
        model.ruleNames =
          ["zone", "price", "region_0_value", "region_0", "region_1_value", "region_1", "region",
            "rates_0", "rates_1", "rates"] ∧
        model.slices = ["rates"]) ∧
      ¬ ∃ model,
        Declarations.build { rules := [("rates", .array [.null]), ("rates_0", .array [])] } =
          .ok model := by
  constructor
  · obtain ⟨_, names, _, _, slices, _⟩ :=
      (build_iff_claimed_once regionSheet).2 regionModel build_regionSheet
    refine ⟨regionModel, build_regionSheet, names.trans ?_, slices⟩
    decide +kernel
  · rw [(build_iff_claimed_once _).1]
    rintro ⟨_, claimedOnce⟩
    revert claimedOnce
    decide +kernel

end Declarations

end FeatureRules
