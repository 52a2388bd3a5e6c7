import FeatureRules.Proofs.Entries
import FeatureRules.Proofs.Records

/-!
# Writing and reading features and parameters again

Features and parameters can be written in many shapes, and they are written back in one. What is read
from there is the same feature or parameter: the only field that can hold anything at all is the
default of a feature, and a default that has been read repeats no key and is not null.
-/

namespace FeatureRules

/-! ## Values that read as themselves -/

/-- A value is what the document that writes it denotes. This fails if an object repeats a key. -/
def Json.Settled (value : Json) : Prop :=
  (Document.ofJson value).json? = some value

structure Json.SettledFields (fields : List (String × Json)) : Prop where
  distinct : (fields.map Prod.fst).Nodup
  settled : ∀ field ∈ fields, field.2.Settled

namespace Document

theorem jsonItems?_cons_eq_some_iff {item : Document} {rest : List Document} {values : List Json} :
    jsonItems? (item :: rest) = some values ↔
      ∃ value later,
        item.json? = some value ∧ jsonItems? rest = some later ∧ values = value :: later := by
  cases denoted : item.json? with
  | none => simp [jsonItems?, denoted]
  | some value =>
      cases found : jsonItems? rest <;> simp [jsonItems?, denoted, found, eq_comm]

theorem jsonFields?_cons_eq_some_iff
    {key : Option String} {document : Document} {rest : List (Option String × Document)}
    {done entries : List (String × Json)} :
    jsonFields? done ((key, document) :: rest) = some entries ↔
      ∃ name value,
        key = some name ∧ document.json? = some value ∧
          jsonFields? (Entries.insert name value done) rest = some entries := by
  cases key with
  | none => simp [jsonFields?]
  | some name => cases denoted : document.json? <;> simp [jsonFields?, denoted]

theorem jsonItems?_ofItems
    {items : List Json} (settled : ∀ item ∈ items, item.Settled) :
    jsonItems? (ofItems items) = some items := by
  induction items with
  | nil => rfl
  | cons item rest inductionHypothesis =>
      rw [List.forall_mem_cons] at settled
      rw [ofItems, jsonItems?_cons_eq_some_iff]
      exact ⟨item, rest, settled.1, inductionHypothesis settled.2, rfl⟩

theorem jsonFields?_ofFields
    {done fields : List (String × Json)} (settled : Json.SettledFields (done ++ fields)) :
    jsonFields? done (ofFields fields) = some (done ++ fields) := by
  induction fields generalizing done with
  | nil => rw [ofFields, jsonFields?, List.append_nil]
  | cons field rest inductionHypothesis =>
      rcases field with ⟨key, value⟩
      have denoted : (ofJson value).json? = some value :=
        settled.settled (key, value) (List.mem_append_right done List.mem_cons_self)
      have distinct := settled.distinct
      rw [List.map_append, List.map_cons, List.nodup_middle, List.nodup_cons, List.mem_append,
        not_or] at distinct
      rw [← List.singleton_append, ← List.append_assoc] at settled
      rw [ofFields, jsonFields?_cons_eq_some_iff]
      refine ⟨key, value, rfl, denoted, ?_⟩
      rw [Entries.insert_of_not_mem value distinct.1.1, inductionHypothesis settled,
        List.append_assoc, List.singleton_append]

theorem settledFields_insert
    (key : String) {value : Json} {done : List (String × Json)} (settled : value.Settled)
    (doneSettled : Json.SettledFields done) :
    Json.SettledFields (Entries.insert key value done) := by
  refine ⟨Entries.nodup_keys_insert key value doneSettled.distinct, ?_⟩
  intro field member
  rcases Entries.eq_or_mem_of_mem_insert member with rfl | there
  · exact settled
  · exact doneSettled.settled field there

mutual

/-- What a document denotes reads as itself. -/
theorem settled_of_json? :
    ∀ {document : Document} {value : Json}, document.json? = some value → value.Settled
  | .null, _, denoted => by
      cases denoted
      rfl
  | .bool _, _, denoted => by
      cases denoted
      rfl
  | .number _, _, denoted => by
      cases denoted
      rfl
  | .string _, _, denoted => by
      cases denoted
      rfl
  | .array items, _, denoted => by
      rcases Option.map_eq_some_iff.mp denoted with ⟨values, found, rfl⟩
      rw [Json.Settled, ofJson, json?, jsonItems?_ofItems (settled_of_jsonItems? found),
        Option.map_some]
  | .object fields, _, denoted => by
      rcases Option.map_eq_some_iff.mp denoted with ⟨entries, found, rfl⟩
      have settled : Json.SettledFields ([] ++ entries) :=
        settled_of_jsonFields? found ⟨List.nodup_nil, by simp⟩
      rw [Json.Settled, ofJson, json?, jsonFields?_ofFields settled, Option.map_some,
        List.nil_append]
  | .void, _, denoted => by cases denoted
  | .cut, _, denoted => by cases denoted

theorem settled_of_jsonItems? :
    ∀ {items : List Document} {values : List Json}, jsonItems? items = some values →
      ∀ value ∈ values, value.Settled
  | [], _, found => by
      cases found
      simp
  | item :: rest, _, found => by
      rcases jsonItems?_cons_eq_some_iff.mp found with ⟨value, later, denoted, laterFound, rfl⟩
      rw [List.forall_mem_cons]
      exact ⟨settled_of_json? denoted, settled_of_jsonItems? laterFound⟩

theorem settled_of_jsonFields? :
    ∀ {fields : List (Option String × Document)} {done entries : List (String × Json)},
      jsonFields? done fields = some entries → Json.SettledFields done → Json.SettledFields entries
  | [], _, _, found, settled => by
      cases found
      exact settled
  | (key, document) :: rest, done, _, found, settled => by
      rcases jsonFields?_cons_eq_some_iff.mp found with ⟨name, value, rfl, denoted, laterFound⟩
      have entered := settledFields_insert name (settled_of_json? denoted) settled
      exact settled_of_jsonFields? laterFound entered

end

/-! ## Values that may be absent -/

theorem decodeOptional_of_ne_null
    {α : Type} (decode : Document → Except DecodeError α) {document : Document}
    (present : document ≠ null) :
    decodeOptional decode document = (decode document).map some := by
  cases document with
  | null => exact absurd rfl present
  | _ => rfl

theorem eq_null_of_json? {document : Document} (denoted : document.json? = some .null) :
    document = null := by
  cases document with
  | null => rfl
  | array items =>
      rcases Option.map_eq_some_iff.mp denoted with ⟨values, _, same⟩
      cases same
  | object fields =>
      rcases Option.map_eq_some_iff.mp denoted with ⟨entries, _, same⟩
      cases same
  | _ => cases denoted

theorem decodeJson_eq_ok_iff {document : Document} {value : Json} :
    document.decodeJson = .ok value ↔ document.json? = some value := by
  cases denoted : document.json? <;> simp [decodeJson, denoted]

theorem settled_of_decodeOptional
    {document : Document} {value : Json}
    (decoded : document.decodeOptional decodeJson = .ok (some value)) :
    value.Settled ∧ value ≠ .null := by
  have present : document ≠ null := by
    rintro rfl
    cases decoded
  rw [decodeOptional_of_ne_null decodeJson present, map_eq_ok_iff] at decoded
  rcases decoded with ⟨found, read, same⟩
  cases same
  have denoted := decodeJson_eq_ok_iff.mp read
  refine ⟨settled_of_json? denoted, ?_⟩
  rintro rfl
  exact present (eq_null_of_json? denoted)

theorem decodeOptional_ofJson {value : Json} (settled : value.Settled) (present : value ≠ .null) :
    (ofJson value).decodeOptional decodeJson = .ok (some value) := by
  have written : ofJson value ≠ null := by
    intro isNull
    rw [Json.Settled, isNull] at settled
    cases settled
    exact present rfl
  rw [decodeOptional_of_ne_null decodeJson written, decodeJson_eq_ok_iff.mpr settled]
  rfl

end Document

theorem ValueType.decode_ofJson_toJson (type : ValueType) :
    ValueType.decode (Document.ofJson type.toJson) = .ok type := by
  cases type <;> rfl

theorem ValueType.decodeOptional_orNull (type : Option ValueType) :
    (Document.ofJson (Json.orNull (type.map ValueType.toJson))).decodeOptional ValueType.decode =
      .ok type := by
  cases type with
  | none => rfl
  | some type => cases type <;> rfl

theorem Holder.ofFlag_isResult (holder : Holder) : Holder.ofFlag holder.isResult = holder := by
  cases holder <;> rfl

/-! ## Features -/

namespace Feature

def Draft.places : List (Document.Place Draft) :=
  [⟨"name", String, Draft.name, fun draft found => { draft with name := found },
      Document.decodeString⟩,
    ⟨"type", Option ValueType, Draft.type, fun draft found => { draft with type := found },
      Document.decodeOptional ValueType.decode⟩,
    ⟨"result", Bool, Draft.result, fun draft found => { draft with result := found },
      Document.decodeBool⟩,
    ⟨"default", Option Json, Draft.defaultValue,
      fun draft found => { draft with defaultValue := found },
      Document.decodeOptional Document.decodeJson⟩]

theorem Draft.takes_places : Document.Takes Draft.places Draft.set where
  known := by
    intro place member
    simp only [places, List.mem_cons, List.not_mem_nil, or_false] at member
    rcases member with rfl | rfl | rfl | rfl <;> exact fun _ _ => rfl
  unknown := by
    intro draft key value unknown
    simp only [places, List.map_cons, List.map_nil, List.mem_cons, List.not_mem_nil, or_false,
      not_or] at unknown
    rcases unknown with ⟨notName, notType, notResult, notDefault⟩
    rw [Draft.set, if_neg notName, if_neg notType, if_neg notResult, if_neg notDefault]
  once := by simp [places]
  apart := by
    simp only [places, List.pairwise_cons, List.mem_cons, List.not_mem_nil, or_false,
      forall_eq_or_imp, forall_eq, IsEmpty.forall_iff, implies_true, List.Pairwise.nil, and_true]
    refine ⟨⟨?_, ?_, ?_⟩, ⟨?_, ?_⟩, ?_⟩ <;>
      exact ⟨fun _ _ => rfl, fun _ _ => rfl, fun _ _ _ => rfl⟩

theorem decode_of_rearranged
    {document document' : Document} {feature : Feature}
    (same : Document.Rearranged ["name", "type", "result", "default"] document document')
    (decoded : decode document = .ok feature) :
    decode document' = .ok feature := by
  rcases exists_of_bind_eq_ok decoded with ⟨draft, read, finished⟩
  have readAgain := Document.decodeRecord_of_rearranged Draft.takes_places same read
  exact (congrArg (· >>= Draft.finish) readAgain).trans finished

/-- A default that has been read repeats no key and is not null. -/
theorem default_of_decode
    {document : Document} {feature : Feature} (decoded : decode document = .ok feature) :
    ∀ value ∈ feature.defaultValue, value.Settled ∧ value ≠ .null := by
  rcases exists_of_bind_eq_ok decoded with ⟨draft, read, finished⟩
  have settled :
      ∀ value, draft.defaultValue = some (some value) → value.Settled ∧ value ≠ .null := by
    apply Document.decodeRecord_preserves _ _ read
    · intro before key field after holds taken
      rcases Draft.takes_places.cases_of_set taken with ⟨place, member, _, filled⟩ | ⟨_, _, rfl⟩
      · rcases Document.Place.take_eq_ok_iff.mp filled with ⟨_, found, fieldRead, rfl⟩
        simp only [Draft.places, List.mem_cons, List.not_mem_nil, or_false] at member
        rcases member with rfl | rfl | rfl | rfl
        · exact holds
        · exact holds
        · exact holds
        · intro value given
          cases given
          exact Document.settled_of_decodeOptional fieldRead
      · exact holds
    · intro value given
      cases given
  rcases exists_of_bind_eq_ok finished with ⟨name, _, same⟩
  cases same
  intro value given
  cases kept : draft.defaultValue with
  | none => simp [kept] at given
  | some entered =>
      apply settled value
      rw [kept]
      simpa [kept] using given

theorem ofJson_toJson
    {feature : Feature}
    (settled : ∀ value ∈ feature.defaultValue, value.Settled ∧ value ≠ .null) :
    ofJson feature.toJson = .ok feature := by
  rcases feature with ⟨name, type, holder, default⟩
  have typed :
      Draft.set { name := some name } "type"
          (Document.ofJson (Json.orNull (type.map ValueType.toJson))) =
        .ok { name := some name, type := some type } := by
    rw [Draft.set, if_neg (by decide), if_pos rfl, ValueType.decodeOptional_orNull]
    rfl
  have begun (rest : List (Option String × Document)) :
      Document.setFields Draft.set {}
          ((some "name", .string name) ::
            (some "type", Document.ofJson (Json.orNull (type.map ValueType.toJson))) ::
              (some "result", .bool holder.isResult) :: rest) =
        Document.setFields Draft.set
          { name := some name, type := some type, result := some holder.isResult } rest := by
    rw [Document.setFields_cons rfl, Document.setFields_cons typed, Document.setFields_cons rfl]
  have read :
      (Document.ofJson (toJson ⟨name, type, holder, default⟩)).decodeRecord
          ["name", "type", "result", "default"] Draft.set {} =
        .ok ⟨some name, some type, some holder.isResult, default.map some⟩ := by
    cases default with
    | none => exact begun []
    | some value =>
        rcases settled value rfl with ⟨valueSettled, present⟩
        have last :
            Draft.set { name := some name, type := some type, result := some holder.isResult }
                "default" (Document.ofJson value) =
              .ok ⟨some name, some type, some holder.isResult, some (some value)⟩ := by
          rw [Draft.set, if_neg (by decide), if_neg (by decide), if_neg (by decide), if_pos rfl,
            Document.decodeOptional_ofJson valueSettled present]
          rfl
        exact (begun [(some "default", Document.ofJson value)]).trans
          (Document.setFields_cons last [])
  have defaultKept : (default.map some).getD none = default := by cases default <;> rfl
  rw [ofJson, decode, read]
  change
    Except.ok (Feature.mk name type (Holder.ofFlag holder.isResult) ((default.map some).getD none)) =
      .ok ⟨name, type, holder, default⟩
  rw [Holder.ofFlag_isResult, defaultKept]

end Feature

/-! ## Parameters -/

namespace Parameter

def Draft.places : List (Document.Place Draft) :=
  [⟨"name", String, Draft.name, fun draft found => { draft with name := found },
      Document.decodeString⟩,
    ⟨"type", ValueType, Draft.type, fun draft found => { draft with type := found },
      ValueType.decode⟩,
    ⟨"required", Bool, Draft.required, fun draft found => { draft with required := found },
      decodeFlag⟩,
    ⟨"resolver", Option String, Draft.resolver, fun draft found => { draft with resolver := found },
      Document.decodeOptional Document.decodeString⟩]

theorem Draft.takes_places : Document.Takes Draft.places Draft.set where
  known := by
    intro place member
    simp only [places, List.mem_cons, List.not_mem_nil, or_false] at member
    rcases member with rfl | rfl | rfl | rfl <;> exact fun _ _ => rfl
  unknown := by
    intro draft key value unknown
    simp only [places, List.map_cons, List.map_nil, List.mem_cons, List.not_mem_nil, or_false,
      not_or] at unknown
    rcases unknown with ⟨notName, notType, notRequired, notResolver⟩
    rw [Draft.set, if_neg notName, if_neg notType, if_neg notRequired, if_neg notResolver]
  once := by simp [places]
  apart := by
    simp only [places, List.pairwise_cons, List.mem_cons, List.not_mem_nil, or_false,
      forall_eq_or_imp, forall_eq, IsEmpty.forall_iff, implies_true, List.Pairwise.nil, and_true]
    refine ⟨⟨?_, ?_, ?_⟩, ⟨?_, ?_⟩, ?_⟩ <;>
      exact ⟨fun _ _ => rfl, fun _ _ => rfl, fun _ _ _ => rfl⟩

theorem decode_of_rearranged
    {document document' : Document} {parameter : Parameter}
    (same : Document.Rearranged ["name", "type", "required", "resolver"] document document')
    (decoded : decode document = .ok parameter) :
    decode document' = .ok parameter := by
  rcases exists_of_bind_eq_ok decoded with ⟨draft, read, finished⟩
  have readAgain := Document.decodeRecord_of_rearranged Draft.takes_places same read
  exact (congrArg (· >>= Draft.finish) readAgain).trans finished

theorem ofJson_toJson (parameter : Parameter) : ofJson parameter.toJson = .ok parameter := by
  rcases parameter with ⟨name, type, required, resolver⟩
  have typed :
      Draft.set { name := some name } "type" (Document.ofJson type.toJson) =
        .ok { name := some name, type := some type } := by
    rw [Draft.set, if_neg (by decide), if_pos rfl, ValueType.decode_ofJson_toJson]
    rfl
  have begun (rest : List (Option String × Document)) :
      Document.setFields Draft.set {}
          ((some "name", .string name) :: (some "type", Document.ofJson type.toJson) ::
            (some "required", .bool required) :: rest) =
        Document.setFields Draft.set
          { name := some name, type := some type, required := some required } rest := by
    rw [Document.setFields_cons rfl, Document.setFields_cons typed, Document.setFields_cons rfl]
  have read :
      (Document.ofJson (toJson ⟨name, type, required, resolver⟩)).decodeRecord
          ["name", "type", "required", "resolver"] Draft.set {} =
        .ok ⟨some name, some type, some required, resolver.map some⟩ := by
    cases resolver with
    | none => exact begun []
    | some resolver => exact begun [(some "resolver", .string resolver)]
  have resolverKept : (resolver.map some).getD none = resolver := by cases resolver <;> rfl
  rw [ofJson, decode, read]
  change
    Except.ok (Parameter.mk name type required ((resolver.map some).getD none)) =
      .ok ⟨name, type, required, resolver⟩
  rw [resolverKept]

end Parameter

/-! ## Both -/

/-- Exactly the features whose default repeats no key and is not null are read from what is written of
them, and so are all parameters. Every feature and every parameter that is read at all is of this
kind, and it stays the same in every other layout of its document. A JSON value is read as the
document that writes it. -/
theorem Document.record_reread_and_rearranged :
    (∀ feature : Feature,
        Feature.ofJson feature.toJson = .ok feature ↔
          ∀ value ∈ feature.defaultValue, value.Settled ∧ value ≠ .null) ∧
      (∀ parameter : Parameter, Parameter.ofJson parameter.toJson = .ok parameter) ∧
      (∀ (document : Document) (feature : Feature), Feature.decode document = .ok feature →
        Feature.ofJson feature.toJson = .ok feature ∧
          ∀ document',
            Rearranged ["name", "type", "result", "default"] document document' →
              Feature.decode document' = .ok feature) ∧
      ∀ (document : Document) (parameter : Parameter), Parameter.decode document = .ok parameter →
        Parameter.ofJson parameter.toJson = .ok parameter ∧
          ∀ document',
            Rearranged ["name", "type", "required", "resolver"] document document' →
              Parameter.decode document' = .ok parameter := by
  refine ⟨?_, Parameter.ofJson_toJson, ?_, ?_⟩
  · intro feature
    exact ⟨Feature.default_of_decode, Feature.ofJson_toJson⟩
  · intro document feature decoded
    refine ⟨Feature.ofJson_toJson (Feature.default_of_decode decoded), ?_⟩
    intro document' same
    exact Feature.decode_of_rearranged same decoded
  · intro document parameter decoded
    refine ⟨Parameter.ofJson_toJson parameter, ?_⟩
    intro document' same
    exact Parameter.decode_of_rearranged same decoded

/-- A region as an array, its type as an object and a default that repeats a key. -/
def regionItems : List Document :=
  [.string "region", .object [(some "integer", .null)], .bool false,
    .object [(some "b", .null), (some "a", .array []), (some "b", .bool true)]]

def regionFeature : Feature :=
  ⟨"region", some .integer, .context, some (.object [("b", .bool true), ("a", .array [])])⟩

/-- The same region as an object, backwards and behind a field that features do not have. -/
def regionFields : List (Option String × Document) :=
  (some "note", .array [.null]) ::
    ((["name", "type", "result", "default"].map some).zip regionItems).reverse

/-- A parameter with a spelled flag and no resolver. -/
def planFields : List (Option String × Document) :=
  [(some "required", .string "TRUE"), (some "resolver", .null), (some "type", .string "string"),
    (some "name", .string "plan")]

theorem Document.record_reread_and_rearranged_region :
    (Feature.decode (.array regionItems) = .ok regionFeature ∧
        Feature.ofJson regionFeature.toJson = .ok regionFeature ∧
          Feature.decode (.object regionFields) = .ok regionFeature) ∧
      Parameter.decode (.object planFields) = .ok ⟨"plan", .string, true, none⟩ ∧
        Parameter.ofJson (Parameter.toJson ⟨"plan", .string, true, none⟩) =
          .ok ⟨"plan", .string, true, none⟩ := by
  have region : Feature.decode (.array regionItems) = .ok regionFeature := rfl
  have plan : Parameter.decode (.object planFields) = .ok ⟨"plan", .string, true, none⟩ := rfl
  have backwards :
      Rearranged ["name", "type", "result", "default"] (.array regionItems)
        (.object regionFields) :=
    .trans (.named regionItems)
      (.trans (.ordered (List.reverse_perm _).symm) (.extended _ (by decide) rfl))
  have stable := Document.record_reread_and_rearranged
  rcases stable.2.2.1 (.array regionItems) regionFeature region with ⟨reread, elsewhere⟩
  exact ⟨⟨region, reread, elsewhere (.object regionFields) backwards⟩, plan,
    (stable.2.2.2 (.object planFields) _ plan).1⟩

end FeatureRules
