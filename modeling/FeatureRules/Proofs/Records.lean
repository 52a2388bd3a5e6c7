import FeatureRules.Proofs.Declarations.Building
import Mathlib.Data.List.Pairwise

/-!
# Records and the ways to lay them out

A record is read field by field. What taking up one field preserves, reading the record preserves,
and a record whose fields do not depend on one another is the same in every layout: as an array, with
its fields in any order, and among fields that it does not have.
-/

namespace FeatureRules

namespace Document

/-! ## Places -/

/-- The place of a field in a draft, and how the value of the field is read. -/
structure Place (σ : Type) where
  key : String
  Value : Type
  get : σ → Option Value
  put : σ → Option Value → σ
  read : Document → Except DecodeError Value

namespace Place

variable {σ : Type} {draft final : σ} {value : Document}

def take (place : Place σ) (draft : σ) (value : Document) : Except DecodeError σ := do
  return place.put draft (← fill (place.get draft) (place.read value))

theorem take_eq_ok_iff {place : Place σ} :
    place.take draft value = .ok final ↔
      place.get draft = none ∧
        ∃ found, place.read value = .ok found ∧ final = place.put draft (some found) := by
  unfold take
  cases place.get draft with
  | some old => simp [fill, bind, Except.bind]
  | none =>
      cases place.read value <;>
        simp [fill, Except.map, bind, Except.bind, pure, Except.pure, eq_comm]

/-- Different places: filling one changes nothing about the other. -/
structure Apart (first second : Place σ) : Prop where
  secondKept : ∀ draft found, second.get (first.put draft found) = second.get draft
  firstKept : ∀ draft found, first.get (second.put draft found) = first.get draft
  comm : ∀ draft found found',
    second.put (first.put draft found) found' = first.put (second.put draft found') found

instance : Std.Symm (@Apart σ) where
  symm _ _ apart :=
    { secondKept := apart.firstKept
      firstKept := apart.secondKept
      comm := fun draft found found' => (apart.comm draft found' found).symm }

theorem Apart.take_swap
    {first second : Place σ} (apart : first.Apart second) {middle : σ} {value' : Document}
    (firstTaken : first.take draft value = .ok middle)
    (secondTaken : second.take middle value' = .ok final) :
    ∃ other, second.take draft value' = .ok other ∧ first.take other value = .ok final := by
  rcases take_eq_ok_iff.mp firstTaken with ⟨firstEmpty, found, firstRead, rfl⟩
  rcases take_eq_ok_iff.mp secondTaken with ⟨secondEmpty, found', secondRead, rfl⟩
  rw [apart.secondKept] at secondEmpty
  refine
    ⟨second.put draft (some found'), take_eq_ok_iff.mpr ⟨secondEmpty, found', secondRead, rfl⟩, ?_⟩
  rw [apart.comm]
  exact take_eq_ok_iff.mpr
    ⟨(apart.firstKept draft _).trans firstEmpty, found, firstRead, rfl⟩

end Place

theorem ignore_eq_ok_iff {σ : Type} {draft final : σ} {value : Document} :
    ignore draft value = .ok final ↔ value.intact = true ∧ final = draft := by
  by_cases intact : value.intact = true <;> simp [ignore, intact, eq_comm]

/-- Taking up fields of a record: a field that has a place fills it, once, and no other place. Other
fields are passed over. -/
structure Takes {σ : Type} (places : List (Place σ))
    (set : σ → String → Document → Except DecodeError σ) : Prop where
  known : ∀ place ∈ places, ∀ draft value, set draft place.key value = place.take draft value
  unknown : ∀ draft key value, key ∉ places.map Place.key →
    set draft key value = ignore draft value
  once : ∀ place ∈ places, ∀ draft found, place.get (place.put draft (some found)) ≠ none
  apart : places.Pairwise Place.Apart

namespace Takes

variable {σ : Type} {places : List (Place σ)}
  {set : σ → String → Document → Except DecodeError σ} {draft middle final : σ}
  {key key' : String} {value value' : Document}

theorem cases_of_set (takes : Takes places set) (taken : set draft key value = .ok final) :
    (∃ place ∈ places, place.key = key ∧ place.take draft value = .ok final) ∨
      key ∉ places.map Place.key ∧ value.intact = true ∧ final = draft := by
  by_cases isKnown : key ∈ places.map Place.key
  · rcases List.mem_map.mp isKnown with ⟨place, member, rfl⟩
    rw [takes.known place member] at taken
    exact Or.inl ⟨place, member, rfl, taken⟩
  · rw [takes.unknown draft key value isKnown] at taken
    exact Or.inr ⟨isKnown, ignore_eq_ok_iff.mp taken⟩

theorem set_of_unknown
    (takes : Takes places set) (unknown : key ∉ places.map Place.key)
    (intact : value.intact = true) (draft : σ) :
    set draft key value = .ok draft := by
  rw [takes.unknown draft key value unknown]
  exact ignore_eq_ok_iff.mpr ⟨intact, rfl⟩

theorem take_swap
    (takes : Takes places set) {first second : Place σ} (firstMember : first ∈ places)
    (secondMember : second ∈ places) (firstTaken : first.take draft value = .ok middle)
    (secondTaken : second.take middle value' = .ok final) :
    ∃ other, second.take draft value' = .ok other ∧ first.take other value = .ok final := by
  by_cases same : first = second
  · -- A place that has just been filled cannot be filled again.
    subst same
    rcases Place.take_eq_ok_iff.mp firstTaken with ⟨_, found, _, rfl⟩
    exact absurd (Place.take_eq_ok_iff.mp secondTaken).1 (takes.once first firstMember draft found)
  · have apart := takes.apart.forall firstMember secondMember same
    exact apart.take_swap firstTaken secondTaken

theorem swap
    (takes : Takes places set) (first : set draft key value = .ok middle)
    (second : set middle key' value' = .ok final) :
    ∃ other, set draft key' value' = .ok other ∧ set other key value = .ok final := by
  rcases takes.cases_of_set first with ⟨place, member, rfl, taken⟩ | ⟨unknown, intact, rfl⟩
  · rcases takes.cases_of_set second with ⟨place', member', rfl, taken'⟩ | ⟨unknown', intact', rfl⟩
    · rw [takes.known place' member']
      simp only [takes.known place member]
      exact takes.take_swap member member' taken taken'
    · exact ⟨draft, takes.set_of_unknown unknown' intact' draft, first⟩
  · exact ⟨final, second, takes.set_of_unknown unknown intact final⟩

end Takes

/-! ## Fields one by one -/

section Fields

variable {σ : Type} {places : List (Place σ)} {keys : List String}
  {set : σ → String → Document → Except DecodeError σ}

theorem setFields_cons
    {draft next : σ} {key : String} {value : Document} (first : set draft key value = .ok next)
    (rest : List (Option String × Document)) :
    setFields set draft ((some key, value) :: rest) = setFields set next rest := by
  rw [setFields, first]
  rfl

theorem setFields_cons_eq_ok_iff
    {draft final : σ} {key : Option String} {value : Document}
    {rest : List (Option String × Document)} :
    setFields set draft ((key, value) :: rest) = .ok final ↔
      ∃ name next,
        key = some name ∧ set draft name value = .ok next ∧
          setFields set next rest = .ok final := by
  constructor
  · intro taken
    cases key with
    | none => cases taken
    | some name =>
        rcases exists_of_bind_eq_ok taken with ⟨next, first, later⟩
        exact ⟨name, next, rfl, first, later⟩
  · rintro ⟨name, next, rfl, first, later⟩
    rw [setFields_cons first, later]

/-- An array that is read is read as the object that names its items. -/
theorem setFields_of_setItems
    {items : List Document} {draft final : σ} (taken : setItems set draft keys items = .ok final) :
    setFields set draft ((keys.map some).zip items) = .ok final := by
  induction items generalizing draft keys with
  | nil =>
      rw [setItems] at taken
      rw [List.zip_nil_right, setFields, taken]
  | cons item rest inductionHypothesis =>
      cases keys with
      | nil => cases taken
      | cons key keys =>
          rcases exists_of_bind_eq_ok taken with ⟨next, first, later⟩
          rw [List.map_cons, List.zip_cons_cons, setFields_cons first]
          exact inductionHypothesis later

theorem setFields_preserves
    {holds : σ → Prop}
    (kept : ∀ draft key value next, holds draft → set draft key value = .ok next → holds next)
    {fields : List (Option String × Document)} {draft final : σ} (start : holds draft)
    (taken : setFields set draft fields = .ok final) :
    holds final := by
  induction fields generalizing draft with
  | nil =>
      cases taken
      exact start
  | cons field rest inductionHypothesis =>
      rcases setFields_cons_eq_ok_iff.mp taken with ⟨name, next, _, first, later⟩
      exact inductionHypothesis (kept draft name field.2 next start first) later

/-- What taking up a field preserves holds of every record that is read. -/
theorem decodeRecord_preserves
    {holds : σ → Prop}
    (kept : ∀ draft key value next, holds draft → set draft key value = .ok next → holds next)
    {document : Document} {draft final : σ} (start : holds draft)
    (decoded : decodeRecord keys set draft document = .ok final) :
    holds final := by
  cases document with
  | object fields => exact setFields_preserves kept start decoded
  | array items => exact setFields_preserves kept start (setFields_of_setItems decoded)
  | _ => cases decoded

/-! ## Layouts -/

/-- The second document lays out the record of the first in another way. -/
inductive Rearranged (keys : List String) : Document → Document → Prop
  /-- The items of an array get their names. -/
  | named (items : List Document) :
      Rearranged keys (array items) (object ((keys.map some).zip items))
  /-- The fields of an object are put in another order. -/
  | ordered {fields fields' : List (Option String × Document)} (order : fields.Perm fields') :
      Rearranged keys (object fields) (object fields')
  /-- A field is added that the record does not have. -/
  | extended {key : String} {value : Document} (fields : List (Option String × Document))
      (unknown : key ∉ keys) (intact : value.intact = true) :
      Rearranged keys (object fields) (object ((some key, value) :: fields))
  | trans {first second third : Document} :
      Rearranged keys first second → Rearranged keys second third → Rearranged keys first third

theorem setFields_of_perm
    (takes : Takes places set) {fields fields' : List (Option String × Document)}
    (order : fields.Perm fields') {draft final : σ}
    (taken : setFields set draft fields = .ok final) :
    setFields set draft fields' = .ok final := by
  induction order generalizing draft with
  | nil => exact taken
  | cons field _ inductionHypothesis =>
      rcases setFields_cons_eq_ok_iff.mp taken with ⟨name, next, named, first, later⟩
      exact setFields_cons_eq_ok_iff.mpr ⟨name, next, named, first, inductionHypothesis later⟩
  | swap left right rest =>
      rcases setFields_cons_eq_ok_iff.mp taken with ⟨name, next, named, first, later⟩
      rcases setFields_cons_eq_ok_iff.mp later with ⟨name', last, named', second, finished⟩
      rcases takes.swap first second with ⟨other, secondFirst, firstSecond⟩
      refine setFields_cons_eq_ok_iff.mpr ⟨name', other, named', secondFirst, ?_⟩
      exact setFields_cons_eq_ok_iff.mpr ⟨name, last, named, firstSecond, finished⟩
  | trans _ _ earlier later => exact later (earlier taken)

theorem decodeRecord_of_rearranged
    (takes : Takes places set) {document document' : Document}
    (same : Rearranged (places.map Place.key) document document') {draft final : σ}
    (decoded : decodeRecord (places.map Place.key) set draft document = .ok final) :
    decodeRecord (places.map Place.key) set draft document' = .ok final := by
  induction same with
  | named items => exact setFields_of_setItems decoded
  | ordered order => exact setFields_of_perm takes order decoded
  | extended fields unknown intact =>
      rw [decodeRecord, setFields_cons (takes.set_of_unknown unknown intact draft)]
      exact decoded
  | trans _ _ earlier later => exact later (earlier decoded)

end Fields

end Document

end FeatureRules
