import FeatureRules.Declarations
import FeatureRules.Proofs.Entries

/-!
# Names of built models

Entries are enrolled exactly when none is faulty and no name is taken twice. The rules of a built
model therefore have distinct names.
-/

namespace FeatureRules

theorem exists_of_bind_eq_ok {ε α β : Type} {first : Except ε α} {next : α → Except ε β} {value : β}
    (succeeded : first >>= next = .ok value) :
    ∃ middle, first = .ok middle ∧ next middle = .ok value := by
  cases first with
  | error failure => cases succeeded
  | ok middle => exact ⟨middle, rfl, succeeded⟩

/-! ## Enrolment -/

theorem enroll_cons_ok {α : Type} (name : α → String) (taken : List String) (value : α)
    (rest : List (Except ModelError α)) :
    enroll name taken (.ok value :: rest) =
      if name value ∈ taken then .error (.duplicateRule (name value))
      else (enroll name (name value :: taken) rest).map (value :: ·) := by
  rw [enroll]
  by_cases isTaken : name value ∈ taken
  · simp [isTaken, bind, Except.bind]
  · cases later : enroll name (name value :: taken) rest <;>
      simp [isTaken, later, bind, Except.bind, pure, Except.pure, Except.map]

/-- Entries are enrolled exactly when none has a fault, no two share a name and no name is taken. -/
theorem enroll_eq_ok_iff {α : Type} {name : α → String} {taken : List String}
    {entries : List (Except ModelError α)} {values : List α} :
    enroll name taken entries = .ok values ↔
      entries = values.map .ok ∧ (values.map name).Nodup ∧
        ∀ value ∈ values, name value ∉ taken := by
  induction entries generalizing taken values with
  | nil =>
      cases values <;> simp [enroll]
  | cons entry rest inductionHypothesis =>
      constructor
      · intro enrolled
        obtain ⟨value, rfl, _⟩ := exists_of_bind_eq_ok enrolled
        rw [enroll_cons_ok] at enrolled
        have free : name value ∉ taken := by
          intro isTaken
          rw [if_pos isTaken] at enrolled
          cases enrolled
        rw [if_neg free] at enrolled
        cases later : enroll name (name value :: taken) rest with
        | error failure =>
            rw [later] at enrolled
            cases enrolled
        | ok others =>
            rw [later] at enrolled
            cases enrolled
            obtain ⟨rfl, distinct, fresh⟩ := inductionHypothesis.mp later
            -- The later values were enrolled with the first name taken as well.
            simp only [List.mem_cons, not_or] at fresh
            refine ⟨rfl, List.nodup_cons.mpr ⟨?_, distinct⟩, ?_⟩
            · intro repeated
              obtain ⟨other, member, same⟩ := List.mem_map.mp repeated
              exact (fresh other member).1 same
            · intro other member
              rcases List.mem_cons.mp member with rfl | inOthers
              · exact free
              · exact (fresh other inOthers).2
      · intro admissible
        rcases admissible with ⟨sound, distinct, fresh⟩
        cases values with
        | nil => cases sound
        | cons value others =>
            cases sound
            obtain ⟨unrepeated, othersDistinct⟩ := List.nodup_cons.mp distinct
            have later : enroll name (name value :: taken) (others.map .ok) = .ok others := by
              refine inductionHypothesis.mpr ⟨rfl, othersDistinct, ?_⟩
              intro other member
              rw [List.mem_cons, not_or]
              refine ⟨?_, fresh other (List.mem_cons_of_mem value member)⟩
              intro same
              exact unrepeated (List.mem_map.mpr ⟨other, member, same⟩)
            rw [enroll_cons_ok, if_neg (fresh value List.mem_cons_self), later]
            rfl

/-! ## Building -/

/-- What there is to a built model: the enrolled bodies and the enrolled rules of slices. -/
theorem exists_bodies_of_build {declarations : Declarations} {model : Model}
    (built : declarations.build = .ok model) :
    ∃ bodies sliceRules,
      enroll Body.name [] declarations.bodies = .ok bodies ∧
      enroll Rule.name ((bodies.filterMap Body.rule?).map Rule.name)
        ((bodies.filterMap Body.slice?).flatMap Slice.rules) = .ok sliceRules ∧
      model.rules = bodies.filterMap Body.rule? ++ sliceRules := by
  obtain ⟨bodies, bodiesEnrolled, rest⟩ := exists_of_bind_eq_ok built
  obtain ⟨sliceRules, rulesEnrolled, finished⟩ := exists_of_bind_eq_ok rest
  cases finished
  exact ⟨bodies, sliceRules, bodiesEnrolled, rulesEnrolled, rfl⟩

theorem Body.names_rules_sublist (bodies : List Body) :
    ((bodies.filterMap Body.rule?).map Rule.name).Sublist (bodies.map Body.name) := by
  induction bodies with
  | nil => exact List.Sublist.slnil
  | cons body rest inductionHypothesis =>
      cases body with
      | rule content => exact inductionHypothesis.cons_cons content.name
      | slice content => exact inductionHypothesis.cons content.name

/-- No two rules of a built model share a name. -/
theorem nodup_ruleNames_of_build {declarations : Declarations} {model : Model}
    (built : declarations.build = .ok model) :
    model.ruleNames.Nodup := by
  obtain ⟨bodies, sliceRules, bodiesEnrolled, rulesEnrolled, rules⟩ :=
    exists_bodies_of_build built
  obtain ⟨_, bodiesDistinct, _⟩ := enroll_eq_ok_iff.mp bodiesEnrolled
  obtain ⟨_, sliceRulesDistinct, fresh⟩ := enroll_eq_ok_iff.mp rulesEnrolled
  have plainDistinct := bodiesDistinct.sublist (Body.names_rules_sublist bodies)
  rw [Model.ruleNames, rules, List.map_append]
  refine List.nodup_append'.mpr ⟨plainDistinct, sliceRulesDistinct, ?_⟩
  intro name inPlain inSlices
  obtain ⟨rule, member, rfl⟩ := List.mem_map.mp inSlices
  exact fresh rule member inPlain

end FeatureRules
