import FeatureRules.Proofs.Defaults
import FeatureRules.Proofs.Reference.Split
import FeatureRules.Proofs.StringLiterals

/-!
# Defaults that are strings

A string default is set between quotes as it stands. Nothing in it is escaped on the way, so the
literal denotes the default exactly if the default holds neither a quote nor a backslash.
-/

namespace FeatureRules

namespace Model

variable {model : Model} {base : Int} {schedule : Schedule}

theorem substitute_of_no_reference
    {text : String} (noReference : ∀ mention, .reference mention ∉ Fragment.split text) :
    model.substitute text = text := by
  have lowered : ∀ fragment ∈ Fragment.split text, fragment.lower model = fragment.source := by
    intro fragment occurs
    cases fragment with
    | literal content => rfl
    | reference mention => exact absurd occurs (noReference mention)
  rw [substitute, List.map_congr_left lowered, Fragment.join_map_source, Fragment.sources_split]

theorem lower_string
    {text : String} (noReference : ∀ mention, .reference mention ∉ Fragment.split text)
    (noLiteral : startsWith "\"" text = false) (noContext : startsWith "ctx." text = false)
    (noResult : startsWith "result." text = false) :
    model.lower text (some .string) = "\"" ++ text ++ "\"" := by
  have noAccess : isAccess text = false := by
    rw [isAccess, Bool.or_eq_false_iff]
    exact ⟨noContext, noResult⟩
  rw [lower, substitute_of_no_reference noReference]
  unfold conform
  simp [noAccess, noLiteral]

/-- A string default without references is written between quotes as it stands. So the assignment holds
a literal of the default exactly if the default has neither a quote nor a backslash in it, while there
is an escaped literal of every text. -/
theorem string_default_kept_iff
    (compiled : model.compile base = .ok schedule) {feature : Feature}
    (declared : feature ∈ model.features) (typed : feature.type = some .string) {text : String}
    (given : feature.defaultValue = some (.string text))
    (noReference : ∀ mention, .reference mention ∉ Fragment.split text)
    (noLiteral : startsWith "\"" text = false) (noContext : startsWith "ctx." text = false)
    (noResult : startsWith "result." text = false) :
    ∃ assignment ∈ schedule.defaults,
      model.defaultAssignment? feature = some assignment ∧ assignment.name = feature.name ∧
        assignment.value = "\"" ++ text ++ "\"" ∧
        (Json.unquote? assignment.value = some text ↔
          '"' ∉ text.toList ∧ '\\' ∉ text.toList) ∧
        Json.unquote? (Json.quote text) = some text := by
  have type : defaultType feature (.string text) = some .string := by simp [defaultType, typed]
  have lowered : model.lower (Json.string text).sourceText (defaultType feature (.string text)) =
      "\"" ++ text ++ "\"" := by
    rw [type]
    exact lower_string noReference noLiteral noContext noResult
  obtain ⟨assignment, assigned, made, named, written⟩ :=
    exists_default_of_value compiled declared given (by simp [lowered])
  rw [lowered] at written
  refine ⟨assignment, assigned, made, named, written, ?_, Json.unquote?_quote text⟩
  rw [written]
  exact Json.unquote?_enclosed_eq_self_iff

/-! ## A sample -/

/-- Three string defaults: one over two lines, one with a quote and one with a backslash. -/
def catalogModel : Model :=
  { features :=
      [{ name := "note", type := some .string, holder := .result
         defaultValue := some (.string "cut to length,\ndo not bend") },
        { name := "size", type := some .string, holder := .result
          defaultValue := some (.string "5\" pipe") },
        { name := "folder", type := some .string, holder := .result
          defaultValue := some (.string "C:\\temp") }]
    parameters := []
    rules := []
    groups := []
    slices := [] }

theorem exists_compile_catalogModel : ∃ schedule, catalogModel.compile 1000 = .ok schedule := by
  have found : catalogModel.levels = .ok [] := by decide +kernel
  obtain ⟨schedule, compiled, _⟩ := exists_compile_of_levels_ok 1000 found
  exact ⟨schedule, compiled⟩

theorem string_default_kept_iff_note :
    ∃ schedule, catalogModel.compile 1000 = .ok schedule ∧
      ∃ assignment ∈ schedule.defaults, assignment.name = "note" ∧
        Json.unquote? assignment.value = some "cut to length,\ndo not bend" := by
  obtain ⟨schedule, compiled⟩ := exists_compile_catalogModel
  have parts :
      Fragment.split "cut to length,\ndo not bend" = [.literal "cut to length,\ndo not bend"] := by
    decide +kernel
  have noReference :
      ∀ mention, .reference mention ∉ Fragment.split "cut to length,\ndo not bend" := by
    intro mention occurs
    rw [parts] at occurs
    cases List.mem_singleton.mp occurs
  obtain ⟨assignment, assigned, _, named, _, kept, _⟩ :=
    string_default_kept_iff compiled List.mem_cons_self rfl rfl noReference (by decide) (by decide)
      (by decide)
  exact ⟨schedule, compiled, assignment, assigned, named, kept.mpr (by decide)⟩

/-- The size is written as no literal at all, and the folder as a literal of another text. -/
theorem size_and_folder_not_kept :
    ∃ schedule, Declarations.build { features := catalogModel.features } = .ok catalogModel ∧
      catalogModel.compile 1000 = .ok schedule ∧
      (schedule.defaultsOf "size").map DefaultAssignment.value = ["\"5\" pipe\""] ∧
      Json.unquote? "\"5\" pipe\"" = none ∧
      (schedule.defaultsOf "folder").map DefaultAssignment.value = ["\"C:\\temp\""] ∧
      Json.unquote? "\"C:\\temp\"" = some "C:\temp" := by
  obtain ⟨schedule, compiled⟩ := exists_compile_catalogModel
  refine ⟨schedule, rfl, compiled, ?_, by decide +kernel, ?_, by decide +kernel⟩
  · rw [defaultsOf_eq_filterMap compiled]
    decide +kernel
  · rw [defaultsOf_eq_filterMap compiled]
    decide +kernel

end Model

end FeatureRules
