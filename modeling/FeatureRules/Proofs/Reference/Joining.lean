import FeatureRules.Part
import FeatureRules.Proofs.Reference.Locality

/-!
# Joined references

The rule of a group and that of a slice refer to their parts one after the other. Parts of a whole
whose name is written in word characters are found again in such a text, in order, and are lowered
each by itself.
-/

namespace FeatureRules

/-! ## Names of parts -/

theorem isWordChar_of_mem_toString {index : Nat} {c : Char} (member : c ∈ (toString index).toList) :
    isWordChar c = true := by
  rw [Nat.toString_eq_repr, Nat.toList_repr] at member
  have digit := Nat.isDigit_of_mem_toDigits (by decide) (by decide) member
  simp [isWordChar, Char.isAlphanum, digit]

theorem isWord_partName
    {whole : String} (words : ∀ c ∈ whole.toList, isWordChar c = true) (index : Nat) :
    IsWord (partName whole index) := by
  constructor
  · simp [partName]
  · intro c member
    simp only [partName, String.toList_append, List.mem_append] at member
    rcases member with (inWhole | isBar) | inIndex
    · exact words c inWhole
    · have same : c = '_' := by simpa using isBar
      rw [same]
      decide
    · exact isWordChar_of_mem_toString inIndex

theorem isWord_of_mem_partNames
    {whole : String} (words : ∀ c ∈ whole.toList, isWordChar c = true) (count : Nat) :
    ∀ name ∈ partNames whole count, IsWord name := by
  intro name member
  obtain ⟨index, _, rfl⟩ := List.mem_map.mp member
  exact isWord_partName words index

/-! ## Texts with one reference, and with none -/

namespace Fragment

theorem scan_source
    {mention : Reference} (wellFormed : mention.WellFormed) :
    scan mention.source.toList = [Sum.inr mention] := by
  have ended : ¬ mention.ContinuedBy [] := by
    simp [Reference.ContinuedBy]
  have found := Reference.read?_source_append wellFormed ended
  rw [List.append_nil] at found
  rw [scan_of_read? found, scan_nil]

theorem scan_of_no_sigil
    {text : List Char} (noSigil : ∀ c ∈ text, ∀ sigil : Sigil, c ≠ sigil.char) :
    scan text = text.map Sum.inl := by
  induction text with
  | nil => exact scan_nil
  | cons c rest inductionHypothesis =>
      obtain ⟨firstPlain, restPlain⟩ := List.forall_mem_cons.mp noSigil
      rw [scan_cons_of_not_opensReference (not_opensReference_cons firstPlain),
        inductionHypothesis restPlain, List.map_cons]

theorem detached_append
    {content rest : List Char} (contentDetached : Detached content)
    (restDetached : Detached rest) :
    Detached (content ++ rest) := by
  cases content with
  | nil => exact restDetached
  | cons c more => exact contentDetached

end Fragment

/-- A text that has no references and may stand behind any. -/
structure Neutral (text : String) : Prop where
  detached : Fragment.Detached text.toList
  noSigil : ∀ c ∈ text.toList, ∀ sigil : Sigil, c ≠ sigil.char

theorem neutral_of_separates
    {text : String} (separates : text.toList.all (fun c => decide (Separates c)) = true) :
    Neutral text := by
  simp only [List.all_eq_true, decide_eq_true_eq] at separates
  constructor
  · intro c first
    have separate := separates c (List.mem_of_mem_head? first)
    exact ⟨separate.noWord, separate.noPoint, separate.noColon⟩
  · intro c member
    exact (separates c member).noSigil

theorem dependencies_of_neutral {text : String} (neutral : Neutral text) :
    dependencies text = [] := by
  rw [dependencies_eq_filterMap_scan, Fragment.scan_of_no_sigil neutral.noSigil,
    List.filterMap_map]
  simp [Function.comp_def]

theorem substitute_of_neutral (model : Model) {text : String} (neutral : Neutral text) :
    model.substitute text = text := by
  apply String.toList_injective
  rw [model.toList_substitute, Fragment.scan_of_no_sigil neutral.noSigil, List.flatMap_map]
  simp [Model.spell]

theorem dependencies_source {mention : Reference} (wellFormed : mention.WellFormed) :
    dependencies mention.source = mention.dependency?.toList := by
  rw [dependencies_eq_filterMap_scan, Fragment.scan_source wellFormed]
  cases waits : mention.dependency? <;> simp [waits]

theorem substitute_source (model : Model) {mention : Reference} (wellFormed : mention.WellFormed) :
    model.substitute mention.source = mention.access model := by
  apply String.toList_injective
  rw [model.toList_substitute, Fragment.scan_source wellFormed]
  simp [Model.spell]

/-! ## Joined references -/

namespace Reference

def named (sigil : Sigil) (name : String) : Reference :=
  { sigil, name, path := [], cast := none }

theorem wellFormed_named {sigil : Sigil} {name : String} (word : IsWord name) :
    (named sigil name).WellFormed where
  name := word
  path := by simp [named]
  cast := by simp [named]

theorem source_named (sigil : Sigil) (name : String) :
    (named sigil name).source = String.singleton sigil.char ++ name := by
  simp [named, source, pathSource, castSource]

end Reference

theorem joinReferences_singleton (separator name : String) :
    joinReferences separator [name] = (Reference.named .result name).source := by
  rw [Reference.source_named, joinReferences, List.map_singleton, String.intercalate_singleton]
  rfl

theorem joinReferences_cons_cons (separator first second : String) (rest : List String) :
    joinReferences separator (first :: second :: rest) =
      (Reference.named .result first).source ++
        (separator ++ joinReferences separator (second :: rest)) := by
  rw [Reference.source_named]
  simp only [joinReferences, List.map_cons, String.intercalate_cons_cons, String.append_assoc]
  rfl

theorem sigilFirst_source_append (mention : Reference) (rest : String) :
    Fragment.SigilFirst (mention.source ++ rest).toList := by
  intro c first
  rw [String.toList_append, Reference.toList_source] at first
  cases first
  exact ⟨mention.sigil, rfl⟩

theorem detached_joinReferences (separator name : String) (rest : List String) :
    Fragment.Detached (joinReferences separator (name :: rest)).toList := by
  apply Fragment.SigilFirst.detached
  cases rest with
  | nil =>
      rw [joinReferences_singleton, ← String.append_empty (s := Reference.source _)]
      exact sigilFirst_source_append _ ""
  | cons next later =>
      rw [joinReferences_cons_cons]
      exact sigilFirst_source_append _ _

theorem detached_separator_joinReferences
    {separator : String} (neutral : Neutral separator) (name : String) (rest : List String) :
    Fragment.Detached (separator ++ joinReferences separator (name :: rest)).toList := by
  rw [String.toList_append]
  exact Fragment.detached_append neutral.detached (detached_joinReferences separator name rest)

/-- Joined references make a rule wait for what they name, in order. -/
theorem dependencies_joinReferences
    {separator : String} (neutral : Neutral separator) {names : List String}
    (words : ∀ name ∈ names, IsWord name) :
    dependencies (joinReferences separator names) = names := by
  induction names with
  | nil =>
      rw [dependencies_eq_filterMap_scan, joinReferences, List.map_nil, String.intercalate_nil]
      simp
  | cons name rest inductionHypothesis =>
      obtain ⟨word, restWords⟩ := List.forall_mem_cons.mp words
      have alone : dependencies (Reference.named .result name).source = [name] :=
        dependencies_source (Reference.wellFormed_named word)
      cases rest with
      | nil =>
          rw [joinReferences_singleton, alone]
      | cons next later =>
          have joined := detached_joinReferences separator next later
          have parted := detached_separator_joinReferences neutral next later
          rw [joinReferences_cons_cons, dependencies_append _ parted, alone,
            dependencies_append _ joined, dependencies_of_neutral neutral,
            inductionHypothesis restWords]
          rfl

/-- Joined references are lowered each by itself, and the separator stays. -/
theorem substitute_joinReferences
    (model : Model) {separator : String} (neutral : Neutral separator) {names : List String}
    (words : ∀ name ∈ names, IsWord name) :
    model.substitute (joinReferences separator names) =
      String.intercalate separator
        (names.map fun name => (Reference.named .result name).access model) := by
  induction names with
  | nil =>
      apply String.toList_injective
      rw [model.toList_substitute, joinReferences, List.map_nil, List.map_nil,
        String.intercalate_nil]
      simp
  | cons name rest inductionHypothesis =>
      obtain ⟨word, restWords⟩ := List.forall_mem_cons.mp words
      have alone :
          model.substitute (Reference.named .result name).source =
            (Reference.named .result name).access model :=
        substitute_source model (Reference.wellFormed_named word)
      cases rest with
      | nil =>
          rw [joinReferences_singleton, alone, List.map_singleton, String.intercalate_singleton]
      | cons next later =>
          have joined := detached_joinReferences separator next later
          have parted := detached_separator_joinReferences neutral next later
          rw [joinReferences_cons_cons, model.substitute_append _ parted, alone,
            model.substitute_append _ joined, substitute_of_neutral model neutral,
            inductionHypothesis restWords, ← String.append_assoc]
          exact String.intercalate_cons_cons.symm

end FeatureRules
