import FeatureRules.Proofs.Holders
import FeatureRules.Proofs.Reference.Split

/-!
# Locality of references

References are found one by one: where a text goes on with something that no reference continues
with, the split of the whole is that of the two parts, up to literal runs that meet there. The
references that a rule waits for, which are looked for in its expression and its condition at once,
are therefore those that are lowered in each of the two.
-/

namespace FeatureRules

namespace Fragment

/-! ## Atoms -/

/-- The characters and references of a fragment. Unlike fragments, they do not depend on where a
literal run is cut. -/
def atoms : Fragment → List (Char ⊕ Reference)
  | literal content => content.toList.map Sum.inl
  | reference mention => [Sum.inr mention]

def scan (text : List Char) : List (Char ⊕ Reference) :=
  (splitFrom [] text).flatMap atoms

theorem flatMap_atoms_ofRun (run : List Char) :
    (ofRun run).flatMap atoms = run.reverse.map Sum.inl := by
  by_cases empty : run = []
  · simp [empty]
  · simp [ofRun_of_ne_nil empty, atoms]

theorem flatMap_atoms_splitFrom_append (earlier run text : List Char) :
    (splitFrom (run ++ earlier) text).flatMap atoms =
      earlier.reverse.map Sum.inl ++ (splitFrom run text).flatMap atoms := by
  fun_induction splitFrom run text with
  | case1 run =>
      rw [splitFrom, flatMap_atoms_ofRun, flatMap_atoms_ofRun, List.reverse_append, List.map_append]
  | case2 run c rest mention after found inductionHypothesis =>
      rw [splitFrom_of_read? found, List.flatMap_append, List.flatMap_append, flatMap_atoms_ofRun,
        flatMap_atoms_ofRun, List.reverse_append, List.map_append, List.append_assoc]
  | case3 run c rest unread inductionHypothesis =>
      rw [splitFrom_cons_of_not_opensReference (Reference.read?_eq_none_iff.mp unread),
        ← List.cons_append]
      exact inductionHypothesis

@[simp]
theorem scan_nil : scan [] = [] := by
  simp [scan, splitFrom]

theorem scan_of_read?
    {text after : List Char} {mention : Reference}
    (found : Reference.read? text = some (mention, after)) :
    scan text = Sum.inr mention :: scan after := by
  rw [scan, splitFrom_of_read? found]
  rfl

theorem scan_cons_of_not_opensReference
    {c : Char} {rest : List Char} (closed : ¬ OpensReference (c :: rest)) :
    scan (c :: rest) = Sum.inl c :: scan rest := by
  rw [scan, splitFrom_cons_of_not_opensReference closed]
  exact flatMap_atoms_splitFrom_append [c] [] rest

/-! ## Text in two parts -/

theorem read?_append
    {content rest : List Char} (nonempty : content ≠ []) (detached : Detached rest) :
    Reference.read? (content ++ rest) =
      (Reference.read? content).map fun found => (found.1, found.2 ++ rest) := by
  cases found : Reference.read? content with
  | none =>
      rw [Reference.read?_eq_none_iff] at found
      rw [Option.map_none, Reference.read?_eq_none_iff,
        opensReference_append_iff nonempty detached]
      exact found
  | some read =>
      obtain ⟨mention, after⟩ := read
      obtain ⟨written, wellFormed, ended⟩ := Reference.read?_eq_some_iff.mp found
      rw [Option.map_some, Reference.read?_eq_some_iff, continuedBy_append_iff detached]
      refine ⟨?_, wellFormed, ended⟩
      rw [written, List.append_assoc]

/-- What is found in a text is found there with any detached text behind it. -/
theorem scan_append
    (content : List Char) {rest : List Char} (detached : Detached rest) :
    scan (content ++ rest) = scan content ++ scan rest := by
  -- The open run plays no part in what is read, so the split of `content` leads the induction from
  -- one remaining text to the next.
  generalize ([] : List Char) = run
  fun_induction splitFrom run content with
  | case1 run =>
      rw [scan_nil, List.nil_append, List.nil_append]
  | case2 run c more mention after found inductionHypothesis =>
      have foundBefore : Reference.read? (c :: more ++ rest) = some (mention, after ++ rest) := by
        rw [read?_append (List.cons_ne_nil c more) detached, found]
        rfl
      rw [scan_of_read? found, scan_of_read? foundBefore, inductionHypothesis, List.cons_append]
  | case3 run c more unread inductionHypothesis =>
      have closed := Reference.read?_eq_none_iff.mp unread
      have closedBefore : ¬ OpensReference (c :: more ++ rest) := by
        rw [opensReference_append_iff (List.cons_ne_nil c more) detached]
        exact closed
      rw [List.cons_append] at closedBefore ⊢
      rw [scan_cons_of_not_opensReference closed, scan_cons_of_not_opensReference closedBefore,
        inductionHypothesis, List.cons_append]

theorem not_opensReference_cons
    {c : Char} {rest : List Char} (noSigil : ∀ sigil : Sigil, c ≠ sigil.char) :
    ¬ OpensReference (c :: rest) := by
  intro opens
  obtain ⟨sigil, starts⟩ := opens
  exact noSigil sigil (startsWord_cons_cons.mp starts).1

end Fragment

/-! ## Dependencies and lowered text -/

theorem mem_dependencies_iff {text name : String} :
    name ∈ dependencies text ↔
      ∃ mention, .reference mention ∈ Fragment.split text ∧ mention.dependency? = some name := by
  rw [dependencies, List.mem_filterMap]
  constructor
  · intro found
    obtain ⟨fragment, occurs, waits⟩ := found
    cases fragment with
    | literal content => cases waits
    | reference mention => exact ⟨mention, occurs, waits⟩
  · intro found
    obtain ⟨mention, occurs, waits⟩ := found
    exact ⟨.reference mention, occurs, waits⟩

theorem dependencies_eq_filterMap_scan (text : String) :
    dependencies text =
      (Fragment.scan text.toList).filterMap (Sum.elim (fun _ => none) Reference.dependency?) := by
  rw [dependencies, Fragment.scan, ← Fragment.split, List.filterMap_flatMap,
    List.filterMap_eq_flatMap_toList]
  congr 1
  funext fragment
  cases fragment with
  | literal content => simp [Fragment.atoms, Fragment.dependency?]
  | reference mention =>
      cases waits : mention.dependency? <;> simp [Fragment.atoms, Fragment.dependency?, waits]

theorem dependencies_append
    (before : String) {after : String} (detached : Fragment.Detached after.toList) :
    dependencies (before ++ after) = dependencies before ++ dependencies after := by
  simp only [dependencies_eq_filterMap_scan, String.toList_append]
  rw [Fragment.scan_append before.toList detached, List.filterMap_append]

theorem dependencies_singleton_append
    {c : Char} (noSigil : ∀ sigil : Sigil, c ≠ sigil.char) (text : String) :
    dependencies (String.singleton c ++ text) = dependencies text := by
  simp only [dependencies_eq_filterMap_scan, String.toList_append, String.toList_singleton,
    List.singleton_append]
  rw [Fragment.scan_cons_of_not_opensReference (Fragment.not_opensReference_cons noSigil)]
  rfl

namespace Model

/-- The text that stands for a character or a reference when a text is lowered. -/
def spell (model : Model) : Char ⊕ Reference → List Char :=
  Sum.elim (fun c => [c]) fun mention => (mention.access model).toList

theorem toList_substitute (model : Model) (text : String) :
    (model.substitute text).toList = (Fragment.scan text.toList).flatMap model.spell := by
  rw [substitute, String.toList_join, List.flatMap_map, Fragment.scan, ← Fragment.split,
    List.flatMap_assoc]
  congr 1
  funext fragment
  cases fragment with
  | literal content => simp [Fragment.atoms, Fragment.lower, spell, List.flatMap_map]
  | reference mention => simp [Fragment.atoms, Fragment.lower, spell]

theorem substitute_append
    (model : Model) (before : String) {after : String}
    (detached : Fragment.Detached after.toList) :
    model.substitute (before ++ after) = model.substitute before ++ model.substitute after := by
  apply String.toList_injective
  simp only [String.toList_append, toList_substitute]
  rw [Fragment.scan_append before.toList detached, List.flatMap_append]

theorem substitute_singleton_append
    (model : Model) {c : Char} (noSigil : ∀ sigil : Sigil, c ≠ sigil.char) (text : String) :
    model.substitute (String.singleton c ++ text) =
      String.singleton c ++ model.substitute text := by
  apply String.toList_injective
  simp only [toList_substitute, String.toList_append, String.toList_singleton,
    List.singleton_append]
  rw [Fragment.scan_cons_of_not_opensReference (Fragment.not_opensReference_cons noSigil)]
  rfl

end Model

/-! ## Separators -/

/-- A character that neither goes on with a reference nor opens one. -/
structure Separates (c : Char) : Prop where
  noWord : isWordChar c = false
  noPoint : c ≠ '.'
  noColon : c ≠ ':'
  noSigil : ∀ sigil : Sigil, c ≠ sigil.char

theorem Sigil.ofChar?_eq_none_iff {c : Char} :
    ofChar? c = none ↔ ∀ sigil : Sigil, c ≠ sigil.char := by
  constructor
  · rintro unknown sigil rfl
    rw [ofChar?_char] at unknown
    cases unknown
  · intro noSigil
    by_contra known
    obtain ⟨sigil, found⟩ := Option.ne_none_iff_exists'.mp known
    exact noSigil sigil (eq_char_of_ofChar? found)

instance (c : Char) : Decidable (Separates c) :=
  decidable_of_iff
    (isWordChar c = false ∧ c ≠ '.' ∧ c ≠ ':' ∧ Sigil.ofChar? c = none)
    ⟨fun ⟨noWord, noPoint, noColon, unknown⟩ =>
        ⟨noWord, noPoint, noColon, Sigil.ofChar?_eq_none_iff.mp unknown⟩,
      fun ⟨noWord, noPoint, noColon, noSigil⟩ =>
        ⟨noWord, noPoint, noColon, Sigil.ofChar?_eq_none_iff.mpr noSigil⟩⟩

theorem separates_blank : Separates ' ' := by
  decide

theorem Separates.detached {c : Char} (separates : Separates c) (rest : List Char) :
    Fragment.Detached (c :: rest) := by
  intro first isFirst
  cases isFirst
  exact ⟨separates.noWord, separates.noPoint, separates.noColon⟩

theorem Separates.dependencies_append
    {c : Char} (separates : Separates c) (before after : String) :
    dependencies (before ++ String.singleton c ++ after) =
      dependencies before ++ dependencies after := by
  have detached : Fragment.Detached (String.singleton c ++ after).toList := by
    simpa using separates.detached after.toList
  rw [String.append_assoc, FeatureRules.dependencies_append before detached,
    dependencies_singleton_append separates.noSigil]

theorem Separates.substitute_append
    {c : Char} (separates : Separates c) (model : Model) (before after : String) :
    model.substitute (before ++ String.singleton c ++ after) =
      model.substitute before ++ String.singleton c ++ model.substitute after := by
  have detached : Fragment.Detached (String.singleton c ++ after).toList := by
    simpa using separates.detached after.toList
  rw [String.append_assoc, model.substitute_append before detached,
    model.substitute_singleton_append separates.noSigil, String.append_assoc]

/-! ## Rules -/

theorem Rule.dependencies_referenceText (rule : Rule) :
    FeatureRules.dependencies rule.referenceText =
      (Fragment.split rule.expressionText ++ Fragment.split (rule.condition.getD "true")).filterMap
        Fragment.dependency? := by
  rw [List.filterMap_append, Rule.referenceText]
  cases condition : rule.condition with
  | none =>
      rw [Option.getD_none, Model.split_true]
      exact (List.append_nil _).symm
  | some text =>
      exact separates_blank.dependencies_append rule.expressionText text

namespace Model

theorem condition_schedule
    (model : Model) (base : Int) (levels : List (String × Nat)) (rule : Rule) :
    (model.schedule base levels rule).condition =
      String.join
        ((Fragment.split (rule.condition.getD "true")).map (Fragment.lower model)) := by
  cases condition : rule.condition with
  | none =>
      rw [schedule, condition, Option.getD_none, split_true]
      rfl
  | some text =>
      rw [schedule, condition]
      exact model.lowerCondition_some text

/-- A separator parts a text in two that are searched for dependencies and lowered each by itself.
The names that a rule waits for are thus those of the references that are lowered in its expression
and then in its condition, one by one. -/
theorem dependencies_of_lowered_references (model : Model) :
    (∀ (before after : String) (c : Char), Separates c →
        dependencies (before ++ String.singleton c ++ after) =
            dependencies before ++ dependencies after ∧
          model.lower (before ++ String.singleton c ++ after) none =
            model.lower before none ++ String.singleton c ++ model.lower after none) ∧
      ∀ (base : Int) (levels : List (String × Nat)) (rule : Rule),
        (model.schedule base levels rule).expression =
            conform (model.outputType rule)
              (String.join ((Fragment.split rule.expressionText).map (Fragment.lower model))) ∧
          (model.schedule base levels rule).condition =
            String.join
              ((Fragment.split (rule.condition.getD "true")).map (Fragment.lower model)) ∧
          dependencies rule.referenceText =
            (Fragment.split rule.expressionText ++
              Fragment.split (rule.condition.getD "true")).filterMap Fragment.dependency? := by
  constructor
  · intro before after c separates
    exact
      ⟨separates.dependencies_append before after,
        separates.substitute_append model before after⟩
  · intro base levels rule
    exact ⟨rfl, model.condition_schedule base levels rule, rule.dependencies_referenceText⟩

/-- Behind a blank, a word does not go on with the path that a point has left open. -/
theorem dependencies_of_lowered_references_openPath :
    Separates ' ' ∧
      dependencies ("#rate." ++ String.singleton ' ' ++ "fee > @price") = ["rate", "price"] ∧
      priceModel.lower ("#rate." ++ String.singleton ' ' ++ "fee > @price") none =
        "ctx.GetInt(\"rate\"). fee > result.Get(\"price\")" := by
  obtain ⟨parted, _⟩ := dependencies_of_lowered_references priceModel
  obtain ⟨waits, lowered⟩ := parted "#rate." "fee > @price" ' ' separates_blank
  refine ⟨separates_blank, ?_, ?_⟩
  · rw [waits]
    decide +kernel
  · rw [lowered]
    decide +kernel

end Model

end FeatureRules
