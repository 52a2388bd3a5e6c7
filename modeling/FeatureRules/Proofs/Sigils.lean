import FeatureRules.Proofs.GroupWiring
import FeatureRules.Proofs.StringDefaults

/-!
# Sigils of lowered text

Calls hold no sigils, and neither does what makes a text conform to a type. So the sigils of a lowered
text are those of its literal runs, in their order. They open nothing as long as the characters behind
them stay, which fails only where a call takes the place of a reference right behind a sigil.
-/

namespace FeatureRules

def isSigil (c : Char) : Bool :=
  (Sigil.ofChar? c).isSome

theorem isSigil_eq_false_iff {c : Char} : isSigil c = false ↔ ∀ sigil : Sigil, c ≠ sigil.char := by
  rw [isSigil, Option.isSome_eq_false_iff, Option.isNone_iff_eq_none, Sigil.ofChar?_eq_none_iff]

theorem isSigil_eq_true_iff {c : Char} : isSigil c = true ↔ ∃ sigil : Sigil, c = sigil.char := by
  rw [← Bool.not_eq_false, isSigil_eq_false_iff]
  simp

def sigils (text : String) : List Char :=
  text.toList.filter isSigil

theorem sigils_append (first second : String) :
    sigils (first ++ second) = sigils first ++ sigils second := by
  rw [sigils, String.toList_append, List.filter_append]
  rfl

theorem sigils_eq_nil_iff {text : String} :
    sigils text = [] ↔ ∀ c ∈ text.toList, isSigil c = false := by
  simp [sigils, List.filter_eq_nil_iff]

theorem sigils_of_isWord {word : String} (isWord : IsWord word) : sigils word = [] := by
  rw [sigils_eq_nil_iff]
  intro c member
  rw [isSigil_eq_false_iff]
  rintro sigil rfl
  have wordChar := isWord.2 sigil.char member
  rw [sigil.isWordChar_char] at wordChar
  cases wordChar

/-! ## Calls -/

theorem sigils_call (getter : Getter) (key : String) : sigils (getter.call key) = sigils key := by
  have ofGetter : sigils ("." ++ getter.name ++ "(\"") = [] := by
    cases getter <;> decide
  have ending : sigils "\")" = [] := by decide
  rw [Getter.call, sigils_append, sigils_append, ofGetter, ending, List.nil_append, List.append_nil]

theorem sigils_read (holder : Holder) (getter : Getter) (key : String) :
    sigils (holder.read getter key) = sigils key := by
  have ofHolder : sigils holder.name = [] := by
    cases holder <;> decide
  rw [Holder.read, sigils_append, ofHolder, sigils_call, List.nil_append]

theorem sigils_pathCalls (last : Getter) (path : List String) :
    sigils (Reference.pathCalls last path) = path.flatMap sigils := by
  fun_induction Reference.pathCalls last path with
  | case1 => rfl
  | case2 segment => simp [sigils_call]
  | case3 segment next rest inductionHypothesis =>
      rw [sigils_append, sigils_call, inductionHypothesis]
      rfl

theorem sigils_membershipTest (name : String) :
    sigils (Reference.membershipTest name) = sigils name ++ sigils name := by
  have opening : sigils "processor.Contains(ctx.GetSlice(\"" = [] := by decide
  have middle : sigils "_entries\"), ctx.Get(\"" = [] := by decide
  have closing : sigils "_value\"))" = [] := by decide
  rw [Reference.membershipTest_eq]
  simp only [sigils_append, opening, middle, closing, List.nil_append, List.append_nil]

theorem sigils_access
    (model : Model) {mention : Reference} (wellFormed : mention.WellFormed) :
    sigils (mention.access model) = [] := by
  have ofName := sigils_of_isWord wellFormed.name
  have ofPath : mention.path.flatMap sigils = [] := by
    rw [List.flatMap_eq_nil_iff]
    intro segment member
    exact sigils_of_isWord (wellFormed.path segment member)
  unfold Reference.access
  split
  · rw [sigils_membershipTest, ofName, List.append_nil]
  · rw [sigils_append, sigils_read, sigils_pathCalls, ofName, ofPath, List.append_nil]

theorem startsWord_access (model : Model) (mention : Reference) :
    StartsWord [] (mention.access model).toList := by
  unfold Reference.access
  split
  · rw [Reference.membershipTest_eq, String.append_assoc, String.append_assoc, String.append_assoc,
      String.toList_append]
    exact ⟨'p', _, by decide, rfl⟩
  · next target _ =>
      rw [Holder.read_eq, String.append_assoc, String.toList_append]
      cases target.holder with
      | context => exact ⟨'c', _, by decide, rfl⟩
      | result => exact ⟨'r', _, by decide, rfl⟩

/-! ## Conforming to a type -/

/-- What is escaped is no sigil, and no escape holds one. -/
theorem filter_isSigil_escape (c : Char) :
    (Json.escape c).filter isSigil = [c].filter isSigil := by
  rcases Json.escape_cases c with ⟨letter, known, written⟩ | ⟨control, written⟩ | ⟨_, _, _, written⟩
  · rw [written]
    unfold LiteralUnit.shortEscape? at known
    split at known <;> cases known <;> decide
  · have digits : ∀ n < 16, isSigil (Json.hexDigit n) = false := by decide
    have high := digits (c.toNat / 16) (by omega)
    have low := digits (c.toNat % 16) (by omega)
    have plain : isSigil c = false := by
      rw [isSigil_eq_false_iff]
      rintro sigil rfl
      revert control
      cases sigil <;> decide
    have mark : isSigil '\\' = false := by decide
    have code : isSigil 'u' = false := by decide
    have zero : isSigil '0' = false := by decide
    simp [written, mark, code, zero, high, low, plain]
  · rw [written]

theorem sigils_quote (content : String) : sigils (Json.quote content) = sigils content := by
  have mark : sigils "\"" = [] := by decide
  have escaped : sigils (String.ofList (content.toList.flatMap Json.escape)) = sigils content := by
    rw [sigils, String.toList_ofList, List.filter_flatMap]
    simp only [filter_isSigil_escape]
    rw [← List.filter_flatMap, List.flatMap_singleton', sigils]
  rw [Json.quote, sigils_append, sigils_append, mark, escaped, List.nil_append, List.append_nil]

theorem sigils_conform (type : Option ValueType) (expression : String) :
    sigils (conform type expression) = sigils expression := by
  have mark : sigils "\"" = [] := by decide
  have emptyAdded : sigils " + \"\"" = [] := by decide
  have reading : sigils "processor.ToMap(" = [] := by decide
  have ending : sigils ")" = [] := by decide
  unfold conform
  split
  · split
    · rw [sigils_append, emptyAdded, List.append_nil]
    · split
      · rfl
      · rw [sigils_append, sigils_append, mark, List.nil_append, List.append_nil]
  · rw [sigils_append, sigils_append, reading, ending, sigils_quote, List.nil_append,
      List.append_nil]
  · rfl

/-! ## Sigils of literal runs -/

namespace Fragment

/-- The sigils of a fragment that open nothing. -/
def bareSigils : Fragment → List Char
  | literal content => sigils content
  | reference _ => []

theorem sigils_lower
    (model : Model) {fragment : Fragment} (wellFormed : fragment.WellFormed) :
    sigils (fragment.lower model) = fragment.bareSigils := by
  cases fragment with
  | literal content => rfl
  | reference mention => exact sigils_access model wellFormed

/-- Where every sigil of a text opens a reference, literal runs hold none. -/
theorem bareSigils_eq_nil
    {text : String}
    (opened : ∀ before c after, text.toList = before ++ c :: after → isSigil c = true →
      OpensReference (c :: after))
    {fragment : Fragment} (occurs : fragment ∈ split text) :
    fragment.bareSigils = [] := by
  rcases List.append_of_mem occurs with ⟨front, back, parts⟩
  have canonical := canonical_split text
  have whole := sources_split text
  rw [parts] at canonical whole
  cases fragment with
  | reference mention => rfl
  | literal content =>
      have fromHere := canonical.right_of_append
      have boundary := sigilFirst_sources_of_literal fromHere
      have silent := ((wellFormed_literal_iff boundary).mp (canonical_cons.mp fromHere).1).2
      rw [bareSigils, sigils_eq_nil_iff]
      intro c member
      rcases List.append_of_mem member with ⟨before, after, written⟩
      by_contra isOne
      rw [Bool.not_eq_false] at isOne
      have place :
          text.toList =
            ((sources front).toList ++ before) ++ c :: (after ++ (sources back).toList) := by
        rw [← whole, toList_sources_append, toList_sources_cons, source, written]
        simp only [List.append_assoc, List.cons_append]
      have suffix : c :: after <:+ content.toList := ⟨before, written.symm⟩
      exact silent (c :: after) suffix (List.cons_ne_nil c after) (opened _ c _ place isOne)

/-! ## Sigils that open nothing in the lowered text -/

theorem silent_append {first second remaining : List Char} :
    Silent (first ++ second) remaining ↔
      Silent first (second ++ remaining) ∧ Silent second remaining := by
  induction first with
  | nil => simp
  | cons c first inductionHypothesis =>
      rw [List.cons_append, silent_cons, silent_cons, inductionHypothesis, List.append_assoc,
        and_assoc]

theorem silent_of_no_sigils
    {run : List Char} (noSigil : ∀ c ∈ run, isSigil c = false) (remaining : List Char) :
    Silent run remaining := by
  induction run with
  | nil => exact silent_nil remaining
  | cons c run inductionHypothesis =>
      rw [List.forall_mem_cons] at noSigil
      rw [silent_cons]
      exact
        ⟨not_opensReference_cons (isSigil_eq_false_iff.mp noSigil.1),
          inductionHypothesis noSigil.2⟩

/-- Whether a reference opens shows in the two characters that a sigil and a word start with. -/
theorem opensReference_cons_cons {c next : Char} {rest : List Char} :
    OpensReference (c :: next :: rest) ↔ isSigil c = true ∧ isWordChar next = true := by
  simp [OpensReference, isSigil_eq_true_iff]

theorem silent_cons_iff_singleton {run remaining : List Char} {c : Char} :
    Silent run (c :: remaining) ↔ Silent run [c] := by
  induction run with
  | nil => simp
  | cons first run inductionHypothesis =>
      rw [silent_cons, silent_cons, inductionHypothesis]
      cases run with
      | nil =>
          rw [List.nil_append, List.nil_append, opensReference_cons_cons,
            opensReference_cons_cons]
      | cons second run =>
          rw [List.cons_append, List.cons_append, opensReference_cons_cons,
            opensReference_cons_cons]

theorem silent_of_wellFormed_literal
    {content : String} (wellFormed : (literal content).WellFormed) : Silent content.toList [] := by
  have boundary : SigilFirst [] := by simp [SigilFirst]
  exact ((wellFormed_literal_iff boundary).mp wellFormed).2

/-- A literal run behind which a word stands instead of a reference is silent as before, unless it ends
in a sigil. -/
theorem silent_word_iff
    {content : String} (wellFormed : (literal content).WellFormed) {word : List Char}
    (starts : StartsWord [] word) :
    Silent content.toList word ↔ ∀ c ∈ content.toList.getLast?, isSigil c = false := by
  have silent := silent_of_wellFormed_literal wellFormed
  rcases starts with ⟨first, rest, isWord, rfl⟩
  rcases List.eq_nil_or_concat' content.toList with empty | ⟨run, last, written⟩
  · simp [empty]
  · rw [written, silent_concat] at silent
    rw [written, silent_concat, silent_cons_iff_singleton, List.nil_append,
      opensReference_cons_cons, List.getLast?_concat]
    simp [silent.1, isWord]

/-- A fragment does not end in a bare sigil right before a reference. -/
def Apart : Fragment → Fragment → Prop
  | literal content, reference _ => ∀ c ∈ content.toList.getLast?, isSigil c = false
  | _, _ => True

instance : (fragment next : Fragment) → Decidable (fragment.Apart next)
  | literal content, reference _ =>
      decidable_of_iff (content.toList.getLast?.all fun c => !isSigil c) (by
        rw [Apart]
        cases content.toList.getLast? <;> simp)
  | literal _, literal _ => inferInstanceAs (Decidable True)
  | reference _, literal _ => inferInstanceAs (Decidable True)
  | reference _, reference _ => inferInstanceAs (Decidable True)

def lowered (model : Model) (fragments : List Fragment) : List Char :=
  fragments.flatMap fun fragment => (fragment.lower model).toList

theorem silent_lowered_iff
    (model : Model) {fragments : List Fragment} (canonical : Canonical fragments) :
    Silent (lowered model fragments) [] ↔ fragments.IsChain Apart := by
  induction fragments with
  | nil => simp [lowered]
  | cons fragment rest inductionHypothesis =>
      rcases canonical_cons.mp canonical with ⟨wellFormed, follows, restCanonical⟩
      have parts :
          lowered model (fragment :: rest) =
            (fragment.lower model).toList ++ lowered model rest := List.flatMap_cons
      rw [parts, silent_append, inductionHypothesis restCanonical, List.append_nil,
        List.isChain_cons]
      apply and_congr_left
      intro _
      cases fragment with
      | reference mention =>
          have noSigil := sigils_eq_nil_iff.mp (sigils_access model wellFormed)
          have silent := silent_of_no_sigils noSigil (lowered model rest)
          exact iff_of_true silent fun _ _ => True.intro
      | literal content =>
          cases rest with
          | nil =>
              exact iff_of_true (silent_of_wellFormed_literal wellFormed) (by simp)
          | cons next later =>
              cases next with
              | literal other => exact absurd (follows _ rfl) id
              | reference mention =>
                  have starts : StartsWord [] (lowered model (reference mention :: later)) := by
                    rcases startsWord_access model mention with ⟨c, more, isWord, written⟩
                    refine ⟨c, more ++ lowered model later, isWord, ?_⟩
                    rw [lowered, List.flatMap_cons, lower, written]
                    rfl
                  rw [lower, silent_word_iff wellFormed starts]
                  simp [Apart]

theorem no_reference_iff_silent {text : String} :
    (∀ mention, reference mention ∉ split text) ↔ Silent text.toList [] := by
  constructor
  · intro noReference
    have canonical := canonical_split text
    have whole := sources_split text
    cases parts : split text with
    | nil =>
        rw [parts] at whole
        simp [← whole]
    | cons fragment rest =>
        rw [parts] at canonical whole noReference
        cases fragment with
        | reference mention => exact absurd List.mem_cons_self (noReference mention)
        | literal content =>
            have alone : rest = [] := by
              cases rest with
              | nil => rfl
              | cons next later =>
                  cases next with
                  | literal other => exact absurd ((canonical_cons.mp canonical).2.1 _ rfl) id
                  | reference mention => exact absurd (by simp) (noReference mention)
            subst alone
            have silent := silent_of_wellFormed_literal (canonical_cons.mp canonical).1
            rw [← whole]
            simpa [source] using silent
  · intro silent mention occurs
    have alone : splitFrom [] (text.toList ++ []) = splitFrom (text.toList.reverse ++ []) [] :=
      splitFrom_append_of_silent silent
    rw [List.append_nil, List.append_nil, splitFrom] at alone
    rw [split, alone, ofRun] at occurs
    split at occurs
    · cases occurs
    · cases List.mem_singleton.mp occurs

end Fragment

/-! ## Lowered text -/

namespace Model

theorem sigils_substitute (model : Model) (text : String) :
    sigils (model.substitute text) = (Fragment.split text).flatMap Fragment.bareSigils := by
  rw [sigils, substitute, String.toList_join, List.flatMap_map, List.filter_flatMap]
  apply List.flatMap_congr
  intro fragment occurs
  exact Fragment.sigils_lower model ((Fragment.canonical_split text).wellFormed fragment occurs)

theorem no_reference_substitute_iff {model : Model} {text : String} :
    (∀ mention, .reference mention ∉ Fragment.split (model.substitute text)) ↔
      (Fragment.split text).IsChain Fragment.Apart := by
  rw [Fragment.no_reference_iff_silent,
    ← Fragment.silent_lowered_iff model (Fragment.canonical_split text), Fragment.lowered,
    substitute, String.toList_join, List.flatMap_map]

/-- The sigils of a lowered text are the bare sigils of the text: none if every sigil opens a
reference. The lowered text has no references exactly if no bare sigil stands right before a
reference. It waits for nothing then, and lowering it again does not change it. -/
theorem sigils_of_lowered_text (model : Model) (text : String) :
    (∀ type, sigils (model.lower text type) =
        (Fragment.split text).flatMap Fragment.bareSigils) ∧
      ((∀ before c after, text.toList = before ++ c :: after → isSigil c = true →
          OpensReference (c :: after)) →
        ∀ type, sigils (model.lower text type) = []) ∧
      ((Fragment.split text).IsChain Fragment.Apart →
        dependencies (model.lower text none) = [] ∧
          model.lower (model.lower text none) none = model.lower text none) ∧
      ((Fragment.split text).IsChain Fragment.Apart ↔
        ∀ mention, .reference mention ∉ Fragment.split (model.lower text none)) := by
  have bare : ∀ type, sigils (model.lower text type) =
      (Fragment.split text).flatMap Fragment.bareSigils := by
    intro type
    rw [lower, sigils_conform, sigils_substitute]
  refine ⟨bare, ?_, ?_, no_reference_substitute_iff.symm⟩
  · intro opened type
    rw [bare, List.flatMap_eq_nil_iff]
    intro fragment occurs
    exact Fragment.bareSigils_eq_nil opened occurs
  · intro apart
    have noReference :
        ∀ mention, .reference mention ∉ Fragment.split (model.substitute text) :=
      no_reference_substitute_iff.mpr apart
    constructor
    · rw [List.eq_nil_iff_forall_not_mem]
      intro name waits
      rcases mem_dependencies_iff.mp waits with ⟨mention, occurs, _⟩
      exact noReference mention occurs
    · exact substitute_of_no_reference noReference

/-- References side by side leave no sigil behind. A remainder is no reference as long as it stands
apart from one: written against it, the call that takes its place becomes a group member. -/
theorem sigils_of_lowered_text_price :
    sigils (priceModel.lower "#rate$order.total::decimal" (some .object)) = [] ∧
      (Fragment.split "50 % 3 > #rate").IsChain Fragment.Apart ∧
      dependencies (priceModel.lower "50 % 3 > #rate" none) = [] ∧
      priceModel.lower (priceModel.lower "50 % 3 > #rate" none) none =
        priceModel.lower "50 % 3 > #rate" none ∧
      ¬ (Fragment.split "10%$n").IsChain Fragment.Apart ∧
      dependencies (priceModel.lower "10%$n" none) = ["ctx_value"] := by
  have opened :
      ∀ before c after, "#rate$order.total::decimal".toList = before ++ c :: after →
        isSigil c = true → OpensReference (c :: after) := by
    intro before c after written isOne
    have everywhere :
        ∀ tail ∈ "#rate$order.total::decimal".toList.tails,
          tail.head?.any isSigil = true → OpensReference tail := by decide +kernel
    exact everywhere (c :: after) ((List.mem_tails ..).mpr ⟨before, written.symm⟩) isOne
  have apart : (Fragment.split "50 % 3 > #rate").IsChain Fragment.Apart := by decide +kernel
  have noSigil := (sigils_of_lowered_text priceModel "#rate$order.total::decimal").2.1 opened
  have settled := (sigils_of_lowered_text priceModel "50 % 3 > #rate").2.2.1 apart
  exact
    ⟨noSigil (some .object), apart, settled.1, settled.2, by decide +kernel, by decide +kernel⟩

end Model

end FeatureRules
