import FeatureRules.Proofs.Reference.Reading
import Mathlib.Data.List.Chain
import Mathlib.Data.List.Infix

/-!
# Splitting a text into fragments

The fragments of a text write the text again, and they are in canonical form: literal runs are as
long as possible, no reference is left in one of them, and every reference is read to its end. A text
is written by one list of fragments in canonical form, which is the one that the split returns.
-/

namespace FeatureRules

namespace Fragment

/-! ## Canonical form -/

/-- A literal run is not empty and no reference opens in it. The parts of a reference are words. -/
def WellFormed : Fragment → Prop
  | literal content =>
      content ≠ "" ∧ ∀ tail ∈ content.toList.tails, ¬ OpensReference tail
  | reference mention => mention.WellFormed

instance : (fragment : Fragment) → Decidable fragment.WellFormed
  | literal _ => inferInstanceAs (Decidable (_ ∧ _))
  | reference mention => inferInstanceAs (Decidable mention.WellFormed)

/-- Which fragment may stand behind which: a literal run neither behind another one nor behind a
reference that it would go on with. -/
def MayPrecede : Fragment → Fragment → Prop
  | literal _, literal _ => False
  | reference mention, literal content => ¬ mention.ContinuedBy content.toList
  | _, reference _ => True

instance : (fragment next : Fragment) → Decidable (fragment.MayPrecede next)
  | literal _, literal _ => inferInstanceAs (Decidable False)
  | reference _, literal _ => inferInstanceAs (Decidable (¬ _))
  | literal _, reference _ => inferInstanceAs (Decidable True)
  | reference _, reference _ => inferInstanceAs (Decidable True)

structure Canonical (fragments : List Fragment) : Prop where
  wellFormed : ∀ fragment ∈ fragments, fragment.WellFormed
  adjacent : fragments.IsChain MayPrecede

instance (fragments : List Fragment) : Decidable (Canonical fragments) :=
  decidable_of_iff
    ((∀ fragment ∈ fragments, fragment.WellFormed) ∧ fragments.IsChain MayPrecede)
    ⟨fun ⟨wellFormed, adjacent⟩ => ⟨wellFormed, adjacent⟩,
      fun ⟨wellFormed, adjacent⟩ => ⟨wellFormed, adjacent⟩⟩

theorem canonical_nil : Canonical [] :=
  ⟨by simp, List.isChain_nil⟩

theorem canonical_cons {fragment : Fragment} {rest : List Fragment} :
    Canonical (fragment :: rest) ↔
      fragment.WellFormed ∧ (∀ next ∈ rest.head?, fragment.MayPrecede next) ∧
        Canonical rest := by
  constructor
  · rintro ⟨wellFormed, adjacent⟩
    rw [List.forall_mem_cons] at wellFormed
    rw [List.isChain_cons] at adjacent
    exact ⟨wellFormed.1, adjacent.1, wellFormed.2, adjacent.2⟩
  · rintro ⟨wellFormed, first, rest⟩
    exact
      { wellFormed := List.forall_mem_cons.mpr ⟨wellFormed, rest.wellFormed⟩
        adjacent := List.isChain_cons.mpr ⟨first, rest.adjacent⟩ }

theorem Canonical.right_of_append
    {before after : List Fragment} (canonical : Canonical (before ++ after)) :
    Canonical after where
  wellFormed := fun fragment member =>
    canonical.wellFormed fragment (List.mem_append_right before member)
  adjacent := canonical.adjacent.right_of_append

/-! ## Written fragments -/

@[simp]
theorem toList_sources_nil : (sources []).toList = [] := by
  simp [sources]

@[simp]
theorem toList_sources_cons (fragment : Fragment) (rest : List Fragment) :
    (sources (fragment :: rest)).toList = fragment.source.toList ++ (sources rest).toList := by
  simp [sources]

theorem join_map_source (fragments : List Fragment) :
    String.join (fragments.map source) = sources fragments := by
  induction fragments with
  | nil => rfl
  | cons fragment rest inductionHypothesis =>
      rw [List.map_cons, String.join_cons, inductionHypothesis, sources]

theorem toList_sources_append (before after : List Fragment) :
    (sources (before ++ after)).toList = (sources before).toList ++ (sources after).toList := by
  induction before with
  | nil => simp
  | cons fragment rest inductionHypothesis =>
      rw [List.cons_append, toList_sources_cons, toList_sources_cons, inductionHypothesis,
        List.append_assoc]

@[simp]
theorem ofRun_nil : ofRun [] = [] := by
  rfl

theorem ofRun_of_ne_nil {run : List Char} (nonempty : run ≠ []) :
    ofRun run = [literal (String.ofList run.reverse)] := by
  simp [ofRun, nonempty]

theorem ofRun_reverse_toList {content : String} (nonempty : content ≠ "") :
    ofRun content.toList.reverse = [literal content] := by
  rw [ofRun_of_ne_nil (by simpa using nonempty), List.reverse_reverse, String.ofList_toList]

@[simp]
theorem toList_sources_ofRun (run : List Char) :
    (sources (ofRun run)).toList = run.reverse := by
  by_cases empty : run = []
  · simp [empty]
  · simp [ofRun_of_ne_nil empty, source]

theorem toList_sources_splitFrom (run remaining : List Char) :
    (sources (splitFrom run remaining)).toList = run.reverse ++ remaining := by
  fun_induction splitFrom run remaining with
  | case1 run => simp
  | case2 run c rest mention after found inductionHypothesis =>
      have written := (Reference.read?_eq_some_iff.mp found).1
      rw [toList_sources_append, toList_sources_ofRun, toList_sources_cons, inductionHypothesis,
        written]
      rfl
  | case3 run c rest unread inductionHypothesis =>
      rw [inductionHypothesis]
      simp

/-! ## Text behind a fragment -/

/-- A text is empty or starts with a sigil, as the text behind a literal run does. -/
def SigilFirst (text : List Char) : Prop :=
  ∀ c ∈ text.head?, ∃ sigil : Sigil, c = sigil.char

theorem sigilFirst_sources_reference (mention : Reference) (rest : List Fragment) :
    SigilFirst (sources (reference mention :: rest)).toList := by
  intro c first
  rw [toList_sources_cons, source, Reference.toList_source] at first
  cases first
  exact ⟨mention.sigil, rfl⟩

theorem sigilFirst_sources_of_literal
    {content : String} {rest : List Fragment}
    (canonical : Canonical (literal content :: rest)) :
    SigilFirst (sources rest).toList := by
  have follows := (canonical_cons.mp canonical).2.1
  cases rest with
  | nil => simp [SigilFirst]
  | cons next later =>
      have mayPrecede := follows next rfl
      cases next with
      | literal _ => exact absurd mayPrecede id
      | reference mention => exact sigilFirst_sources_reference mention later

/-- A text is empty or starts with a character that goes on with no reference. -/
def Detached (text : List Char) : Prop :=
  ∀ c ∈ text.head?, isWordChar c = false ∧ c ≠ '.' ∧ c ≠ ':'

theorem SigilFirst.detached {text : List Char} (boundary : SigilFirst text) : Detached text := by
  intro c first
  obtain ⟨sigil, rfl⟩ := boundary c first
  refine ⟨sigil.isWordChar_char, ?_, ?_⟩
  · cases sigil <;> decide
  · cases sigil <;> decide

theorem not_startsWord_of_detached
    {opening text : List Char} (points : ∀ c ∈ opening, c = '.' ∨ c = ':')
    (detached : Detached text) :
    ¬ StartsWord opening text := by
  intro starts
  obtain ⟨c, rest, word, rfl⟩ := starts
  cases opening with
  | nil =>
      rw [(detached c rfl).1] at word
      cases word
  | cons first opening =>
      obtain ⟨_, noPoint, noColon⟩ := detached first rfl
      rcases points first List.mem_cons_self with point | colon
      · exact noPoint point
      · exact noColon colon

/-- Whether a text starts with a word does not depend on detached text behind it. -/
theorem startsWord_append_iff
    {opening content rest : List Char} (points : ∀ c ∈ opening, c = '.' ∨ c = ':')
    (detached : Detached rest) :
    StartsWord opening (content ++ rest) ↔ StartsWord opening content := by
  induction opening generalizing content with
  | nil =>
      cases content with
      | nil => simp [not_startsWord_of_detached points detached]
      | cons c more => simp
  | cons first opening inductionHypothesis =>
      cases content with
      | nil => simp [not_startsWord_of_detached points detached]
      | cons c more =>
          have pointsRest : ∀ c ∈ opening, c = '.' ∨ c = ':' := fun c member =>
            points c (List.mem_cons_of_mem first member)
          rw [List.cons_append, startsWord_cons_cons, startsWord_cons_cons,
            inductionHypothesis pointsRest]

theorem continuedBy_append_iff
    {mention : Reference} {content rest : List Char} (detached : Detached rest) :
    mention.ContinuedBy (content ++ rest) ↔ mention.ContinuedBy content := by
  unfold Reference.ContinuedBy
  rw [startsWord_append_iff (by simp) detached, startsWord_append_iff (by simp) detached,
    startsWord_append_iff (by simp) detached]

theorem opensReference_append_iff
    {content rest : List Char} (nonempty : content ≠ []) (detached : Detached rest) :
    OpensReference (content ++ rest) ↔ OpensReference content := by
  cases content with
  | nil => exact absurd rfl nonempty
  | cons c more =>
      unfold OpensReference
      simp only [List.cons_append, startsWord_cons_cons]
      rw [startsWord_append_iff (by simp) detached]

/-- The text behind a reference does not go on with it, however many fragments write that text. -/
theorem canonical_reference_cons {mention : Reference} {rest : List Fragment} :
    Canonical (reference mention :: rest) ↔
      mention.WellFormed ∧ ¬ mention.ContinuedBy (sources rest).toList ∧ Canonical rest := by
  rw [canonical_cons]
  refine and_congr_right fun _ => and_congr_left fun canonical => ?_
  cases rest with
  | nil => simp [Reference.ContinuedBy]
  | cons next later =>
      cases next with
      | literal content =>
          have boundary := sigilFirst_sources_of_literal canonical
          rw [toList_sources_cons, continuedBy_append_iff boundary.detached]
          simp [MayPrecede, source]
      | reference other =>
          have boundary := sigilFirst_sources_reference other later
          rw [← List.nil_append (sources _).toList, continuedBy_append_iff boundary.detached]
          simp [MayPrecede, Reference.ContinuedBy]

/-! ## The split is canonical -/

/-- No reference opens in a run, read with the remaining text behind it. -/
def Silent (run remaining : List Char) : Prop :=
  ∀ tail, tail <:+ run → tail ≠ [] → ¬ OpensReference (tail ++ remaining)

@[simp]
theorem silent_nil (remaining : List Char) : Silent [] remaining := by
  simp [Silent]

theorem silent_cons {c : Char} {run remaining : List Char} :
    Silent (c :: run) remaining ↔
      ¬ OpensReference (c :: (run ++ remaining)) ∧ Silent run remaining := by
  simp only [Silent, List.suffix_cons_iff]
  constructor
  · intro silent
    exact ⟨silent (c :: run) (Or.inl rfl) (List.cons_ne_nil c run),
      fun tail suffix => silent tail (Or.inr suffix)⟩
  · rintro ⟨first, silent⟩ tail (rfl | suffix) nonempty
    · exact first
    · exact silent tail suffix nonempty

theorem silent_concat {c : Char} {run remaining : List Char} :
    Silent (run ++ [c]) remaining ↔
      Silent run (c :: remaining) ∧ ¬ OpensReference (c :: remaining) := by
  induction run with
  | nil => simp [silent_cons]
  | cons first run inductionHypothesis =>
      rw [List.cons_append, silent_cons, silent_cons, inductionHypothesis, List.append_assoc,
        List.singleton_append, and_assoc]

theorem wellFormed_literal_iff
    {content : String} {rest : List Char} (boundary : SigilFirst rest) :
    (literal content).WellFormed ↔ content ≠ "" ∧ Silent content.toList rest := by
  refine and_congr_right fun _ => ?_
  simp only [List.mem_tails, Silent]
  constructor
  · intro closed tail suffix nonempty
    rw [opensReference_append_iff nonempty boundary.detached]
    exact closed tail suffix
  · intro silent tail suffix opens
    have nonempty : tail ≠ [] := by
      rintro rfl
      simp [OpensReference] at opens
    exact
      silent tail suffix nonempty
        ((opensReference_append_iff nonempty boundary.detached).mpr opens)

theorem canonical_ofRun_append
    {run remaining : List Char} {fragments : List Fragment}
    (silent : Silent run.reverse remaining) (boundary : SigilFirst remaining)
    (canonical : Canonical fragments)
    (noLiteral : ∀ content, ∀ next ∈ fragments.head?, (literal content).MayPrecede next) :
    Canonical (ofRun run ++ fragments) := by
  by_cases empty : run = []
  · rw [empty, ofRun_nil, List.nil_append]
    exact canonical
  · rw [ofRun_of_ne_nil empty, List.singleton_append, canonical_cons]
    refine ⟨?_, noLiteral _, canonical⟩
    rw [wellFormed_literal_iff boundary, String.toList_ofList]
    exact ⟨by simpa using empty, silent⟩

theorem canonical_splitFrom
    {run remaining : List Char} (silent : Silent run.reverse remaining) :
    Canonical (splitFrom run remaining) := by
  -- The open run carries the induction: no reference opens in it, and the remaining text has to be
  -- in view, because a sigil at the end of the run may open one with the next character.
  fun_induction splitFrom run remaining with
  | case1 run =>
      have closed :=
        canonical_ofRun_append silent (by simp [SigilFirst]) canonical_nil (by simp)
      rwa [List.append_nil] at closed
  | case2 run c rest mention after found inductionHypothesis =>
      obtain ⟨written, wellFormed, ended⟩ := Reference.read?_eq_some_iff.mp found
      have afterWritten : (sources (splitFrom [] after)).toList = after :=
        toList_sources_splitFrom [] after
      have boundary := sigilFirst_sources_reference mention (splitFrom [] after)
      rw [toList_sources_cons, afterWritten, source, ← written] at boundary
      apply canonical_ofRun_append silent boundary
      · rw [canonical_reference_cons, afterWritten]
        exact ⟨wellFormed, ended, inductionHypothesis (silent_nil after)⟩
      · intro content next first
        cases first
        exact True.intro
  | case3 run c rest unread inductionHypothesis =>
      apply inductionHypothesis
      rw [List.reverse_cons, silent_concat]
      exact ⟨silent, Reference.read?_eq_none_iff.mp unread⟩

/-! ## Splitting what canonical fragments write -/

theorem splitFrom_of_read?
    {run text after : List Char} {mention : Reference}
    (found : Reference.read? text = some (mention, after)) :
    splitFrom run text = ofRun run ++ reference mention :: splitFrom [] after := by
  cases text with
  | nil => cases found
  | cons c rest =>
      rw [splitFrom]
      split
      · next otherFound =>
          rw [found] at otherFound
          cases otherFound
          rfl
      · next unread =>
          rw [found] at unread
          cases unread

theorem splitFrom_cons_of_not_opensReference
    {run rest : List Char} {c : Char} (closed : ¬ OpensReference (c :: rest)) :
    splitFrom run (c :: rest) = splitFrom (c :: run) rest := by
  have unread := Reference.read?_eq_none_iff.mpr closed
  rw [splitFrom]
  split
  · next found =>
      rw [unread] at found
      cases found
  · rfl

theorem splitFrom_append_of_silent
    {run content remaining : List Char} (silent : Silent content remaining) :
    splitFrom run (content ++ remaining) = splitFrom (content.reverse ++ run) remaining := by
  induction content generalizing run with
  | nil => rfl
  | cons c content inductionHypothesis =>
      rw [silent_cons] at silent
      rw [List.cons_append, splitFrom_cons_of_not_opensReference silent.1,
        inductionHypothesis silent.2, List.reverse_cons, List.append_assoc,
        List.singleton_append]

theorem eq_nil_of_canonical_ofRun_append
    {run : List Char} {content : String} {rest : List Fragment}
    (canonical : Canonical (ofRun run ++ literal content :: rest)) :
    run = [] := by
  by_contra nonempty
  rw [ofRun_of_ne_nil nonempty, List.singleton_append] at canonical
  exact (canonical_cons.mp canonical).2.1 (literal content) rfl

/-- The open run is completed by what the split has still to read. -/
theorem splitFrom_sources
    {run : List Char} {fragments : List Fragment}
    (canonical : Canonical (ofRun run ++ fragments)) :
    splitFrom run (sources fragments).toList = ofRun run ++ fragments := by
  induction fragments generalizing run with
  | nil => simp [splitFrom]
  | cons fragment rest inductionHypothesis =>
      have fromHere := canonical.right_of_append
      cases fragment with
      | literal content =>
          have boundary := sigilFirst_sources_of_literal fromHere
          obtain ⟨nonempty, silent⟩ :=
            (wellFormed_literal_iff boundary).mp (canonical_cons.mp fromHere).1
          have ofContent := ofRun_reverse_toList nonempty
          have empty := eq_nil_of_canonical_ofRun_append canonical
          rw [empty, toList_sources_cons, source, splitFrom_append_of_silent silent,
            List.append_nil, inductionHypothesis (ofContent ▸ fromHere), ofContent]
          rfl
      | reference mention =>
          obtain ⟨wellFormed, ended, later⟩ := canonical_reference_cons.mp fromHere
          have found := Reference.read?_eq_some_iff.mpr ⟨rfl, wellFormed, ended⟩
          have continued : splitFrom [] (sources rest).toList = rest :=
            inductionHypothesis later
          rw [toList_sources_cons, source, splitFrom_of_read? found, continued]

theorem canonical_split (text : String) : Canonical (split text) :=
  canonical_splitFrom (silent_nil text.toList)

theorem sources_split (text : String) : sources (split text) = text := by
  apply String.toList_injective
  exact toList_sources_splitFrom [] text.toList

theorem split_sources {fragments : List Fragment} (canonical : Canonical fragments) :
    split (sources fragments) = fragments := by
  have emptyRun : Canonical (ofRun [] ++ fragments) := canonical
  exact splitFrom_sources emptyRun

/-! ## Lossless splitting and unambiguous writing -/

/-- `5$ ≤ $order.total::decimal.x #limit%regular...` in fragments: a sigil that opens nothing, a point
behind a cast, two references side by side and points that no word follows. -/
def limitCheck : List Fragment :=
  [literal "5$ ≤ ", reference ⟨.parameter, "order", ["total"], some "decimal"⟩, literal ".x ",
    reference ⟨.result, "limit", [], none⟩, reference ⟨.membership, "regular", [], none⟩,
    literal "..."]

theorem canonical_limitCheck : Canonical limitCheck := by
  decide +kernel

/-- The split of a text writes the text again, is in canonical form, and leaves nothing behind a
reference that would belong to it. -/
theorem sources_split_and_canonical (text : String) :
    sources (split text) = text ∧ Canonical (split text) ∧
      ∀ before mention after, split text = before ++ reference mention :: after →
        ¬ mention.ContinuedBy (sources after).toList := by
  refine ⟨sources_split text, canonical_split text, ?_⟩
  intro before mention after parts
  have canonical := canonical_split text
  rw [parts] at canonical
  exact (canonical_reference_cons.mp canonical.right_of_append).2.1

theorem sources_split_and_canonical_limitCheck :
    split (sources limitCheck) =
        limitCheck.take 4 ++ reference ⟨.membership, "regular", [], none⟩ :: [literal "..."] ∧
      ¬ Reference.ContinuedBy ⟨.membership, "regular", [], none⟩
        (sources [literal "..."]).toList := by
  have parts :
      split (sources limitCheck) =
        limitCheck.take 4 ++ reference ⟨.membership, "regular", [], none⟩ :: [literal "..."] :=
    split_sources canonical_limitCheck
  exact ⟨parts, (sources_split_and_canonical (sources limitCheck)).2.2 _ _ _ parts⟩

/-- Fragments in canonical form are the split of the text that they write, and no others in canonical
form write it. -/
theorem split_sources_of_canonical
    {fragments : List Fragment} (canonical : Canonical fragments) :
    split (sources fragments) = fragments ∧
      ∀ others, Canonical others → sources others = sources fragments → others = fragments := by
  refine ⟨split_sources canonical, ?_⟩
  intro others othersCanonical sameText
  rw [← split_sources othersCanonical, sameText, split_sources canonical]

theorem split_sources_of_canonical_limitCheck :
    Canonical limitCheck ∧ split (sources limitCheck) = limitCheck ∧
      ∀ others, Canonical others → sources others = sources limitCheck → others = limitCheck :=
  ⟨canonical_limitCheck, split_sources_of_canonical canonical_limitCheck⟩

end Fragment

end FeatureRules
