import FeatureRules.Reference
import Mathlib.Data.List.TakeWhile

/-!
# Reading references

A reference is read exactly where its written form stands and the text behind it does not go on with
it. Nothing is read exactly where no sigil with a word character behind it stands.
-/

namespace FeatureRules

/-! ## Words -/

def IsWord (text : String) : Prop :=
  text ≠ "" ∧ ∀ c ∈ text.toList, isWordChar c = true

instance (text : String) : Decidable (IsWord text) :=
  decidable_of_iff (text ≠ "" ∧ text.toList.all isWordChar = true) (by simp [IsWord])

/-- A text starts with an opening that has a word character right behind it. -/
def StartsWord (opening text : List Char) : Prop :=
  ∃ c rest, isWordChar c = true ∧ text = opening ++ c :: rest

@[simp]
theorem not_startsWord_nil (opening : List Char) : ¬ StartsWord opening [] := by
  simp [StartsWord]

@[simp]
theorem startsWord_nil_cons {c : Char} {rest : List Char} :
    StartsWord [] (c :: rest) ↔ isWordChar c = true := by
  simp [StartsWord]

@[simp]
theorem startsWord_cons_cons {first c : Char} {opening rest : List Char} :
    StartsWord (first :: opening) (c :: rest) ↔ c = first ∧ StartsWord opening rest := by
  simp [StartsWord, and_left_comm]

instance : (opening text : List Char) → Decidable (StartsWord opening text)
  | opening, [] => isFalse (not_startsWord_nil opening)
  | [], _ :: _ => decidable_of_iff _ startsWord_nil_cons.symm
  | _ :: opening, _ :: rest =>
      letI := instDecidableStartsWord opening rest
      decidable_of_iff _ startsWord_cons_cons.symm

theorem isWord_ofList {word : List Char} :
    IsWord (String.ofList word) ↔ word ≠ [] ∧ ∀ c ∈ word, isWordChar c = true := by
  simp [IsWord]

theorem takeWhile_isWordChar_eq_nil_iff {text : List Char} :
    text.takeWhile isWordChar = [] ↔ ¬ StartsWord [] text := by
  cases text with
  | nil => simp
  | cons c rest =>
      by_cases word : isWordChar c = true <;> simp [word]

theorem not_startsWord_dropWhile (text : List Char) :
    ¬ StartsWord [] (text.dropWhile isWordChar) := by
  induction text with
  | nil =>
      exact not_startsWord_nil []
  | cons c rest inductionHypothesis =>
      by_cases word : isWordChar c = true
      · rw [List.dropWhile_cons_of_pos word]
        exact inductionHypothesis
      · rw [List.dropWhile_cons_of_neg word, startsWord_nil_cons]
        exact word

theorem takeWhile_isWordChar_append
    {word rest : List Char} (all : ∀ c ∈ word, isWordChar c = true)
    (ended : ¬ StartsWord [] rest) :
    (word ++ rest).takeWhile isWordChar = word := by
  rw [List.takeWhile_append_of_pos all, takeWhile_isWordChar_eq_nil_iff.mpr ended,
    List.append_nil]

theorem dropWhile_isWordChar_append
    {word rest : List Char} (all : ∀ c ∈ word, isWordChar c = true)
    (ended : ¬ StartsWord [] rest) :
    (word ++ rest).dropWhile isWordChar = rest := by
  have whole := List.takeWhile_append_dropWhile (p := isWordChar) (l := word ++ rest)
  rw [takeWhile_isWordChar_append all ended] at whole
  exact List.append_cancel_left whole

/-- The word at the start of a text, which is no word only if it is empty. -/
theorem isWord_takeWhile
    {text : List Char} (nonempty : ¬ (text.takeWhile isWordChar).isEmpty) :
    IsWord (String.ofList (text.takeWhile isWordChar)) := by
  rw [isWord_ofList]
  refine ⟨by simpa using nonempty, ?_⟩
  intro c member
  exact List.mem_takeWhile_imp member

namespace Reference

/-! ## Paths -/

@[simp]
theorem toList_pathSource_nil : (pathSource []).toList = [] := by
  simp [pathSource]

@[simp]
theorem toList_pathSource_cons (segment : String) (rest : List String) :
    (pathSource (segment :: rest)).toList =
      '.' :: (segment.toList ++ (pathSource rest).toList) := by
  simp [pathSource]

theorem pathSource_append_readPath (text : List Char) :
    (pathSource (readPath text).1).toList ++ (readPath text).2 = text := by
  fun_induction readPath text with
  | case1 => simp
  | case2 rest word nonempty later inductionHypothesis =>
      rw [toList_pathSource_cons, String.toList_ofList, List.cons_append, List.append_assoc,
        inductionHypothesis, List.takeWhile_append_dropWhile]
  | case3 => simp

theorem isWord_of_mem_readPath (text : List Char) :
    ∀ segment ∈ (readPath text).1, IsWord segment := by
  fun_induction readPath text with
  | case1 => simp
  | case2 rest word nonempty later inductionHypothesis =>
      rw [List.forall_mem_cons]
      exact ⟨isWord_takeWhile nonempty, inductionHypothesis⟩
  | case3 => simp

theorem not_startsWord_point_readPath (text : List Char) :
    ¬ StartsWord ['.'] (readPath text).2 := by
  fun_induction readPath text with
  | case1 rest word empty =>
      rw [startsWord_cons_cons, not_and]
      intro _
      exact takeWhile_isWordChar_eq_nil_iff.mp (List.isEmpty_iff.mp empty)
  | case2 rest word nonempty later inductionHypothesis =>
      exact inductionHypothesis
  | case3 text other =>
      intro starts
      obtain ⟨c, rest, _, rfl⟩ := starts
      exact other (c :: rest) rfl

theorem not_startsWord_readPath
    (text : List Char) (ended : ¬ StartsWord [] text) :
    ¬ StartsWord [] (readPath text).2 := by
  fun_induction readPath text with
  | case1 => exact ended
  | case2 rest word nonempty later inductionHypothesis =>
      exact inductionHypothesis (not_startsWord_dropWhile rest)
  | case3 => exact ended

theorem readPath_of_not_startsWord
    {text : List Char} (ended : ¬ StartsWord ['.'] text) :
    readPath text = ([], text) := by
  unfold readPath
  split
  · next rest =>
      rw [startsWord_cons_cons, not_and] at ended
      rw [takeWhile_isWordChar_eq_nil_iff.mpr (ended rfl)]
      rfl
  · rfl

theorem not_startsWord_pathSource_append
    (segments : List String) {rest : List Char} (ended : ¬ StartsWord [] rest) :
    ¬ StartsWord [] ((pathSource segments).toList ++ rest) := by
  cases segments with
  | nil => simpa using ended
  | cons segment later =>
      rw [toList_pathSource_cons, List.cons_append, startsWord_nil_cons]
      decide

/-- A path is read to its end when the text behind it goes on neither with its last segment nor with
another one. -/
theorem readPath_append
    {segments : List String} {rest : List Char}
    (words : ∀ segment ∈ segments, IsWord segment)
    (wordEnded : ¬ StartsWord [] rest) (pathEnded : ¬ StartsWord ['.'] rest) :
    readPath ((pathSource segments).toList ++ rest) = (segments, rest) := by
  induction segments with
  | nil =>
      rw [toList_pathSource_nil, List.nil_append]
      exact readPath_of_not_startsWord pathEnded
  | cons segment later inductionHypothesis =>
      obtain ⟨segmentWord, laterWords⟩ := List.forall_mem_cons.mp words
      have nonempty : segment.toList ≠ [] := by
        simpa using segmentWord.1
      have ended := not_startsWord_pathSource_append later wordEnded
      rw [toList_pathSource_cons, List.cons_append, List.append_assoc, readPath,
        takeWhile_isWordChar_append segmentWord.2 ended,
        dropWhile_isWordChar_append segmentWord.2 ended, inductionHypothesis laterWords]
      simp [nonempty]

/-! ## Casts -/

@[simp]
theorem toList_castSource_none : (castSource none).toList = [] := by
  simp [castSource]

@[simp]
theorem toList_castSource_some (type : String) :
    (castSource (some type)).toList = ':' :: ':' :: type.toList := by
  simp [castSource]

theorem castSource_append_readCast (text : List Char) :
    (castSource (readCast text).1).toList ++ (readCast text).2 = text := by
  fun_cases readCast text with
  | case1 => simp
  | case2 rest word nonempty =>
      rw [toList_castSource_some, String.toList_ofList, List.cons_append, List.cons_append,
        List.takeWhile_append_dropWhile]
  | case3 => simp

theorem isWord_of_mem_readCast (text : List Char) :
    ∀ type ∈ (readCast text).1, IsWord type := by
  fun_cases readCast text with
  | case1 => simp
  | case2 rest word nonempty =>
      intro type isType
      cases isType
      exact isWord_takeWhile nonempty
  | case3 => simp

theorem not_startsWord_readCast
    (text : List Char) (ended : ¬ StartsWord [] text) :
    ¬ StartsWord [] (readCast text).2 := by
  fun_cases readCast text with
  | case1 => exact ended
  | case2 rest word nonempty => exact not_startsWord_dropWhile rest
  | case3 => exact ended

theorem readCast_of_none
    {text : List Char} (absent : (readCast text).1 = none) :
    (readCast text).2 = text ∧ ¬ StartsWord [':', ':'] text := by
  have whole := castSource_append_readCast text
  rw [absent, toList_castSource_none, List.nil_append] at whole
  refine ⟨whole, ?_⟩
  revert absent
  fun_cases readCast text with
  | case1 rest word empty =>
      intro _ starts
      rw [startsWord_cons_cons, startsWord_cons_cons] at starts
      exact takeWhile_isWordChar_eq_nil_iff.mp (List.isEmpty_iff.mp empty) starts.2.2
  | case2 => simp
  | case3 text other =>
      intro _ starts
      obtain ⟨c, rest, _, rfl⟩ := starts
      exact other (c :: rest) rfl

theorem readCast_of_not_startsWord
    {text : List Char} (ended : ¬ StartsWord [':', ':'] text) :
    readCast text = (none, text) := by
  unfold readCast
  split
  · next rest =>
      rw [startsWord_cons_cons, startsWord_cons_cons] at ended
      have noWord : ¬ StartsWord [] rest := fun starts => ended ⟨rfl, rfl, starts⟩
      rw [takeWhile_isWordChar_eq_nil_iff.mpr noWord]
      rfl
  · rfl

theorem readCast_append
    {type : String} {rest : List Char} (word : IsWord type) (ended : ¬ StartsWord [] rest) :
    readCast ((castSource (some type)).toList ++ rest) = (some type, rest) := by
  have nonempty : type.toList ≠ [] := by
    simpa using word.1
  rw [toList_castSource_some, List.cons_append, List.cons_append, readCast,
    takeWhile_isWordChar_append word.2 ended, dropWhile_isWordChar_append word.2 ended]
  simp [nonempty]

end Reference

/-! ## Sigils -/

namespace Sigil

@[simp]
theorem ofChar?_char (sigil : Sigil) : ofChar? sigil.char = some sigil := by
  cases sigil <;> rfl

theorem eq_char_of_ofChar?
    {c : Char} {sigil : Sigil} (found : ofChar? c = some sigil) :
    c = sigil.char := by
  unfold ofChar? at found
  split at found <;> cases found <;> rfl

@[simp]
theorem isWordChar_char (sigil : Sigil) : isWordChar sigil.char = false := by
  cases sigil <;> decide

end Sigil

/-- A sigil with a word character behind it stands at the start of a text. -/
def OpensReference (text : List Char) : Prop :=
  ∃ sigil : Sigil, StartsWord [sigil.char] text

/-! ## References -/

namespace Reference

structure WellFormed (reference : Reference) : Prop where
  name : IsWord reference.name
  path : ∀ segment ∈ reference.path, IsWord segment
  cast : ∀ type ∈ reference.cast, IsWord type

instance (reference : Reference) : Decidable reference.WellFormed :=
  decidable_of_iff
    (IsWord reference.name ∧ (∀ segment ∈ reference.path, IsWord segment) ∧
      ∀ type ∈ reference.cast, IsWord type)
    ⟨fun ⟨name, path, cast⟩ => ⟨name, path, cast⟩,
      fun ⟨name, path, cast⟩ => ⟨name, path, cast⟩⟩

/-- A text would belong to the reference in front of it: it goes on with the last word, or it adds a
path segment or a cast to a reference without a cast. -/
def ContinuedBy (reference : Reference) (text : List Char) : Prop :=
  StartsWord [] text ∨
    reference.cast = none ∧ (StartsWord ['.'] text ∨ StartsWord [':', ':'] text)

instance (reference : Reference) (text : List Char) : Decidable (reference.ContinuedBy text) :=
  inferInstanceAs (Decidable (_ ∨ _))

theorem toList_source (reference : Reference) :
    reference.source.toList =
      reference.sigil.char ::
        (reference.name.toList ++
          ((pathSource reference.path).toList ++ (castSource reference.cast).toList)) := by
  simp [source]

theorem read?_eq_none_iff {text : List Char} :
    read? text = none ↔ ¬ OpensReference text := by
  fun_cases read? text with
  | case1 =>
      simp [OpensReference]
  | case2 c rest unknown =>
      simp only [true_iff]
      intro opens
      obtain ⟨sigil, starts⟩ := opens
      rw [startsWord_cons_cons] at starts
      rw [starts.1, Sigil.ofChar?_char] at unknown
      cases unknown
  | case3 c rest sigil found word empty =>
      have noWord := takeWhile_isWordChar_eq_nil_iff.mp (List.isEmpty_iff.mp empty)
      simp [OpensReference, noWord]
  | case4 c rest sigil found word nonempty path cast =>
      have starts : StartsWord [] rest := by
        by_contra noWord
        exact nonempty (List.isEmpty_iff.mpr (takeWhile_isWordChar_eq_nil_iff.mpr noWord))
      have opens : OpensReference (c :: rest) :=
        ⟨sigil, startsWord_cons_cons.mpr ⟨Sigil.eq_char_of_ofChar? found, starts⟩⟩
      simp [opens]

instance (text : List Char) : Decidable (OpensReference text) :=
  decidable_of_iff (¬ read? text = none) (by rw [read?_eq_none_iff, not_not])

/-- What is read is well formed, stands at the start of the text and is not cut short. -/
theorem spec_of_read?
    {text after : List Char} {reference : Reference}
    (found : read? text = some (reference, after)) :
    text = reference.source.toList ++ after ∧ reference.WellFormed ∧
      ¬ reference.ContinuedBy after := by
  revert found
  fun_cases read? text with
  | case1 => simp
  | case2 => simp
  | case3 => simp
  | case4 c rest sigil isSigil word nonempty path cast =>
      intro found
      cases found
      have wordEnded := not_startsWord_dropWhile rest
      have pathWordEnded := not_startsWord_readPath _ wordEnded
      have pathEnded := not_startsWord_point_readPath (rest.dropWhile isWordChar)
      refine ⟨?_, ?_, ?_⟩
      · rw [toList_source, List.cons_append, List.append_assoc, List.append_assoc,
          castSource_append_readCast, pathSource_append_readPath, String.toList_ofList,
          List.takeWhile_append_dropWhile, Sigil.eq_char_of_ofChar? isSigil]
      · exact
          { name := isWord_takeWhile nonempty
            path := isWord_of_mem_readPath _
            cast := isWord_of_mem_readCast _ }
      · intro continued
        rcases continued with moreWord | ⟨noCast, morePath | moreCast⟩
        · exact not_startsWord_readCast _ pathWordEnded moreWord
        · rw [(readCast_of_none noCast).1] at morePath
          exact pathEnded morePath
        · rw [(readCast_of_none noCast).1] at moreCast
          exact (readCast_of_none noCast).2 moreCast

theorem not_startsWord_castSource_append
    {reference : Reference} {after : List Char} (ended : ¬ reference.ContinuedBy after) :
    ¬ StartsWord [] ((castSource reference.cast).toList ++ after) ∧
      ¬ StartsWord ['.'] ((castSource reference.cast).toList ++ after) := by
  cases cast : reference.cast with
  | none =>
      rw [toList_castSource_none, List.nil_append]
      constructor
      · intro moreWord
        exact ended (Or.inl moreWord)
      · intro morePath
        exact ended (Or.inr ⟨cast, Or.inl morePath⟩)
  | some type =>
      rw [toList_castSource_some, List.cons_append, startsWord_nil_cons, startsWord_cons_cons]
      constructor
      · decide
      · simp

theorem readCast_castSource_append
    {reference : Reference} {after : List Char} (wellFormed : reference.WellFormed)
    (ended : ¬ reference.ContinuedBy after) :
    readCast ((castSource reference.cast).toList ++ after) = (reference.cast, after) := by
  cases cast : reference.cast with
  | none =>
      rw [toList_castSource_none, List.nil_append]
      apply readCast_of_not_startsWord
      intro moreCast
      exact ended (Or.inr ⟨cast, Or.inr moreCast⟩)
  | some type =>
      apply readCast_append (wellFormed.cast type cast)
      intro moreWord
      exact ended (Or.inl moreWord)

theorem read?_source_append
    {reference : Reference} {after : List Char} (wellFormed : reference.WellFormed)
    (ended : ¬ reference.ContinuedBy after) :
    read? (reference.source.toList ++ after) = some (reference, after) := by
  obtain ⟨castWordEnded, castPathEnded⟩ := not_startsWord_castSource_append ended
  have nameEnded := not_startsWord_pathSource_append reference.path castWordEnded
  have nonempty : reference.name.toList ≠ [] := by
    simpa using wellFormed.name.1
  rw [toList_source, List.cons_append, List.append_assoc, List.append_assoc, read?,
    Sigil.ofChar?_char]
  simp only [takeWhile_isWordChar_append wellFormed.name.2 nameEnded,
    dropWhile_isWordChar_append wellFormed.name.2 nameEnded,
    readPath_append wellFormed.path castWordEnded castPathEnded,
    readCast_castSource_append wellFormed ended]
  simp [nonempty]

/-- A reference is read exactly where it is written in full and the text behind it does not go on
with it. -/
theorem read?_eq_some_iff
    {text after : List Char} {reference : Reference} :
    read? text = some (reference, after) ↔
      text = reference.source.toList ++ after ∧ reference.WellFormed ∧
        ¬ reference.ContinuedBy after := by
  constructor
  · exact spec_of_read?
  · intro written
    rcases written with ⟨rfl, wellFormed, ended⟩
    exact read?_source_append wellFormed ended

end Reference

end FeatureRules
