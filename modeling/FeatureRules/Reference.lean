import FeatureRules.ValueType

/-!
# References in rule text

A reference is a sigil, a name, any number of path segments and an optional cast, as in
`$order.items::slice`. This module holds references, their written form and the split of a text into
literal runs and references.
-/

namespace FeatureRules

/-- The character that opens a reference and says what the name stands for. -/
inductive Sigil where
  /-- `$name`, an input supplied by the caller. -/
  | parameter
  /-- `#name`, the value of a rule. -/
  | result
  /-- `@name`, another way to write `#name`. -/
  | synonym
  /-- `%name`, whether the value of a group member is among its entries. -/
  | membership
deriving DecidableEq, Repr

namespace Sigil

def char : Sigil → Char
  | parameter => '$'
  | result => '#'
  | synonym => '@'
  | membership => '%'

def ofChar? : Char → Option Sigil
  | '$' => some parameter
  | '#' => some result
  | '@' => some synonym
  | '%' => some membership
  | _ => none

end Sigil

structure Reference where
  sigil : Sigil
  name : String
  path : List String
  cast : Option String
deriving DecidableEq, Repr

namespace Reference

def pathSource : List String → String
  | [] => ""
  | segment :: rest => "." ++ segment ++ pathSource rest

def castSource : Option String → String
  | none => ""
  | some type => "::" ++ type

def source (reference : Reference) : String :=
  String.singleton reference.sigil.char ++ reference.name ++ pathSource reference.path ++
    castSource reference.cast

def castType? (reference : Reference) : Option ValueType :=
  reference.cast.bind ValueType.ofName?

/-- The rule that has to fire before the reference can be read. Parameters wait for nothing, and a
membership check waits for the value of its group member. -/
def dependency? (reference : Reference) : Option String :=
  match reference.sigil with
  | .parameter => none
  | .result | .synonym => some reference.name
  | .membership => some (reference.name ++ "_value")

end Reference

/-- A part of a rule text: copied as it stands, or a reference. -/
inductive Fragment where
  | literal (content : String)
  | reference (mention : Reference)
deriving DecidableEq, Repr

namespace Fragment

def source : Fragment → String
  | literal content => content
  | reference mention => mention.source

def dependency? : Fragment → Option String
  | literal _ => none
  | reference mention => mention.dependency?

def sources : List Fragment → String
  | [] => ""
  | fragment :: rest => fragment.source ++ sources rest

end Fragment

/-- Characters of names, path segments and casts: ASCII letters, ASCII digits and the underscore. -/
def isWordChar (c : Char) : Bool :=
  c.isAlphanum || c == '_'

namespace Reference

/-- Read as many path segments as stand at the start of a text. A point that no word follows is left
in the text. -/
def readPath (text : List Char) : List String × List Char :=
  match text with
  | '.' :: rest =>
      let word := rest.takeWhile isWordChar
      if word.isEmpty then ([], text)
      else
        let later := readPath (rest.dropWhile isWordChar)
        (String.ofList word :: later.1, later.2)
  | _ => ([], text)
termination_by text.length
decreasing_by
  have shorter := (List.dropWhile_sublist (l := rest) isWordChar).length_le
  simp only [List.length_cons]
  omega

/-- Read a cast at the start of a text. Colons that no word follows are left in the text. -/
def readCast (text : List Char) : Option String × List Char :=
  match text with
  | ':' :: ':' :: rest =>
      let word := rest.takeWhile isWordChar
      if word.isEmpty then (none, text)
      else (some (String.ofList word), rest.dropWhile isWordChar)
  | _ => (none, text)

/-- Read the longest reference at the start of a text. -/
def read? (text : List Char) : Option (Reference × List Char) :=
  match text with
  | [] => none
  | c :: rest =>
      match Sigil.ofChar? c with
      | none => none
      | some sigil =>
          let word := rest.takeWhile isWordChar
          if word.isEmpty then none
          else
            let path := readPath (rest.dropWhile isWordChar)
            let cast := readCast path.2
            some (⟨sigil, String.ofList word, path.1, cast.1⟩, cast.2)

theorem readPath_length_le (text : List Char) : (readPath text).2.length ≤ text.length := by
  fun_induction readPath text with
  | case1 => simp
  | case2 rest word _ later induction =>
      have shorter := (List.dropWhile_sublist (l := rest) isWordChar).length_le
      simp only [later, List.length_cons]
      omega
  | case3 => simp

theorem readCast_length_le (text : List Char) : (readCast text).2.length ≤ text.length := by
  fun_cases readCast text with
  | case1 => simp
  | case2 rest word _ =>
      have shorter := (List.dropWhile_sublist (l := rest) isWordChar).length_le
      simp only [List.length_cons]
      omega
  | case3 => simp

/-- A reference takes at least one character. -/
theorem length_lt_of_read? {text after : List Char} {reference : Reference}
    (found : read? text = some (reference, after)) : after.length < text.length := by
  revert found
  fun_cases read? text with
  | case1 => simp
  | case2 => simp
  | case3 => simp
  | case4 c rest sigil _ word _ path cast =>
      intro found
      have shorter := (List.dropWhile_sublist (l := rest) isWordChar).length_le
      have pathShorter := readPath_length_le (rest.dropWhile isWordChar)
      have castShorter := readCast_length_le (readPath (rest.dropWhile isWordChar)).2
      simp only [Option.some.injEq, Prod.mk.injEq] at found
      simp only [cast, path] at found
      simp only [List.length_cons, ← found.2]
      omega

end Reference

namespace Fragment

/-- A literal run, given in reverse, as a fragment. An empty run gives none. -/
def ofRun (run : List Char) : List Fragment :=
  if run.isEmpty then [] else [literal (String.ofList run.reverse)]

/-- Split a text behind an open literal run, given in reverse. -/
def splitFrom (run : List Char) (remaining : List Char) : List Fragment :=
  match remaining with
  | [] => ofRun run
  | c :: rest =>
      match _found : Reference.read? (c :: rest) with
      | some (mention, after) => ofRun run ++ reference mention :: splitFrom [] after
      | none => splitFrom (c :: run) rest
termination_by remaining.length
decreasing_by
  · exact Reference.length_lt_of_read? _found
  · simp

/-- Split a text into literal runs and references, in order. What does not open a reference is
copied. -/
def split (content : String) : List Fragment :=
  splitFrom [] content.toList

end Fragment

/-- The rules that a text waits for, in order of appearance and with repetitions. -/
def dependencies (content : String) : List String :=
  (Fragment.split content).filterMap Fragment.dependency?

end FeatureRules
