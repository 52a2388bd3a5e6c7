import FeatureRules.Template
import Mathlib.Data.List.Chain

/-!
# Meaning of templates

A template is a literal and behind it any number of holes, each with a literal behind it. As long as
none of them holds a brace or a quote, the expression of the template is the concatenation of its
literals and holes, which can be read back from the text. Its value is the template with a value in
place of each hole: nothing but empty literals at the ends is left out.
-/

namespace FeatureRules

namespace Template

/-! ## Templates by their parts -/

/-- A text without braces and quotes. -/
def Plain (text : String) : Prop :=
  ∀ c ∈ text.toList, c ≠ '\x7b' ∧ c ≠ '\x7d' ∧ c ≠ '"'

instance (text : String) : Decidable (Plain text) :=
  decidable_of_iff
    (text.toList.all (fun c => decide (c ≠ '\x7b' ∧ c ≠ '\x7d' ∧ c ≠ '"')) = true)
    (by simp [Plain])

structure Hole where
  content : String
  literal : String
  contentPlain : Plain content
  literalPlain : Plain literal

structure Pattern where
  start : String
  holes : List Hole
  startPlain : Plain start

/-- Holes in some spelling, each with its literal. Holes are counted from an index on. -/
def spellHoles (spelling : Nat → String → String) (index : Nat) : List Hole → String
  | [] => ""
  | part :: rest =>
      spelling index part.content ++ part.literal ++ spellHoles spelling (index + 1) rest

namespace Pattern

/-- The literals of a pattern, with its holes in some spelling. -/
def spell (pattern : Pattern) (spelling : Nat → String → String) : String :=
  pattern.start ++ spellHoles spelling 0 pattern.holes

def template (pattern : Pattern) : String :=
  pattern.spell fun _ content => "\x7b" ++ content ++ "\x7d"

/-- The template with a value in place of each hole. -/
def filled (pattern : Pattern) (values : Nat → String) : String :=
  pattern.spell fun index _ => values index

end Pattern

/-! ## Concatenations -/

inductive Operand where
  | literal (content : String)
  | hole (content : String)
deriving DecidableEq, Repr

namespace Operand

def source : Operand → String
  | literal content => "\"" ++ content ++ "\""
  | hole content => content

/-- The text between the quotes of a literal, or that of a hole. -/
def content : Operand → String
  | literal content => content
  | hole content => content

def isHole : Operand → Bool
  | literal _ => false
  | hole _ => true

/-- A literal at an end of a concatenation, which is left out if it is empty. -/
def atEnd (content : String) : List Operand :=
  if content = "" then [] else [literal content]

end Operand

/-- Holes and literals in turn. All literals are there but for an empty one at the end. -/
def holeOperands : List Hole → List Operand
  | [] => []
  | [last] => .hole last.content :: Operand.atEnd last.literal
  | part :: next :: rest =>
      .hole part.content :: .literal part.literal :: holeOperands (next :: rest)

/-- The operands of a pattern. An empty literal in front is left out if there are holes. -/
def Pattern.operands (pattern : Pattern) : List Operand :=
  if pattern.holes = [] then [.literal pattern.start]
  else Operand.atEnd pattern.start ++ holeOperands pattern.holes

def concatenate (operands : List Operand) : String :=
  String.intercalate "+" (operands.map Operand.source)

/-- The value of a concatenation, given those of its holes. Holes are counted from an index on. -/
def value (values : Nat → String) (index : Nat) : List Operand → String
  | [] => ""
  | .literal content :: rest => content ++ value values index rest
  | .hole _ :: rest => values index ++ value values (index + 1) rest

/-! ## The reader -/

/-- What stands between two literals: a sign, or a hole with a sign on both sides. -/
def between? : List Char → Option (List Operand)
  | ['+'] => some []
  | '+' :: rest =>
      if rest.getLast? = some '+' then some [.hole (String.ofList rest.dropLast)] else none
  | _ => none

/-- The operands of a text that is cut at its quotes, so that every other piece is a literal. -/
def ofPieces? : List (List Char) → Option (List Operand)
  | [] => none
  | [outside] => between? outside
  | outside :: inside :: rest => do
      let earlier ← between? outside
      let later ← ofPieces? rest
      return earlier ++ .literal (String.ofList inside) :: later

/-- The operands of a concatenation. Quotes delimit literals, and all that stands between two literals
is one operand. With a sign at both ends of the text there is a sign on both sides of each. -/
def read? (text : String) : Option (List Operand) :=
  ofPieces? (('+' :: text.toList ++ ['+']).splitOn '"')

/-! ## Quotes in place of braces -/

theorem flatMap_openHoles {text : String} (plain : Plain text) :
    text.toList.flatMap openHoles = text.toList := by
  have kept : ∀ c ∈ text.toList, openHoles c = [c] := by
    intro c member
    obtain ⟨noOpening, noClosing, _⟩ := plain c member
    simp [openHoles, noOpening, noClosing]
  rw [List.flatMap_congr kept, List.flatMap_singleton']

theorem Plain.noQuote {text : String} (plain : Plain text) : '"' ∉ text.toList := by
  intro member
  exact (plain '"' member).2.2 rfl

/-- Holes as they stand behind the closing quote of a literal. -/
def joined : List Hole → List Char
  | [] => []
  | part :: rest =>
      '+' :: part.content.toList ++ '+' :: '"' :: part.literal.toList ++ '"' :: joined rest

theorem quoted_holes (holes : List Hole) (index : Nat) :
    (spellHoles (fun _ content => "\x7b" ++ content ++ "\x7d") index holes).toList.flatMap
        openHoles ++ ['"'] =
      '"' :: joined holes := by
  induction holes generalizing index with
  | nil => rfl
  | cons part rest inductionHypothesis =>
      have braces : openHoles '\x7b' = ['"', '+'] ∧ openHoles '\x7d' = ['+', '"'] := by decide
      simp [spellHoles, joined, braces, flatMap_openHoles part.contentPlain,
        flatMap_openHoles part.literalPlain, inductionHypothesis]

theorem Pattern.quoted_template (pattern : Pattern) :
    '"' :: pattern.template.toList.flatMap openHoles ++ ['"'] =
      '"' :: pattern.start.toList ++ '"' :: joined pattern.holes := by
  rw [template, spell, String.toList_append, List.flatMap_append,
    flatMap_openHoles pattern.startPlain, List.cons_append, List.append_assoc, quoted_holes]
  rfl

/-! ## The ends -/

/-- Quotes at both ends keep white space inside. -/
theorem trim_quoted (content : List Char) :
    trim ('"' :: content ++ ['"']) = '"' :: content ++ ['"'] := by
  have noSpace : isSpace '"' = false := by decide
  simp [trim, noSpace]

theorem dropEmptyLiteral_joined
    {content : List Char} (noQuote : '"' ∉ content) (rest : List Char) :
    dropEmptyLiteral ('"' :: content ++ '"' :: '+' :: rest) =
      if content = [] then rest else '"' :: content ++ '"' :: '+' :: rest := by
  cases content with
  | nil => rfl
  | cons c others =>
      have first : c ≠ '"' := Ne.symm (List.ne_of_not_mem_cons noQuote)
      simp [dropEmptyLiteral, first]

theorem dropEmptyLiteral_alone {content : List Char} (noQuote : '"' ∉ content) :
    dropEmptyLiteral ('"' :: content ++ ['"']) = '"' :: content ++ ['"'] := by
  cases content with
  | nil => rfl
  | cons c others =>
      have first : c ≠ '"' := Ne.symm (List.ne_of_not_mem_cons noQuote)
      simp [dropEmptyLiteral, first]

theorem dropFinalEmptyLiteral_joined
    (front : List Char) {content : List Char} (noQuote : '"' ∉ content) :
    dropFinalEmptyLiteral (front ++ '+' :: '"' :: content ++ ['"']) =
      if content = [] then front else front ++ '+' :: '"' :: content ++ ['"'] := by
  have reversed :
      (front ++ '+' :: '"' :: content ++ ['"']).reverse =
        '"' :: content.reverse ++ '"' :: '+' :: front.reverse := by
    simp
  have noQuoteReversed : '"' ∉ content.reverse := by simpa using noQuote
  rw [dropFinalEmptyLiteral, reversed, dropEmptyLiteral_joined noQuoteReversed]
  by_cases empty : content = []
  · simp [empty]
  · simp [empty]

theorem dropFinalEmptyLiteral_alone {content : List Char} (noQuote : '"' ∉ content) :
    dropFinalEmptyLiteral ('"' :: content ++ ['"']) = '"' :: content ++ ['"'] := by
  have reversed : ('"' :: content ++ ['"']).reverse = '"' :: content.reverse ++ ['"'] := by simp
  have noQuoteReversed : '"' ∉ content.reverse := by simpa using noQuote
  rw [dropFinalEmptyLiteral, reversed, dropEmptyLiteral_alone noQuoteReversed]
  simp

/-! ## The expression of a pattern -/

theorem concatenate_cons (first : Operand) {rest : List Operand} (more : rest ≠ []) :
    concatenate (first :: rest) = first.source ++ "+" ++ concatenate rest := by
  rw [concatenate, List.map_cons, String.intercalate_cons_of_ne_nil (by simpa using more)]
  rfl

theorem holeOperands_ne_nil (part : Hole) (rest : List Hole) : holeOperands (part :: rest) ≠ [] := by
  cases rest <;> simp [holeOperands]

/-- Behind whatever stands in front, the holes of a pattern become their operands. -/
theorem dropFinalEmptyLiteral_holes (front : List Char) (part : Hole) (rest : List Hole) :
    dropFinalEmptyLiteral
        (front ++ part.content.toList ++ '+' :: '"' :: part.literal.toList ++ '"' :: joined rest) =
      front ++ (concatenate (holeOperands (part :: rest))).toList := by
  induction rest generalizing front part with
  | nil =>
      have dropped :=
        dropFinalEmptyLiteral_joined (front ++ part.content.toList) part.literalPlain.noQuote
      by_cases empty : part.literal = ""
      · simp_all [joined, holeOperands, Operand.atEnd, concatenate, Operand.source]
      · simp_all [joined, holeOperands, Operand.atEnd, concatenate, Operand.source]
  | cons next later inductionHypothesis =>
      have split :
          front ++ part.content.toList ++ '+' :: '"' :: part.literal.toList ++
              '"' :: joined (next :: later) =
            (front ++ part.content.toList ++ '+' :: '"' :: part.literal.toList ++ ['"', '+']) ++
              next.content.toList ++ '+' :: '"' :: next.literal.toList ++ '"' :: joined later := by
        simp [joined]
      rw [split, inductionHypothesis, holeOperands,
        concatenate_cons _ (List.cons_ne_nil _ _),
        concatenate_cons _ (holeOperands_ne_nil next later)]
      simp [Operand.source]

theorem Pattern.expression_template (pattern : Pattern) :
    expression pattern.template = concatenate pattern.operands := by
  have noQuote := pattern.startPlain.noQuote
  rw [expression, trim_quoted, pattern.quoted_template, operands]
  cases holes : pattern.holes with
  | nil =>
      rw [joined, dropEmptyLiteral_alone noQuote, dropFinalEmptyLiteral_alone noQuote]
      apply String.toList_injective
      simp [concatenate, Operand.source]
  | cons part rest =>
      let behind :=
        part.content.toList ++ '+' :: '"' :: part.literal.toList ++ '"' :: joined rest
      have quoted :
          '"' :: pattern.start.toList ++ '"' :: joined (part :: rest) =
            '"' :: pattern.start.toList ++ '"' :: '+' :: behind := by
        simp [joined, behind]
      rw [quoted, dropEmptyLiteral_joined noQuote, if_neg (List.cons_ne_nil _ _)]
      by_cases empty : pattern.start = ""
      · have final := dropFinalEmptyLiteral_holes [] part rest
        rw [List.nil_append] at final
        rw [if_pos (by simp [empty]), final, Operand.atEnd, if_pos empty]
        exact String.ofList_toList
      · have final :=
          dropFinalEmptyLiteral_holes ('"' :: pattern.start.toList ++ ['"', '+']) part rest
        have regrouped :
            '"' :: pattern.start.toList ++ '"' :: '+' :: behind =
              '"' :: pattern.start.toList ++ ['"', '+'] ++ part.content.toList ++
                '+' :: '"' :: part.literal.toList ++ '"' :: joined rest := by
          simp [behind]
        rw [if_neg (by simpa using empty), regrouped, final, Operand.atEnd, if_neg empty,
          List.singleton_append, concatenate_cons _ (holeOperands_ne_nil part rest)]
        apply String.toList_injective
        simp [Operand.source]

/-! ## Reading a concatenation -/

/-- No hole stands right behind another. -/
def Parted (operands : List Operand) : Prop :=
  operands.IsChain fun first second => first.isHole = true → second.isHole = false

/-- Operands with a sign on both sides of each. -/
def closed : List Operand → List Char
  | [] => ['+']
  | first :: rest => '+' :: first.source.toList ++ closed rest

theorem closed_concatenate {operands : List Operand} (nonempty : operands ≠ []) :
    '+' :: (concatenate operands).toList ++ ['+'] = closed operands := by
  induction operands with
  | nil => exact absurd rfl nonempty
  | cons first rest inductionHypothesis =>
      by_cases last : rest = []
      · simp [last, closed, concatenate]
      · rw [concatenate_cons first last, closed, ← inductionHypothesis last]
        simp

theorem between?_hole (content : List Char) :
    between? ('+' :: content ++ ['+']) = some [.hole (String.ofList content)] := by
  have read : ∀ rest : List Char, rest.getLast? = some '+' →
      between? ('+' :: rest) = some [.hole (String.ofList rest.dropLast)] := by
    intro rest last
    cases rest with
    | nil => cases last
    | cons c others => exact if_pos last
  rw [List.cons_append, read _ (by simp), List.dropLast_concat]

theorem ofPieces?_literal
    {outside inside rest : List Char} {earlier later : List Operand}
    (outsidePlain : '"' ∉ outside) (insidePlain : '"' ∉ inside)
    (front : between? outside = some earlier)
    (back : ofPieces? (rest.splitOn '"') = some later) :
    ofPieces? ((outside ++ '"' :: (inside ++ '"' :: rest)).splitOn '"') =
      some (earlier ++ .literal (String.ofList inside) :: later) := by
  rw [List.splitOn_append_cons_self_of_not_mem outsidePlain,
    List.splitOn_append_cons_self_of_not_mem insidePlain, ofPieces?, front, back]
  rfl

/-- Operands are read back one by one, since holes are parted by literals and only literals have
quotes. -/
theorem ofPieces?_closed :
    ∀ {operands : List Operand}, Parted operands →
      (∀ operand ∈ operands, '"' ∉ operand.content.toList) →
        ofPieces? ((closed operands).splitOn '"') = some operands
  | [], _, _ => rfl
  | .literal content :: rest, parted, plain => by
      obtain ⟨contentPlain, restPlain⟩ := List.forall_mem_cons.mp plain
      have back : ofPieces? ((closed rest).splitOn '"') = some rest :=
        ofPieces?_closed parted.tail restPlain
      have text :
          closed (.literal content :: rest) =
            ['+'] ++ '"' :: (content.toList ++ '"' :: closed rest) := by
        simp [closed, Operand.source]
      have read := ofPieces?_literal (by decide : '"' ∉ ['+']) contentPlain rfl back
      rw [String.ofList_toList] at read
      rw [text]
      exact read
  | [.hole content], _, plain => by
      have contentPlain := plain _ List.mem_cons_self
      have noQuote : '"' ∉ '+' :: content.toList ++ ['+'] := by
        simpa [Operand.content] using contentPlain
      rw [closed, closed, Operand.source, List.splitOn_eq_singleton noQuote, ofPieces?,
        between?_hole, String.ofList_toList]
  | .hole content :: .literal next :: rest, parted, plain => by
      obtain ⟨contentPlain, laterPlain⟩ := List.forall_mem_cons.mp plain
      obtain ⟨nextPlain, restPlain⟩ := List.forall_mem_cons.mp laterPlain
      have back : ofPieces? ((closed rest).splitOn '"') = some rest :=
        ofPieces?_closed parted.tail.tail restPlain
      have text :
          closed (.hole content :: .literal next :: rest) =
            ('+' :: content.toList ++ ['+']) ++
              '"' :: (next.toList ++ '"' :: closed rest) := by
        simp [closed, Operand.source]
      have noQuote : '"' ∉ '+' :: content.toList ++ ['+'] := by
        simpa [Operand.content] using contentPlain
      have read := ofPieces?_literal noQuote nextPlain (between?_hole _) back
      rw [String.ofList_toList, String.ofList_toList] at read
      rw [text]
      exact read
  | .hole content :: .hole next :: rest, parted, _ => by
      have adjacent := (List.isChain_cons_cons.mp parted).1
      simp [Operand.isHole] at adjacent

theorem read?_concatenate
    {operands : List Operand} (nonempty : operands ≠ []) (parted : Parted operands)
    (plain : ∀ operand ∈ operands, '"' ∉ operand.content.toList) :
    read? (concatenate operands) = some operands := by
  rw [read?, closed_concatenate nonempty]
  exact ofPieces?_closed parted plain

/-! ## Operands of a pattern -/

theorem parted_holeOperands (holes : List Hole) : Parted (holeOperands holes) := by
  fun_induction holeOperands holes with
  | case1 => exact List.isChain_nil
  | case2 last =>
      rw [Operand.atEnd]
      split
      · exact List.isChain_singleton _
      · exact List.isChain_pair.mpr fun _ => rfl
  | case3 part next rest inductionHypothesis =>
      refine
        List.isChain_cons_cons.mpr
          ⟨fun _ => rfl, List.isChain_cons.mpr ⟨?_, inductionHypothesis⟩⟩
      intro second _ isHole
      cases isHole

theorem Pattern.parted_operands (pattern : Pattern) : Parted pattern.operands := by
  rw [operands]
  split
  · exact List.isChain_singleton _
  · rw [Operand.atEnd]
    split
    · exact parted_holeOperands pattern.holes
    · refine List.isChain_cons.mpr ⟨?_, parted_holeOperands pattern.holes⟩
      intro second _ isHole
      cases isHole

theorem noQuote_of_mem_atEnd
    {content : String} (plain : Plain content) {operand : Operand}
    (member : operand ∈ Operand.atEnd content) : '"' ∉ operand.content.toList := by
  rw [Operand.atEnd] at member
  split at member
  · cases member
  · rw [List.mem_singleton.mp member]
    exact plain.noQuote

theorem noQuote_of_mem_holeOperands {holes : List Hole} :
    ∀ operand ∈ holeOperands holes, '"' ∉ operand.content.toList := by
  fun_induction holeOperands holes with
  | case1 => simp
  | case2 last =>
      refine List.forall_mem_cons.mpr ⟨last.contentPlain.noQuote, ?_⟩
      intro operand member
      exact noQuote_of_mem_atEnd last.literalPlain member
  | case3 part next rest inductionHypothesis =>
      exact
        List.forall_mem_cons.mpr ⟨part.contentPlain.noQuote,
          List.forall_mem_cons.mpr ⟨part.literalPlain.noQuote, inductionHypothesis⟩⟩

theorem Pattern.noQuote_of_mem_operands (pattern : Pattern) :
    ∀ operand ∈ pattern.operands, '"' ∉ operand.content.toList := by
  intro operand member
  rw [operands] at member
  split at member
  · rw [List.mem_singleton.mp member]
    exact pattern.startPlain.noQuote
  · rcases List.mem_append.mp member with inFront | behind
    · exact noQuote_of_mem_atEnd pattern.startPlain inFront
    · exact noQuote_of_mem_holeOperands operand behind

theorem Pattern.operands_ne_nil (pattern : Pattern) : pattern.operands ≠ [] := by
  rw [operands]
  cases pattern.holes with
  | nil => simp
  | cons part rest => simp [holeOperands_ne_nil part rest]

/-! ## Values -/

theorem value_atEnd_append
    (values : Nat → String) (index : Nat) (content : String) (rest : List Operand) :
    value values index (Operand.atEnd content ++ rest) = content ++ value values index rest := by
  by_cases empty : content = ""
  · simp [Operand.atEnd, empty]
  · simp [Operand.atEnd, empty, value]

theorem value_holeOperands (values : Nat → String) (index : Nat) (holes : List Hole) :
    value values index (holeOperands holes) =
      spellHoles (fun index _ => values index) index holes := by
  fun_induction holeOperands holes generalizing index with
  | case1 => rfl
  | case2 last =>
      have final := value_atEnd_append values (index + 1) last.literal []
      rw [List.append_nil] at final
      simp [value, spellHoles, final]
  | case3 part next rest inductionHypothesis =>
      simp [value, spellHoles, inductionHypothesis, String.append_assoc]

theorem Pattern.value_operands (pattern : Pattern) (values : Nat → String) :
    value values 0 pattern.operands = pattern.filled values := by
  rw [operands, filled, spell]
  split
  · rename_i noHoles
    simp [value, noHoles, spellHoles]
  · rw [value_atEnd_append, value_holeOperands]

/-- The expression of a template is the concatenation of its literals and holes, in order. Only an
empty literal at an end is left out, and only if there are holes. The operands can be read back from
the text, two holes are parted by a literal, and the value is the template with a value in place of
each hole. -/
theorem Pattern.expression_reads_as_template (pattern : Pattern) :
    expression pattern.template =
        String.intercalate "+" (pattern.operands.map Operand.source) ∧
      read? (expression pattern.template) = some pattern.operands ∧
      Parted pattern.operands ∧
      ∀ values,
        (read? (expression pattern.template)).map (value values 0) =
          some (pattern.filled values) := by
  have written := pattern.expression_template
  have read : read? (expression pattern.template) = some pattern.operands := by
    rw [written]
    exact
      read?_concatenate pattern.operands_ne_nil pattern.parted_operands
        pattern.noQuote_of_mem_operands
  refine ⟨written, read, pattern.parted_operands, ?_⟩
  intro values
  rw [read, Option.map_some, pattern.value_operands]

/-- Two holes with nothing between them, and a literal at the end. -/
def cityPattern : Pattern :=
  { start := ""
    holes :=
      [{ content := "$state", literal := "", contentPlain := by decide, literalPlain := by decide },
        { content := "$city", literal := "-BR", contentPlain := by decide
          literalPlain := by decide }]
    startPlain := by decide }

theorem expression_reads_as_template_city :
    cityPattern.template = "\x7b$state\x7d\x7b$city\x7d-BR" ∧
      expression cityPattern.template = "$state+\"\"+$city+\"-BR\"" ∧
      read? (expression cityPattern.template) =
        some [.hole "$state", .literal "", .hole "$city", .literal "-BR"] := by
  obtain ⟨written, read, _⟩ := cityPattern.expression_reads_as_template
  exact
    ⟨by decide +kernel, written.trans (by decide +kernel), read.trans (by decide +kernel)⟩

end Template

end FeatureRules
