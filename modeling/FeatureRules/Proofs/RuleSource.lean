import FeatureRules.Proofs.BlockLines
import FeatureRules.Proofs.Reference.Joining
import FeatureRules.Proofs.StringLiterals

/-!
# Reading rule source

Names, conditions and expressions stand in rule source as they are, with nothing escaped. As long as
none of them breaks a line, the blocks can be read back from the text: an empty line ends a block,
the retraction tells its name, and the name tells where the salience stands in the header.
-/

namespace FeatureRules

def Unbroken (text : String) : Prop :=
  '\n' ∉ text.toList

instance (text : String) : Decidable (Unbroken text) :=
  inferInstanceAs (Decidable ('\n' ∉ text.toList))

theorem unbroken_append {first second : String} :
    Unbroken (first ++ second) ↔ Unbroken first ∧ Unbroken second := by
  simp [Unbroken]

theorem unbroken_toString_nat (number : Nat) : Unbroken (toString number) := by
  intro broken
  have wordChar := isWordChar_of_mem_toString broken
  revert wordChar
  decide

theorem unbroken_toString_int (number : Int) : Unbroken (toString number) := by
  cases number with
  | ofNat magnitude => exact unbroken_toString_nat magnitude
  | negSucc below =>
      have sign : Unbroken "-" := by decide
      exact unbroken_append.mpr ⟨sign, unbroken_toString_nat (below + 1)⟩

theorem newline_not_mem_escape (c : Char) : '\n' ∉ Json.escape c := by
  rcases Json.escape_cases c with ⟨letter, known, written⟩ | ⟨control, written⟩ |
    ⟨_, _, visible, written⟩
  · have noLetter : '\n' ≠ letter := by
      rintro rfl
      simp [LiteralUnit.shortEscape?] at known
    simp [written, noLetter]
  · have noDigit : ∀ n < 16, '\n' ≠ Json.hexDigit n := by decide
    have high := noDigit (c.toNat / 16) (by omega)
    have low := noDigit (c.toNat % 16) (by omega)
    simp [written, high, low]
  · rw [written, List.mem_singleton]
    rintro rfl
    exact absurd visible (by decide)

/-- A literal stands on one line, whatever it holds. -/
theorem unbroken_quote (content : String) : Unbroken (Json.quote content) := by
  have mark : Unbroken "\"" := by decide
  have escaped : Unbroken (String.ofList (content.toList.flatMap Json.escape)) := by
    rw [Unbroken, String.toList_ofList]
    intro broken
    obtain ⟨c, _, inEscape⟩ := List.mem_flatMap.mp broken
    exact newline_not_mem_escape c inEscape
  simp only [Json.quote, unbroken_append, mark, escaped, and_self]

namespace Grl

/-! ## The reader -/

/-- The lines of a text, without the breaks behind them. The last line is what no break follows. -/
def lines (text : String) : List String :=
  (text.toList.splitOn '\n').map String.ofList

/-- The runs of lines between empty lines. -/
def paragraphs (lines : List String) : List (List String) :=
  (lines.splitOn "").filter fun paragraph => !paragraph.isEmpty

def between? (start stop line : String) : Option String := do
  let rest ← line.toList.dropPrefix? start.toList
  let content ← rest.dropSuffix? stop.toList
  return String.ofList content

def number? (digits : List Char) : Option Nat :=
  if digits.all Char.isDigit && !digits.isEmpty then some (Nat.ofDigitChars 10 digits 0) else none

/-- The integer that a text stands for. A negative one has a sign. -/
def integer? (text : String) : Option Int :=
  match text.toList with
  | '-' :: digits => (number? digits).map fun magnitude => -(magnitude : Int)
  | digits => (number? digits).map Int.ofNat

/-- Read a block from its lines. The name is taken from the retraction: the header repeats it around
texts that the name may hold itself. -/
def Block.read? : List String → Option Block
  | header :: "    when" :: condition :: "    then" :: body =>
      match body.reverse with
      | "\x7d" :: retraction :: actions => do
          let name ← between? "        Retract(\"" "\");" retraction
          let salience ← between? (headerStart name) " \x7b" header
          return {
            name
            salience := ← integer? salience
            condition := ← between? "        " "" condition
            actions := ← actions.reverse.mapM (between? "        " ";") }
      | _ => none
  | _ => none

def read? (text : String) : Option (List Block) :=
  (paragraphs (lines text)).mapM Block.read?

theorem mapM_map_eq_some
    {α β : Type} {write : α → β} {read : β → Option α}
    (readBack : ∀ value, read (write value) = some value) (values : List α) :
    (values.map write).mapM read = some values := by
  induction values with
  | nil => rfl
  | cons value rest inductionHypothesis =>
      simp [List.mapM_cons, readBack, inductionHypothesis]

theorem between?_append (start content stop : String) :
    between? start stop (start ++ content ++ stop) = some content := by
  rw [between?, String.append_assoc, String.toList_append, String.toList_append]
  have front :
      (start.toList ++ (content.toList ++ stop.toList)).dropPrefix? start.toList =
        some (content.toList ++ stop.toList) :=
    List.dropPrefix?_append_of_beq _ (beq_self_eq_true _)
  have back : (content.toList ++ stop.toList).dropSuffix? stop.toList = some content.toList :=
    List.dropSuffix?_eq_some_iff.mpr ⟨stop.toList, rfl, beq_self_eq_true _⟩
  simp [front, back]

theorem isDigit_of_mem_toDigits {number : Nat} {digit : Char}
    (member : digit ∈ Nat.toDigits 10 number) : digit.isDigit = true :=
  Nat.isDigit_of_mem_toDigits (by decide) (by decide) member

theorem number?_toDigits (number : Nat) : number? (Nat.toDigits 10 number) = some number := by
  have digits : (Nat.toDigits 10 number).all Char.isDigit = true :=
    List.all_eq_true.mpr fun _ => isDigit_of_mem_toDigits
  have nonempty : (Nat.toDigits 10 number).isEmpty = false :=
    List.isEmpty_eq_false_iff.mpr Nat.toDigits_ne_nil
  rw [number?, digits, nonempty, Nat.ofDigitChars_ten_toDigits]
  rfl

theorem integer?_toString (number : Int) : integer? (toString number) = some number := by
  cases number with
  | ofNat magnitude =>
      have text : (toString (Int.ofNat magnitude)).toList = Nat.toDigits 10 magnitude :=
        Nat.toList_repr
      rw [integer?, text]
      split
      case h_1 digits signed =>
        have isDigit : ('-').isDigit = true := by
          exact isDigit_of_mem_toDigits (signed ▸ List.mem_cons_self)
        exact absurd isDigit (by decide)
      case h_2 => rw [number?_toDigits, Option.map_some]
  | negSucc below =>
      have text :
          (toString (Int.negSucc below)).toList = '-' :: Nat.toDigits 10 (below + 1) := by
        have digits : (Nat.repr (below + 1)).toList = Nat.toDigits 10 (below + 1) :=
          Nat.toList_repr
        rw [← digits]
        simp [toString, Int.repr]
      rw [integer?, text]
      simp only [number?_toDigits]
      rfl

theorem Block.read?_lines (block : Block) : Block.read? block.lines = some block := by
  have name := between?_append "        Retract(\"" block.name "\");"
  have salience := between?_append (headerStart block.name) (toString block.salience) " \x7b"
  have condition :
      between? "        " "" ("        " ++ block.condition) = some block.condition := by
    have whole := between?_append "        " block.condition ""
    rwa [String.append_empty] at whole
  have actions :=
    mapM_map_eq_some (fun action => between?_append "        " action ";") block.actions
  have number := integer?_toString block.salience
  simp only [Block.read?, Block.lines, Block.body, header, List.reverse_append,
    List.reverse_cons, List.reverse_nil, List.nil_append, List.cons_append, name, salience, number,
    condition, List.reverse_reverse, actions, Option.bind_eq_bind, Option.bind_some]
  rfl

/-! ## Lines that are read -/

theorem lines_append {line : String} (unbroken : Unbroken line) (rest : String) :
    lines (line ++ "\n" ++ rest) = line :: lines rest := by
  have split : (line ++ "\n" ++ rest).toList = line.toList ++ '\n' :: rest.toList := by
    simp
  rw [lines, split, List.splitOn_append_cons_self_of_not_mem unbroken, List.map_cons,
    String.ofList_toList, lines]

/-- Lines written one behind the other are read as they are, with an empty line at the end. -/
theorem lines_unlines {written : List String} (unbroken : ∀ line ∈ written, Unbroken line) :
    lines (unlines written) = written ++ [""] := by
  induction written with
  | nil => rfl
  | cons line rest inductionHypothesis =>
      obtain ⟨lineUnbroken, restUnbroken⟩ := List.forall_mem_cons.mp unbroken
      rw [unlines_cons, lines_append lineUnbroken, inductionHypothesis restUnbroken,
        List.cons_append]

theorem join_text_eq_unlines (blocks : List Block) :
    String.join (blocks.map Block.text) =
      unlines (blocks.flatMap fun block => block.lines ++ [""]) := by
  induction blocks with
  | nil => rfl
  | cons block rest inductionHypothesis =>
      rw [List.map_cons, String.join_cons, inductionHypothesis, block.text_eq_unlines,
        ← unlines_append, List.flatMap_cons]

theorem Block.empty_not_mem_lines (block : Block) : "" ∉ block.lines := by
  simp [Block.lines, Block.body, header, headerStart]

/-- Empty lines end the paragraphs of blocks. -/
theorem paragraphs_flatMap_lines (blocks : List Block) :
    paragraphs ((blocks.flatMap fun block => block.lines ++ [""]) ++ [""]) =
      blocks.map Block.lines := by
  induction blocks with
  | nil => rfl
  | cons block rest inductionHypothesis =>
      have split :
          ((block :: rest).flatMap fun block => block.lines ++ [""]) ++ [""] =
            block.lines ++ "" :: ((rest.flatMap fun block => block.lines ++ [""]) ++ [""]) := by
        simp
      rw [paragraphs, split, List.splitOn_append_cons_self_of_not_mem block.empty_not_mem_lines,
        List.filter_cons_of_pos (by rfl), ← paragraphs, inductionHypothesis, List.map_cons]

/-! ## Blocks of a schedule -/

/-- No part of a block breaks a line. -/
structure Block.KeepsLines (block : Block) : Prop where
  name : Unbroken block.name
  condition : Unbroken block.condition
  actions : ∀ action ∈ block.actions, Unbroken action

theorem Block.unbroken_of_mem_lines {block : Block} (keepsLines : block.KeepsLines) :
    ∀ line ∈ block.lines, Unbroken line := by
  have header :
      Unbroken "rule " ∧ Unbroken " \"" ∧ Unbroken "\" salience " ∧ Unbroken " \x7b" := by
    decide
  have fixed :
      Unbroken "    when" ∧ Unbroken "    then" ∧ Unbroken "        " ∧ Unbroken ";" ∧
        Unbroken "        Retract(\"" ∧ Unbroken "\");" ∧ Unbroken "\x7d" := by
    decide
  intro line member
  simp only [Block.lines, Block.body, List.mem_cons, List.mem_append, List.mem_map,
    List.not_mem_nil, or_false] at member
  rcases member with rfl | rfl | rfl | rfl | ⟨action, inActions, rfl⟩ | rfl | rfl
  · simp only [Grl.header, headerStart, unbroken_append, header, keepsLines.name,
      unbroken_toString_int, and_self]
  · exact fixed.1
  · simp only [unbroken_append, fixed, keepsLines.condition, and_self]
  · exact fixed.2.1
  · simp only [unbroken_append, fixed, keepsLines.actions action inActions, and_self]
  · simp only [unbroken_append, fixed, keepsLines.name, and_self]
  · simp only [fixed]

/-- Blocks are read as they were written. -/
theorem read?_join_text {blocks : List Block} (keepLines : ∀ block ∈ blocks, block.KeepsLines) :
    read? (String.join (blocks.map Block.text)) = some blocks := by
  have unbroken :
      ∀ line ∈ blocks.flatMap fun block => block.lines ++ [""], Unbroken line := by
    intro line member
    obtain ⟨block, inBlocks, inLines⟩ := List.mem_flatMap.mp member
    rcases List.mem_append.mp inLines with ofBlock | isEmpty
    · exact Block.unbroken_of_mem_lines (keepLines block inBlocks) line ofBlock
    · rw [List.mem_singleton.mp isEmpty]
      decide
  rw [read?, join_text_eq_unlines, lines_unlines unbroken, paragraphs_flatMap_lines,
    mapM_map_eq_some Block.read?_lines]

theorem unbroken_assignment
    {key value : String} (holder : Holder) {method : String} (methodUnbroken : Unbroken method)
    (keyUnbroken : Unbroken key) (valueUnbroken : Unbroken value) :
    Unbroken (assignment holder method key value) := by
  have fixed : Unbroken "." ∧ Unbroken "(\"" ∧ Unbroken "\", " ∧ Unbroken ")" := by
    decide
  have holderUnbroken : Unbroken holder.name := by
    cases holder <;> decide
  simp only [assignment, unbroken_append, fixed, holderUnbroken, methodUnbroken, keyUnbroken,
    valueUnbroken, and_self]

theorem unbroken_entriesAction
    {group : String} (unbroken : Unbroken group) (index : Nat) (member : Group.Member) :
    Unbroken (entriesAction group index member) := by
  have fixed :
      Unbroken "_" ∧ Unbroken "_entries" ∧ Unbroken "processor.ToSlice(" ∧ Unbroken ")" := by
    decide
  apply unbroken_assignment
  · decide
  · simp only [partName, unbroken_append, unbroken, fixed, unbroken_toString_nat, and_self]
  · simp only [unbroken_append, fixed, unbroken_quote, and_self]

end Grl

namespace Schedule

/-- No name, condition, expression or default value of a schedule breaks a line. Entries of groups
may hold any text. -/
structure KeepsLines (schedule : Schedule) : Prop where
  rules : ∀ rule ∈ schedule.rules,
    Unbroken rule.name ∧ Unbroken rule.condition ∧ Unbroken rule.expression
  defaults : ∀ default ∈ schedule.defaults, Unbroken default.name ∧ Unbroken default.value
  groups : ∀ group ∈ schedule.groups, Unbroken group.name

theorem keepsLines_setupBlock
    (schedule : Schedule) {name : String} {actions : List String} (nameUnbroken : Unbroken name)
    (actionsUnbroken : ∀ action ∈ actions, Unbroken action) :
    (schedule.setupBlock name actions).KeepsLines where
  name := nameUnbroken
  condition := by
    have always : Unbroken "true" := by decide
    exact always
  actions := actionsUnbroken

theorem keepsLines_of_mem_blocks {schedule : Schedule} (keepsLines : schedule.KeepsLines) :
    ∀ block ∈ schedule.blocks, block.KeepsLines := by
  intro block member
  simp only [blocks, defaultBlocks, groupBlocks, List.mem_append] at member
  rcases member with (ofDefaults | ofGroups) | ofRules
  · split at ofDefaults
    · exact absurd ofDefaults List.not_mem_nil
    · rw [List.mem_singleton.mp ofDefaults]
      apply schedule.keepsLines_setupBlock (by decide)
      intro action inActions
      obtain ⟨default, declared, rfl⟩ := List.mem_map.mp inActions
      obtain ⟨nameUnbroken, valueUnbroken⟩ := keepsLines.defaults default declared
      exact Grl.unbroken_assignment _ (by decide) nameUnbroken valueUnbroken
  · split at ofGroups
    · exact absurd ofGroups List.not_mem_nil
    · rw [List.mem_singleton.mp ofGroups]
      apply schedule.keepsLines_setupBlock (by decide)
      intro action inActions
      obtain ⟨group, declared, inGroup⟩ := List.mem_flatMap.mp inActions
      obtain ⟨⟨entries, index⟩, _, rfl⟩ := List.mem_map.mp inGroup
      exact Grl.unbroken_entriesAction (keepsLines.groups group declared) index entries
  · obtain ⟨rule, scheduled, rfl⟩ := List.mem_map.mp ofRules
    obtain ⟨nameUnbroken, conditionUnbroken, expressionUnbroken⟩ :=
      keepsLines.rules rule scheduled
    refine ⟨nameUnbroken, conditionUnbroken, ?_⟩
    intro action inActions
    rw [List.mem_singleton.mp inActions]
    apply Grl.unbroken_assignment _ _ nameUnbroken expressionUnbroken
    split <;> decide

theorem read?_grl {schedule : Schedule} (keepsLines : schedule.KeepsLines) :
    Grl.read? schedule.grl = some schedule.blocks :=
  Grl.read?_join_text (keepsLines_of_mem_blocks keepsLines)

/-- The blocks of a schedule are read back from its source: the defaults if there are any, the group
entries if there are groups, and every rule in order with its one assignment. Schedules with
different blocks therefore have different sources. -/
theorem blocks_read_from_grl {schedule : Schedule} (keepsLines : schedule.KeepsLines) :
    Grl.read? schedule.grl = some schedule.blocks ∧
      schedule.blocks =
        (if schedule.defaults = [] then []
          else
            [{ name := "DefaultValues"
               salience := schedule.setupSalience
               condition := "true"
               actions := schedule.defaults.map fun default =>
                 Grl.assignment default.holder "Put" default.name default.value }]) ++
          (if schedule.groups = [] then []
            else
              [{ name := "GroupEntries"
                 salience := schedule.setupSalience
                 condition := "true"
                 actions := schedule.groups.flatMap Grl.groupActions }]) ++
          schedule.rules.map (fun rule =>
            { name := rule.name
              salience := rule.salience
              condition := rule.condition
              actions :=
                [Grl.assignment rule.holder
                  (if rule.type = some .slice then "AddItems" else "Put") rule.name
                  rule.expression] }) ∧
      ∀ other : Schedule, other.KeepsLines → other.blocks ≠ schedule.blocks →
        other.grl ≠ schedule.grl := by
  refine ⟨read?_grl keepsLines, ?_, ?_⟩
  · simp only [blocks, defaultBlocks, groupBlocks, List.isEmpty_iff]
    rfl
  · intro other otherKeepsLines different sameText
    have otherRead := read?_grl otherKeepsLines
    rw [sameText, read?_grl keepsLines] at otherRead
    exact different (Option.some.inj otherRead).symm

/-- Names and expressions that look like rule source, and entries with a line break. -/
def misleading : Schedule :=
  { rules :=
      [{ name := "a \"a\" salience 7 \x7b", type := none, condition := "\x7d", salience := -3
         expression := "1); Retract(\"b\"", holder := .result },
        { name := "b", type := some .slice, condition := "true", salience := 1000
          expression := "", holder := .context }]
    defaults := [{ name := "\");", value := "rule b \"b\"", holder := .result }]
    required := []
    remote := []
    groups :=
      [{ name := "g", members := [{ template := "", entries := .string "\x7d\n\nrule" }] }]
    slices := []
    levels := [] }

theorem blocks_read_from_grl_misleading :
    misleading.KeepsLines ∧
      Grl.read? misleading.grl =
        some
          [{ name := "DefaultValues", salience := 1001, condition := "true"
             actions := ["result.Put(\"\");\", rule b \"b\")"] },
            { name := "GroupEntries", salience := 1001, condition := "true"
              actions :=
                ["ctx.Put(\"g_0_entries\", processor.ToSlice(\"\\\"\x7d\\\\n\\\\nrule\\\"\"))"] },
            { name := "a \"a\" salience 7 \x7b", salience := -3, condition := "\x7d"
              actions := ["result.Put(\"a \"a\" salience 7 \x7b\", 1); Retract(\"b\")"] },
            { name := "b", salience := 1000, condition := "true"
              actions := ["ctx.AddItems(\"b\", )"] }] := by
  have keepsLines : misleading.KeepsLines := by
    constructor <;> decide
  refine ⟨keepsLines, (blocks_read_from_grl keepsLines).1.trans ?_⟩
  decide +kernel

end Schedule

end FeatureRules
