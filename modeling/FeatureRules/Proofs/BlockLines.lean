import FeatureRules.Proofs.Blocks

/-!
# Lines of blocks

The text of a block starts with a header that tells its name and its salience. Every action is on a
line of its own behind it.
-/

namespace FeatureRules

/-- A text has a line: nothing or a line break is before it, and a line break is behind it. -/
def HasLine (text line : String) : Prop :=
  ∃ before after, text = before ++ line ++ "\n" ++ after ∧
    (before = "" ∨ ∃ start, before = start ++ "\n")

def unlines (lines : List String) : String :=
  String.join (lines.map fun line => line ++ "\n")

theorem unlines_nil : unlines [] = "" :=
  rfl

theorem unlines_cons (line : String) (rest : List String) :
    unlines (line :: rest) = line ++ "\n" ++ unlines rest := by
  rw [unlines, List.map_cons, String.join_cons, unlines]

theorem unlines_append (first second : List String) :
    unlines (first ++ second) = unlines first ++ unlines second := by
  rw [unlines, List.map_append, String.join_append, unlines, unlines]

theorem hasLine_unlines {lines : List String} {line : String} (member : line ∈ lines) :
    HasLine (unlines lines) line := by
  obtain ⟨earlier, later, rfl⟩ := List.append_of_mem member
  refine ⟨unlines earlier, unlines later, ?_, ?_⟩
  · rw [unlines_append, unlines_cons, ← String.append_assoc, ← String.append_assoc]
  · rcases List.eq_nil_or_concat earlier with rfl | ⟨start, last, rfl⟩
    · exact Or.inl rfl
    · right
      refine ⟨unlines start ++ last, ?_⟩
      have alone : unlines [last] = last ++ "\n" := by
        rw [unlines_cons, unlines_nil, String.append_empty]
      rw [List.concat_eq_append, unlines_append, alone, String.append_assoc]

namespace Grl

/-- What stands in the header of a block ahead of the salience. -/
def headerStart (name : String) : String :=
  "rule " ++ name ++ " \"" ++ name ++ "\" salience "

def header (name : String) (salience : Int) : String :=
  headerStart name ++ toString salience ++ " \x7b"

def Block.body (block : Block) : List String :=
  "    when" :: ("        " ++ block.condition) :: "    then" ::
    (block.actions.map (fun action => "        " ++ action ++ ";") ++
      ["        Retract(\"" ++ block.name ++ "\");", "\x7d"])

def Block.lines (block : Block) : List String :=
  header block.name block.salience :: block.body

theorem Block.text_eq_unlines (block : Block) : block.text = unlines (block.lines ++ [""]) := by
  have actions :
      String.join (block.actions.map actionLine) =
        unlines (block.actions.map fun action => "        " ++ action ++ ";") := by
    rw [unlines, List.map_map]
    congr 2
    funext action
    simp [actionLine, String.append_assoc]
  apply String.toList_injective
  unfold Block.text
  simp [actions, unlines_nil, unlines_cons, unlines_append, Block.lines, Block.body, header,
    headerStart, actionLine]

theorem Block.text_eq_header (block : Block) :
    block.text = header block.name block.salience ++ "\n" ++ unlines (block.body ++ [""]) := by
  rw [block.text_eq_unlines, Block.lines, List.cons_append, unlines_cons]

theorem Block.mem_body_of_mem_actions
    {block : Block} {action : String} (member : action ∈ block.actions) :
    "        " ++ action ++ ";" ∈ block.body := by
  have onLine :
      "        " ++ action ++ ";" ∈ block.actions.map fun action => "        " ++ action ++ ";" :=
    List.mem_map.mpr ⟨action, member, rfl⟩
  simp only [Block.body, List.mem_append, List.mem_cons, onLine, true_or, or_true]

/-! ## Texts of assignments -/

theorem assignment_context (method key value : String) :
    assignment .context method key value =
      "ctx." ++ method ++ "(\"" ++ key ++ "\", " ++ value ++ ")" := by
  have start : "ctx." = Holder.context.name ++ "." := by decide
  rw [assignment, start]

theorem assignment_eq
    {method call : String} (spelled : call = "." ++ (method ++ "(\""))
    (holder : Holder) (key value : String) :
    assignment holder method key value = holder.name ++ call ++ key ++ "\", " ++ value ++ ")" := by
  simp only [assignment, spelled, String.append_assoc]

theorem assignment_addItems (holder : Holder) (key value : String) :
    assignment holder "AddItems" key value =
      holder.name ++ ".AddItems(\"" ++ key ++ "\", " ++ value ++ ")" :=
  assignment_eq (by decide) holder key value

end Grl

namespace Schedule

/-- An action as it stands in the source of a schedule: the text of its block starts with a header
that tells the name and the salience of the block, and the action is on a line behind it. -/
structure Writes (schedule : Schedule) (block : Grl.Block) (action : String) : Prop where
  source : ∃ before after, schedule.grl = before ++ block.text ++ after
  text :
    ∃ body, block.text = Grl.header block.name block.salience ++ "\n" ++ body ∧
      HasLine body ("        " ++ action ++ ";")

theorem writes_of_mem_actions
    {schedule : Schedule} {block : Grl.Block} (isBlock : block ∈ schedule.blocks)
    {action : String} (member : action ∈ block.actions) :
    schedule.Writes block action where
  source := grl_of_mem_blocks isBlock
  text := by
    refine ⟨_, block.text_eq_header, hasLine_unlines ?_⟩
    exact List.mem_append_left _ (Grl.Block.mem_body_of_mem_actions member)

theorem writes_ruleBlock
    {schedule : Schedule} {rule : ScheduledRule} (scheduled : rule ∈ schedule.rules) :
    schedule.Writes (Grl.ruleBlock rule) (Grl.ruleAction rule) :=
  writes_of_mem_actions (ruleBlock_mem_blocks scheduled) List.mem_cons_self

end Schedule

end FeatureRules
