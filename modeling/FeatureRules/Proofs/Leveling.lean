import FeatureRules.Compilation
import FeatureRules.Proofs.Dependency
import FeatureRules.Proofs.Entries
import FeatureRules.Proofs.Graph.Walk

/-!
# Leveling and peeling

Passes over waiting rules fail at the first name that nothing declares, and at no other. Otherwise
they come to the levels of peeling, whatever the order of the rules, and the rules that are left wait
for each other exactly as the nodes do at which peeling is stuck.
-/

namespace FeatureRules

open Relation

/-! ## One look at a rule -/

namespace Dependency

/-- What looking up comes to for a declared name. -/
def look (symbols : Symbols) (levels : List (String × Nat)) : Dependency → Dependency
  | pending name =>
      match levels.lookup name with
      | some value => level value
      | none => if symbols.isRule name then pending name else input
  | level value => level value
  | input => input

theorem refresh_eq_ok
    {symbols : Symbols} {levels : List (String × Nat)} {rule : String} {dependency : Dependency}
    (known : ∀ name ∈ dependency.pending?, symbols.knows name = true) :
    dependency.refresh symbols levels rule = .ok (dependency.look symbols levels) := by
  cases dependency with
  | level value => rfl
  | input => rfl
  | pending name =>
      have declared := known name rfl
      rw [refresh, if_pos declared, look]
      cases levels.lookup name with
      | some value => rfl
      | none => cases symbols.isRule name <;> rfl

theorem mapM_refresh_of_known
    {symbols : Symbols} {levels : List (String × Nat)} {rule : String}
    {dependencies : List Dependency}
    (known : ∀ dependency ∈ dependencies, ∀ name ∈ dependency.pending?, symbols.knows name = true) :
    dependencies.mapM (refresh symbols levels rule) =
      .ok (dependencies.map (look symbols levels)) := by
  induction dependencies with
  | nil => rfl
  | cons first rest inductionHypothesis =>
      obtain ⟨firstKnown, restKnown⟩ := List.forall_mem_cons.mp known
      rw [List.mapM_cons, refresh_eq_ok firstKnown, inductionHypothesis restKnown]
      rfl

/-- The first name that nothing declares is the failure. -/
theorem mapM_refresh_of_unknown
    {symbols : Symbols} {levels : List (String × Nat)} {rule reference : String}
    {before : List Dependency} (after : List Dependency)
    (known : ∀ dependency ∈ before, ∀ name ∈ dependency.pending?, symbols.knows name = true)
    (unknown : symbols.knows reference = false) :
    (before ++ pending reference :: after).mapM (refresh symbols levels rule) =
      .error (.unresolvableReference rule reference) := by
  induction before with
  | nil =>
      rw [List.nil_append, List.mapM_cons, refresh, unknown]
      rfl
  | cons first rest inductionHypothesis =>
      obtain ⟨firstKnown, restKnown⟩ := List.forall_mem_cons.mp known
      rw [List.cons_append, List.mapM_cons, refresh_eq_ok firstKnown,
        inductionHypothesis restKnown]
      rfl

theorem look_look (symbols : Symbols) (levels : List (String × Nat)) (dependency : Dependency) :
    (dependency.look symbols levels).look symbols levels = dependency.look symbols levels := by
  cases dependency with
  | level value => rfl
  | input => rfl
  | pending name =>
      cases found : levels.lookup name with
      | some value => simp [look, found]
      | none => cases isRule : symbols.isRule name <;> simp [look, found, isRule]

/-- A name that is still awaited after a look is that of a rule without a level. -/
theorem of_look_eq_pending
    {symbols : Symbols} {levels : List (String × Nat)} {name : String}
    (kept : (pending name).look symbols levels = pending name) :
    levels.lookup name = none ∧ symbols.isRule name = true := by
  rw [look] at kept
  split at kept
  · cases kept
  · next unleveled =>
      split at kept
      · next isRule => exact ⟨unleveled, isRule⟩
      · cases kept

end Dependency

namespace Waiting

variable {symbols : Symbols} {levels : List (String × Nat)} {waiting refreshed : Waiting}

def look (symbols : Symbols) (levels : List (String × Nat)) (waiting : Waiting) : Waiting :=
  { waiting with dependencies := waiting.dependencies.map (Dependency.look symbols levels) }

def Known (symbols : Symbols) (waiting : Waiting) : Prop :=
  ∀ dependency ∈ waiting.dependencies, ∀ name ∈ dependency.pending?, symbols.knows name = true

theorem refresh_of_known (known : waiting.Known symbols) :
    waiting.refresh symbols levels = .ok (waiting.look symbols levels) := by
  rw [refresh, Dependency.mapM_refresh_of_known known]
  rfl

theorem refresh_of_unknown
    {before after : List Dependency} {reference : String}
    (split : waiting.dependencies = before ++ .pending reference :: after)
    (known : ∀ dependency ∈ before, ∀ name ∈ dependency.pending?, symbols.knows name = true)
    (unknown : symbols.knows reference = false) :
    waiting.refresh symbols levels = .error (.unresolvableReference waiting.name reference) := by
  rw [refresh, split, Dependency.mapM_refresh_of_unknown after known unknown]
  rfl

theorem eq_look_of_refresh (succeeded : waiting.refresh symbols levels = .ok refreshed) :
    refreshed = waiting.look symbols levels := by
  by_cases known : waiting.Known symbols
  · rw [refresh_of_known known] at succeeded
    cases succeeded
    rfl
  · have present : ∃ dependency ∈ waiting.dependencies,
        ∃ name ∈ dependency.pending?, symbols.knows name = false := by
      simpa [Known] using known
    obtain ⟨before, dependency, after, split, passed, name, isPending, unknown⟩ :=
      Model.exists_first present
    obtain rfl : dependency = .pending name := by
      cases dependency <;> simp_all [Dependency.pending?]
    have allKnown : ∀ other ∈ before, ∀ name ∈ other.pending?, symbols.knows name = true := by
      intro other member otherName otherPending
      by_contra undeclared
      exact passed other member ⟨otherName, otherPending, by simpa using undeclared⟩
    rw [refresh_of_unknown split allKnown unknown] at succeeded
    cases succeeded

theorem look_look (symbols : Symbols) (levels : List (String × Nat)) (waiting : Waiting) :
    (waiting.look symbols levels).look symbols levels = waiting.look symbols levels := by
  simp [look, Dependency.look_look]

theorem known_look (known : waiting.Known symbols) : (waiting.look symbols levels).Known symbols := by
  intro dependency member name isPending
  obtain ⟨earlier, inWaiting, rfl⟩ := List.mem_map.mp member
  cases earlier with
  | level value => cases isPending
  | input => cases isPending
  | pending awaited =>
      have declared := known _ inWaiting awaited rfl
      rw [Dependency.look] at isPending
      split at isPending
      · cases isPending
      · split at isPending
        · cases isPending
          exact declared
        · cases isPending

theorem mem_awaited_iff {name : String} :
    name ∈ waiting.awaited ↔ .pending name ∈ waiting.dependencies := by
  rw [awaited, List.mem_filterMap]
  constructor
  · rintro ⟨dependency, member, isPending⟩
    cases dependency <;> simp_all [Dependency.pending?]
  · intro member
    exact ⟨.pending name, member, rfl⟩

theorem mem_filterMap_level?_iff {value : Nat} :
    value ∈ waiting.dependencies.filterMap Dependency.level? ↔
      .level value ∈ waiting.dependencies := by
  rw [List.mem_filterMap]
  constructor
  · rintro ⟨dependency, member, isLevel⟩
    cases dependency <;> simp_all [Dependency.level?]
  · intro member
    exact ⟨.level value, member, rfl⟩

/-- A rule gets a level once it waits for nothing: right above the highest level that it knows of, and
the lowest level if it knows of none. -/
theorem of_level?_eq_some {level : Nat} (given : waiting.level? = some level) :
    (∀ name, .pending name ∉ waiting.dependencies) ∧
      (∀ value, .level value ∈ waiting.dependencies → value < level) ∧
      (level = 0 ∨ ∃ value, .level value ∈ waiting.dependencies ∧ level = value + 1) := by
  rw [level?] at given
  have free : waiting.awaited = [] := by
    by_contra waits
    simp [waits] at given
  rw [if_pos (List.isEmpty_iff.mpr free)] at given
  refine ⟨?_, ?_⟩
  · intro name member
    rw [← mem_awaited_iff, free] at member
    cases member
  · cases highest : waiting.deepest? with
    | none =>
        rw [highest] at given
        cases given
        rw [deepest?, List.max?_eq_none_iff] at highest
        refine ⟨?_, Or.inl rfl⟩
        intro value member
        rw [← mem_filterMap_level?_iff, highest] at member
        cases member
    | some deepest =>
        rw [highest] at given
        cases given
        rw [deepest?, List.max?_eq_some_iff] at highest
        refine ⟨?_, Or.inr ⟨deepest, mem_filterMap_level?_iff.mp highest.1, rfl⟩⟩
        intro value member
        exact Nat.lt_succ_of_le (highest.2 value (mem_filterMap_level?_iff.mpr member))

theorem exists_mem_awaited_of_level?_eq_none (waits : waiting.level? = none) :
    ∃ name, name ∈ waiting.awaited := by
  rw [level?] at waits
  split at waits
  · split at waits <;> cases waits
  · next busy => exact List.exists_mem_of_ne_nil waiting.awaited (by simpa using busy)

end Waiting

/-! ## Passes and runs -/

namespace Leveling

variable {symbols : Symbols} {leveling later last : Leveling} {waiting : List Waiting}
  {levels : List (String × Nat)} {leveled : Nat}

/-- One look at a waiting rule. It gets its level, or goes on waiting with what it has found out. -/
inductive Step (symbols : Symbols) : Leveling → Leveling → Prop
  | level (kept : List Waiting) (waiting : Waiting) (rest : List Waiting)
      (levels : List (String × Nat)) (level : Nat) :
      (waiting.look symbols levels).level? = some level →
      Step symbols ⟨kept ++ waiting :: rest, levels⟩
        ⟨kept ++ rest, Entries.insert waiting.name level levels⟩
  | keep (kept : List Waiting) (waiting : Waiting) (rest : List Waiting)
      (levels : List (String × Nat)) :
      (waiting.look symbols levels).level? = none →
      Step symbols ⟨kept ++ waiting :: rest, levels⟩
        ⟨kept ++ waiting.look symbols levels :: rest, levels⟩

/-- Another look at any waiting rule changes nothing. -/
def Idle (symbols : Symbols) (leveling : Leveling) : Prop :=
  ∀ waiting ∈ leveling.pending,
    waiting.look symbols leveling.levels = waiting ∧ waiting.level? = none

/-- A pass is one look at each rule, behind those that it has kept so far. -/
theorem steps_of_passes
    (passes : Passes symbols waiting levels leveled later) (kept : List Waiting) :
    ReflTransGen (Step symbols) ⟨kept ++ waiting, levels⟩
      ⟨kept ++ later.pending, later.levels⟩ := by
  induction passes generalizing kept with
  | done levels => exact .refl
  | level looked given _ inductionHypothesis =>
      obtain rfl := Waiting.eq_look_of_refresh looked
      exact .head (.level kept _ _ _ _ given) (inductionHypothesis kept)
  | @keep first refreshed _ _ _ _ looked waits _ inductionHypothesis =>
      have behind := inductionHypothesis (kept ++ [refreshed])
      obtain rfl := Waiting.eq_look_of_refresh looked
      simp only [List.append_assoc, List.singleton_append] at behind
      exact .head (.keep kept first _ _ waits) behind

/-- After a pass that gives no level, looking again is in vain. -/
theorem idle_of_passes
    (passes : Passes symbols waiting levels leveled later) (fruitless : leveled = 0) :
    later.levels = levels ∧ Idle symbols later := by
  induction passes with
  | done levels => exact ⟨rfl, by simp [Idle]⟩
  | level _ _ _ _ => cases fruitless
  | keep looked waits _ inductionHypothesis =>
      obtain ⟨sameLevels, idle⟩ := inductionHypothesis fruitless
      obtain rfl := Waiting.eq_look_of_refresh looked
      refine ⟨sameLevels, List.forall_mem_cons.mpr ⟨⟨?_, waits⟩, idle⟩⟩
      rw [sameLevels]
      exact Waiting.look_look symbols _ _

theorem steps_and_idle_of_run (succeeded : run symbols leveling = .ok last) :
    ReflTransGen (Step symbols) leveling last ∧ Idle symbols last := by
  fun_induction run symbols leveling with
  | case1 leveling empty =>
      cases succeeded
      refine ⟨.refl, ?_⟩
      rw [Idle, List.isEmpty_iff.mp empty]
      simp
  | case2 => cases succeeded
  | case3 leveling _ next passed =>
      cases succeeded
      have passes := passes_of_pass passed
      exact ⟨steps_of_passes passes [], (idle_of_passes passes rfl).2⟩
  | case4 leveling _ leveled next passed _ inductionHypothesis =>
      obtain ⟨steps, idle⟩ := inductionHypothesis succeeded
      exact ⟨(steps_of_passes (passes_of_pass passed) []).trans steps, idle⟩

/-! ## Failures -/

theorem known_of_step
    (step : Step symbols leveling later) (known : ∀ entry ∈ leveling.pending, entry.Known symbols) :
    ∀ entry ∈ later.pending, entry.Known symbols := by
  cases step with
  | level kept waiting rest levels level given =>
      intro entry member
      apply known
      simp only [List.mem_append, List.mem_cons] at member ⊢
      tauto
  | keep kept waiting rest levels waits =>
      have lookKnown : (waiting.look symbols levels).Known symbols :=
        Waiting.known_look (known waiting (by simp))
      intro entry member
      simp only [List.mem_append, List.mem_cons] at member
      rcases member with inKept | rfl | inRest
      · exact known entry (by simp [inKept])
      · exact lookKnown
      · exact known entry (by simp [inRest])

theorem known_of_steps
    (steps : ReflTransGen (Step symbols) leveling later)
    (known : ∀ entry ∈ leveling.pending, entry.Known symbols) :
    ∀ entry ∈ later.pending, entry.Known symbols := by
  induction steps with
  | refl => exact known
  | tail _ step inductionHypothesis => exact known_of_step step inductionHypothesis

theorem exists_pass
    (known : ∀ entry ∈ waiting, entry.Known symbols) (levels : List (String × Nat)) :
    ∃ result, pass symbols waiting levels = .ok result := by
  induction waiting generalizing levels with
  | nil => exact ⟨_, rfl⟩
  | cons first rest inductionHypothesis =>
      obtain ⟨firstKnown, restKnown⟩ := List.forall_mem_cons.mp known
      rw [pass, Waiting.refresh_of_known firstKnown]
      cases given : (first.look symbols levels).level? with
      | some level =>
          obtain ⟨result, passed⟩ :=
            inductionHypothesis restKnown (Entries.insert first.name level levels)
          simp [given, passed, bind, Except.bind, pure, Except.pure]
      | none =>
          obtain ⟨result, passed⟩ := inductionHypothesis restKnown levels
          simp [given, passed, bind, Except.bind, pure, Except.pure]

/-- Passes over rules that refer to declared names only do not fail. -/
theorem exists_run (known : ∀ entry ∈ leveling.pending, entry.Known symbols) :
    ∃ last, run symbols leveling = .ok last := by
  fun_induction run symbols leveling with
  | case1 leveling _ => exact ⟨leveling, rfl⟩
  | case2 leveling _ failure failed =>
      obtain ⟨result, passed⟩ := exists_pass known leveling.levels
      rw [failed] at passed
      cases passed
  | case3 leveling _ next _ => exact ⟨next, rfl⟩
  | case4 leveling _ leveled next passed _ inductionHypothesis =>
      apply inductionHypothesis
      have steps := steps_of_passes (passes_of_pass passed) []
      exact known_of_steps steps known

/-- A pass fails at the first rule that fails, whatever levels it has given before. -/
theorem pass_eq_error
    {before : List Waiting} (after : List Waiting) {offender : Waiting} {failure : CompileError}
    (known : ∀ entry ∈ before, entry.Known symbols)
    (fails : ∀ levels, offender.refresh symbols levels = .error failure)
    (levels : List (String × Nat)) :
    pass symbols (before ++ offender :: after) levels = .error failure := by
  induction before generalizing levels with
  | nil =>
      rw [List.nil_append, pass, fails levels]
      rfl
  | cons first rest inductionHypothesis =>
      obtain ⟨firstKnown, restKnown⟩ := List.forall_mem_cons.mp known
      rw [List.cons_append, pass, Waiting.refresh_of_known firstKnown]
      cases given : (first.look symbols levels).level? with
      | some level =>
          simp [given, inductionHypothesis restKnown, bind, Except.bind]
      | none =>
          simp [given, inductionHypothesis restKnown, bind, Except.bind]

theorem run_eq_error
    {before after : List Waiting} {offender : Waiting} {failure : CompileError}
    (known : ∀ entry ∈ before, entry.Known symbols)
    (fails : ∀ levels, offender.refresh symbols levels = .error failure)
    (levels : List (String × Nat)) :
    run symbols ⟨before ++ offender :: after, levels⟩ = .error failure := by
  have failed := pass_eq_error after known fails levels
  rw [run, if_neg (by simp)]
  split
  · next other passed =>
      rw [failed] at passed
      cases passed
      rfl
  · next passed =>
      rw [failed] at passed
      cases passed

theorem names_graph (leveling : Leveling) : leveling.graph.names = leveling.names := by
  simp [graph, Graph.names, names, Function.comp_def]

end Leveling

/-! ## Passes over the rules of a model -/

namespace Model

variable {model : Model} {levels larger : List (String × Nat)} {leveling later last : Leveling}
  {name : String} {dependency : Dependency} {waiting : Waiting}

/-- What is known of a name is right. -/
def Stands (model : Model) (levels : List (String × Nat)) (name : String) : Dependency → Prop
  | .level value => (name, value) ∈ levels
  | .input => name ∉ model.ruleNames
  | .pending awaited => awaited = name

theorem Stands.mono (stands : model.Stands levels name dependency) (grown : levels ⊆ larger) :
    model.Stands larger name dependency := by
  cases dependency with
  | level value => exact grown stands
  | input => exact stands
  | pending awaited => exact stands

theorem Stands.look (stands : model.Stands levels name dependency) :
    model.Stands levels name (dependency.look model.symbols levels) := by
  cases dependency with
  | level value => exact stands
  | input => exact stands
  | pending awaited =>
      obtain rfl : awaited = name := stands
      rw [Dependency.look]
      split
      · next value found =>
          obtain ⟨before, after, rfl, _⟩ := List.lookup_eq_some_iff.mp found
          exact List.mem_append_right before List.mem_cons_self
      · split
        · rfl
        · next noRule =>
            intro isRule
            exact noRule (isRule_iff.mpr isRule)

/-- A waiting rule is a rule of the model, and what it knows of each name that it refers to is
right. -/
def Reads (model : Model) (levels : List (String × Nat)) (waiting : Waiting) : Prop :=
  ∃ rule ∈ model.rules, ∃ view : String → Dependency,
    rule.name = waiting.name ∧ waiting.dependencies = rule.dependencies.map view ∧
      ∀ name ∈ rule.dependencies, model.Stands levels name (view name)

theorem Reads.mono (reads : model.Reads levels waiting) (grown : levels ⊆ larger) :
    model.Reads larger waiting := by
  obtain ⟨rule, inModel, view, named, viewed, stands⟩ := reads
  exact ⟨rule, inModel, view, named, viewed, fun name mentioned => (stands name mentioned).mono grown⟩

theorem Reads.look (reads : model.Reads levels waiting) :
    model.Reads levels (waiting.look model.symbols levels) := by
  obtain ⟨rule, inModel, view, named, viewed, stands⟩ := reads
  refine
    ⟨rule, inModel, fun name => (view name).look model.symbols levels, named, ?_,
      fun name mentioned => (stands name mentioned).look⟩
  rw [Waiting.look, viewed, List.map_map]
  rfl

/-- A level that a waiting rule gets is that of peeling, if all levels before are. -/
theorem Reads.mem_peel
    (distinct : model.ruleNames.Nodup) (reads : model.Reads levels waiting)
    (peeled : levels ⊆ (model.graph.peel 0).1) {level : Nat} (given : waiting.level? = some level) :
    (waiting.name, level) ∈ (model.graph.peel 0).1 := by
  obtain ⟨rule, inModel, view, named, viewed, stands⟩ := reads
  obtain ⟨free, above, tight⟩ := Waiting.of_level?_eq_some given
  have known : ∀ name ∈ rule.dependencies, view name ∈ waiting.dependencies := by
    intro name mentioned
    rw [viewed]
    exact List.mem_map_of_mem mentioned
  have inGraph : ⟨rule.name, rule.dependencies.filter model.isRule⟩ ∈ model.graph :=
    List.mem_map_of_mem inModel
  rw [← names_graph] at distinct
  rw [← named]
  apply Graph.mem_peel_of_successors distinct model.closed_graph inGraph
  · intro target successor
    obtain ⟨mentioned, isRule⟩ := List.mem_filter.mp successor
    have standing := stands target mentioned
    have among := known target mentioned
    cases seen : view target with
    | level value =>
        rw [seen] at standing among
        exact ⟨value, peeled standing, above value among⟩
    | input =>
        rw [seen] at standing
        exact absurd (isRule_iff.mp isRule) standing
    | pending awaited =>
        rw [seen] at among
        exact absurd among (free awaited)
  · refine tight.imp_right ?_
    rintro ⟨value, among, rfl⟩
    rw [viewed] at among
    obtain ⟨target, mentioned, seen⟩ := List.mem_map.mp among
    have standing := stands target mentioned
    rw [seen] at standing
    have isRule : target ∈ model.ruleNames := by
      rw [← names_graph]
      exact Graph.mem_names_of_mem_peel (peeled standing)
    exact
      ⟨target, List.mem_filter.mpr ⟨mentioned, isRule_iff.mpr isRule⟩, value, peeled standing, rfl⟩

/-- The state of the passes over the rules of a model: every rule either has the level that peeling
gives it or is waiting, with right knowledge. -/
structure Refines (model : Model) (leveling : Leveling) : Prop where
  names_perm : (leveling.levels.map Prod.fst ++ leveling.names).Perm model.ruleNames
  names_sublist : leveling.names.Sublist model.ruleNames
  levels_subset : leveling.levels ⊆ (model.graph.peel 0).1
  reads : ∀ waiting ∈ leveling.pending, model.Reads leveling.levels waiting

theorem names_start (model : Model) : (Leveling.start model.rules).names = model.ruleNames := by
  simp [Leveling.names, Leveling.start, Waiting.ofRule, ruleNames, Function.comp_def]

theorem refines_start (model : Model) : model.Refines (Leveling.start model.rules) where
  names_perm := by
    rw [names_start]
    exact List.Perm.refl _
  names_sublist := by
    rw [names_start]
  levels_subset := List.nil_subset _
  reads := by
    intro waiting member
    obtain ⟨rule, inModel, rfl⟩ := List.mem_map.mp member
    exact ⟨rule, inModel, .pending, rfl, rfl, fun _ _ => rfl⟩

/-- What one look at a rule keeps. -/
theorem Refines.step
    (refines : model.Refines leveling) (distinct : model.ruleNames.Nodup)
    (step : leveling.Step model.symbols later) :
    model.Refines later := by
  cases step with
  | level kept waiting rest levels level given =>
      have reads := (refines.reads waiting (by simp)).look
      have peeled := reads.mem_peel distinct refines.levels_subset given
      have apart := refines.names_perm.nodup_iff.mpr distinct
      have fresh : waiting.name ∉ levels.map Prod.fst := by
        intro member
        refine List.disjoint_of_nodup_append apart member ?_
        simp [Leveling.names]
      rw [Entries.insert_of_not_mem level fresh]
      constructor
      · have permuted := refines.names_perm
        simp only [Leveling.names, List.map_append, List.map_cons, List.map_nil,
          List.append_assoc, List.singleton_append] at permuted ⊢
        exact (List.perm_middle.symm.append_left _).trans permuted
      · refine List.Sublist.trans ?_ refines.names_sublist
        simp [Leveling.names]
      · refine List.append_subset.mpr ⟨refines.levels_subset, ?_⟩
        exact List.cons_subset.mpr ⟨peeled, List.nil_subset _⟩
      · intro other member
        refine (refines.reads other ?_).mono (List.subset_append_left _ _)
        simp only [List.mem_append, List.mem_cons] at member ⊢
        tauto
  | keep kept waiting rest levels waits =>
      have sameNames :
          Leveling.names ⟨kept ++ waiting.look model.symbols levels :: rest, levels⟩ =
            Leveling.names ⟨kept ++ waiting :: rest, levels⟩ := by
        simp [Leveling.names, Waiting.look]
      constructor
      · rw [sameNames]
        exact refines.names_perm
      · rw [sameNames]
        exact refines.names_sublist
      · exact refines.levels_subset
      · intro other member
        simp only [List.mem_append, List.mem_cons] at member
        rcases member with inKept | rfl | inRest
        · exact refines.reads other (by simp [inKept])
        · exact (refines.reads waiting (by simp)).look
        · exact refines.reads other (by simp [inRest])

theorem refines_of_leveling
    (distinct : model.ruleNames.Nodup) (found : model.leveling = .ok last) :
    model.Refines last ∧ last.Idle model.symbols := by
  obtain ⟨steps, idle⟩ := Leveling.steps_and_idle_of_run found
  refine ⟨?_, idle⟩
  clear found idle
  induction steps with
  | refl => exact refines_start model
  | tail _ step inductionHypothesis => exact inductionHypothesis.step distinct step

/-! ## The end of the passes -/

/-- A part of a list without repetitions is what the list holds of its names. -/
theorem eq_filter_of_sublist {names part : List String} (distinct : names.Nodup)
    (sublist : part.Sublist names) : part = names.filter part.contains := by
  have kept : part.filter part.contains = part := List.filter_eq_self.mpr (by simp)
  have inFilter : part.Sublist (names.filter part.contains) := by
    have filtered := sublist.filter part.contains
    rwa [kept] at filtered
  refine inFilter.eq_of_length (List.Perm.length_eq ?_)
  rw [List.perm_ext_iff_of_nodup (distinct.sublist sublist) (distinct.filter _)]
  intro name
  rw [List.mem_filter, List.contains_iff_mem]
  exact ⟨fun member => ⟨sublist.subset member, member⟩, And.right⟩

namespace Refines

variable (distinct : model.ruleNames.Nodup) (refines : model.Refines last)
  (idle : last.Idle model.symbols)

include distinct refines

theorem disjoint : List.Disjoint (last.levels.map Prod.fst) last.names :=
  List.disjoint_of_nodup_append (refines.names_perm.nodup_iff.mpr distinct)

include idle

/-- A rule that is left waits for the rules that are left and that it refers to, in the order of its
text. Names with a level and names of no rule are out of the way. -/
theorem awaited_eq {waiting : Waiting} (member : waiting ∈ last.pending) :
    ∃ rule ∈ model.rules, rule.name = waiting.name ∧
      waiting.awaited = rule.dependencies.filter last.names.contains := by
  obtain ⟨rule, inModel, view, named, viewed, stands⟩ := refines.reads waiting member
  have settled := (idle waiting member).1
  refine ⟨rule, inModel, named, ?_⟩
  rw [Waiting.awaited, viewed, List.filterMap_map, ← List.filterMap_eq_filter]
  apply List.filterMap_congr
  intro name mentioned
  have standing := stands name mentioned
  have fixed : (view name).look model.symbols last.levels = view name := by
    have mapped := congrArg Waiting.dependencies settled
    rw [Waiting.look, viewed, List.map_map, List.map_inj_left] at mapped
    exact mapped name mentioned
  rw [Function.comp_apply, Option.guard]
  cases seen : view name with
  | level value =>
      rw [seen] at standing
      have leveled : name ∈ last.levels.map Prod.fst := List.mem_map_of_mem standing
      have unlisted : name ∉ last.names := refines.disjoint distinct leveled
      simp [Dependency.pending?, unlisted]
  | input =>
      rw [seen] at standing
      have unlisted : name ∉ last.names := mt (refines.names_sublist.subset ·) standing
      simp [Dependency.pending?, unlisted]
  | pending awaited =>
      rw [seen] at standing fixed
      obtain rfl : awaited = name := standing
      obtain ⟨unleveled, isRule⟩ := Dependency.of_look_eq_pending fixed
      have known := refines.names_perm.symm.subset (isRule_iff.mp isRule)
      have listed : awaited ∈ last.names := by
        refine (List.mem_append.mp known).resolve_left ?_
        intro inLevels
        obtain ⟨entry, inList, rfl⟩ := List.mem_map.mp inLevels
        rw [List.lookup_eq_none_iff] at unleveled
        simpa using unleveled entry inList
      simp [Dependency.pending?, listed]

theorem exists_awaited {waiting : Waiting} (member : waiting ∈ last.pending) :
    ∃ name ∈ waiting.awaited, name ∈ last.names := by
  obtain ⟨rule, _, _, awaits⟩ := refines.awaited_eq distinct idle member
  obtain ⟨name, awaited⟩ := Waiting.exists_mem_awaited_of_level?_eq_none (idle waiting member).2
  refine ⟨name, awaited, ?_⟩
  rw [awaits, List.mem_filter, List.contains_iff_mem] at awaited
  exact awaited.2

theorem awaits_of_edge {source target : String} (edge : last.graph.Edge source target) :
    model.Awaits source target := by
  obtain ⟨node, member, rfl, successor⟩ := edge
  obtain ⟨waiting, inPending, rfl⟩ := List.mem_map.mp member
  obtain ⟨rule, inModel, named, awaits⟩ := refines.awaited_eq distinct idle inPending
  obtain ⟨awaited, listed⟩ := List.mem_filter.mp successor
  rw [awaits] at awaited
  refine ⟨rule, inModel, named, (List.mem_filter.mp awaited).1, ?_⟩
  exact refines.names_sublist.subset (List.contains_iff_mem.mp listed)

/-- The rules that are left are those at which peeling is stuck. -/
theorem names_eq_stuck : last.names = (model.graph.stuck 0).names := by
  have graphDistinct : model.graph.names.Nodup := by rwa [names_graph]
  have leadsOn : ∀ source ∈ last.names, ∃ target ∈ last.names, model.graph.Edge source target := by
    intro source member
    obtain ⟨waiting, inPending, rfl⟩ := List.mem_map.mp member
    obtain ⟨target, awaited, listed⟩ := refines.exists_awaited distinct idle inPending
    have edge : last.graph.Edge waiting.name target :=
      ⟨_, List.mem_map_of_mem inPending, rfl,
        List.mem_filter.mpr ⟨awaited, List.contains_iff_mem.mpr listed⟩⟩
    exact ⟨target, listed, edge_graph_iff.mpr (refines.awaits_of_edge distinct idle edge)⟩
  have same : ∀ name, name ∈ last.names ↔ name ∈ (model.graph.stuck 0).names := by
    intro name
    constructor
    · intro member
      rw [Graph.mem_names_stuck_iff graphDistinct model.closed_graph]
      exact Graph.leadsToCycle_of_mem leadsOn member
    · intro isStuck
      have isRule : name ∈ model.ruleNames := by
        rw [← names_graph]
        exact (Graph.names_stuck_sublist 0 model.graph).subset isStuck
      have known := refines.names_perm.symm.subset isRule
      refine (List.mem_append.mp known).resolve_left ?_
      intro inLevels
      obtain ⟨entry, inList, rfl⟩ := List.mem_map.mp inLevels
      exact
        Graph.leveled_disjoint_stuck 0 graphDistinct
          (List.mem_map_of_mem (refines.levels_subset inList)) isStuck
  have stuckSublist : (model.graph.stuck 0).names.Sublist model.ruleNames := by
    rw [← names_graph]
    exact Graph.names_stuck_sublist 0 model.graph
  rw [eq_filter_of_sublist distinct refines.names_sublist, eq_filter_of_sublist distinct stuckSublist]
  apply List.filter_congr
  intro name _
  rw [Bool.eq_iff_iff, List.contains_iff_mem, List.contains_iff_mem]
  exact same name

/-- The rules that are left wait for each other. -/
theorem tangled_graph : last.graph.Tangled where
  distinct := by
    rw [Leveling.names_graph]
    exact distinct.sublist refines.names_sublist
  closed := by
    rintro source target ⟨node, member, _, successor⟩
    obtain ⟨waiting, _, rfl⟩ := List.mem_map.mp member
    rw [Leveling.names_graph]
    simpa using (List.mem_filter.mp successor).2
  waiting := by
    intro node member
    obtain ⟨waiting, inPending, rfl⟩ := List.mem_map.mp member
    obtain ⟨name, awaited, listed⟩ := refines.exists_awaited distinct idle inPending
    exact List.ne_nil_of_mem (List.mem_filter.mpr ⟨awaited, by simpa using listed⟩)

/-- The levels are those of peeling, in some order. -/
theorem levels_perm : last.levels.Perm (model.graph.peel 0).1 := by
  have graphDistinct : model.graph.names.Nodup := by rwa [names_graph]
  have leveledOnce : (Graph.leveled 0 model.graph).Nodup := Graph.nodup_leveled 0 graphDistinct
  have keysOnce : (last.levels.map Prod.fst).Nodup :=
    (refines.names_perm.nodup_iff.mpr distinct).of_append_left
  rw [List.perm_ext_iff_of_nodup keysOnce.of_map leveledOnce.of_map]
  rintro ⟨name, level⟩
  refine ⟨fun member => refines.levels_subset member, fun member => ?_⟩
  have leveled : name ∈ Graph.leveled 0 model.graph := List.mem_map_of_mem member
  have unstuck : name ∉ last.names := by
    rw [refines.names_eq_stuck distinct idle]
    exact Graph.leveled_disjoint_stuck 0 graphDistinct leveled
  have isRule : name ∈ model.ruleNames := by
    rw [← names_graph]
    exact Graph.mem_names_of_mem_peel member
  have known := refines.names_perm.symm.subset isRule
  obtain ⟨⟨_, given⟩, inList, rfl⟩ :=
    List.mem_map.mp ((List.mem_append.mp known).resolve_right unstuck)
  rwa [Graph.level_unique graphDistinct member (refines.levels_subset inList)]

end Refines

end Model

end FeatureRules
