import FeatureRules.ModelFolder.Generate
import FeatureRules.Proofs.Entries

/-!
# Generating rule source twice

A run that fails leaves the folder as it is. A run that succeeds changes nothing but the rule
source, which loading does not look at, so that another run gives the same result and changes
nothing.
-/

namespace FeatureRules

/-! ## Paths -/

theorem FileName.ofText_injective : Function.Injective FileName.ofText := by
  intro first second same
  have sameBytes : first.toUTF8 = second.toUTF8 :=
    ByteArray.ext (Array.toList_inj.mp same)
  exact String.toByteArray_inj.mp sameBytes

namespace FileTree

inductive Kind where
  | file (content : ByteArray)
  | folder

def kind : FileTree → Kind
  | file content => .file content
  | folder _ => .folder

/-- A tree as a map from paths to files and folders. -/
def kind? (tree : FileTree) (path : List FileName) : Option Kind :=
  (tree.find? path).map kind

/-- A name is free for a file, unless there is a folder of that name. -/
def Writable (tree : FileTree) (name : FileName) : Prop :=
  ∀ entries, tree.find? [name] ≠ some (.folder entries)

theorem find?_cons (tree : FileTree) (name : FileName) (rest : List FileName) :
    tree.find? (name :: rest) = (tree.entries.lookup name).bind fun child => child.find? rest := by
  rw [find?]
  cases tree.entries.lookup name <;> rfl

theorem find?_file_cons (content : ByteArray) (name : FileName) (rest : List FileName) :
    (file content).find? (name :: rest) = none := by
  rw [find?_cons]
  rfl

theorem entries_write (content : ByteArray) (name : FileName) (tree : FileTree) :
    (tree.write content [name]).entries = Entries.insert name (file content) tree.entries :=
  rfl

theorem find?_write_self (content : ByteArray) (name : FileName) (tree : FileTree) :
    (tree.write content [name]).find? [name] = some (file content) := by
  rw [find?_cons, entries_write, Entries.lookup_insert, if_pos rfl]
  rfl

theorem find?_write_of_ne
    (content : ByteArray) {name other : FileName} (different : other ≠ name)
    (tree : FileTree) (rest : List FileName) :
    (tree.write content [name]).find? (other :: rest) = tree.find? (other :: rest) := by
  rw [find?_cons, entries_write, Entries.lookup_insert, if_neg different, find?_cons]

theorem write_write (content : ByteArray) (name : FileName) (tree : FileTree) :
    (tree.write content [name]).write content [name] = tree.write content [name] := by
  have again := Entries.insert_insert name (file content) tree.entries
  exact congrArg folder again

theorem writable_write (content : ByteArray) (name : FileName) (tree : FileTree) :
    (tree.write content [name]).Writable name := by
  intro entries found
  rw [find?_write_self] at found
  cases found

/-- Below a name that is no folder there is nothing. -/
theorem Writable.find?_below
    {tree : FileTree} {name : FileName} (writable : tree.Writable name)
    (next : FileName) (rest : List FileName) :
    tree.find? (name :: next :: rest) = none := by
  cases present : tree.entries.lookup name with
  | none => rw [find?_cons, present, Option.bind_none]
  | some child =>
      cases child with
      | file content => rw [find?_cons, present, Option.bind_some, find?_file_cons]
      | folder entries =>
          refine absurd ?_ (writable entries)
          rw [find?_cons, present]
          rfl

/-- Writing a file into a folder changes the folder at the path of that file only. -/
theorem kind?_write_of_ne
    {content : ByteArray} {name : FileName} {present : List (FileName × FileTree)}
    (writable : (folder present).Writable name) {path : List FileName} (different : path ≠ [name]) :
    ((folder present).write content [name]).kind? path = (folder present).kind? path := by
  match path with
  | [] => rfl
  | other :: rest =>
      by_cases same : other = name
      · subst same
        cases rest with
        | nil => exact absurd rfl different
        | cons next below =>
            rw [kind?, kind?, (writable_write content other _).find?_below, writable.find?_below]
      · rw [kind?, kind?, find?_write_of_ne content same]

end FileTree

/-! ## Loading and generating -/

namespace ModelFolder

variable {folder : String} {tree : FileTree}

/-- Loading looks at four names of a folder. -/
theorem load_congr
    {other : FileTree}
    (same : ∀ name ∈ ["rules.json", "parameters.json", "features.json", "groups"],
      other.find? [FileName.ofText name] = tree.find? [FileName.ofText name]) :
    load folder other = load folder tree := by
  have rules := same "rules.json" (by simp)
  have parameters := same "parameters.json" (by simp)
  have features := same "features.json" (by simp)
  have groups := same "groups" (by simp)
  simp only [load, declarations, readPart, groupFiles, FileTree.isFile, FileTree.readText?, rules,
    parameters, features, groups]

/-- Loading does not look at the rule source. -/
theorem load_write (folder : String) (tree : FileTree) (content : ByteArray) :
    load folder (tree.write content [FileName.ofText outputName]) = load folder tree := by
  apply load_congr
  intro name read
  apply FileTree.find?_write_of_ne
  apply FileName.ofText_injective.ne
  revert name
  decide

theorem exists_folder_of_load {model : Model} (loaded : load folder tree = .ok model) :
    ∃ entries, tree = .folder entries := by
  cases tree with
  | file content => cases loaded
  | folder entries => exact ⟨entries, rfl⟩

/-- How a run can end. -/
inductive Run (folder : String) (tree : FileTree) : Except GenerateError String × FileTree → Prop
  | unloadable {error : LoadError} :
      load folder tree = .error error → Run folder tree (.error (.load error), tree)
  | uncompilable {model : Model} {error : CompileError} :
      load folder tree = .ok model → model.compile Salience.standardBase = .error error →
        Run folder tree (.error (.compile error), tree)
  | obstructed {model : Model} {schedule : Schedule} {entries : List (FileName × FileTree)} :
      load folder tree = .ok model → model.compile Salience.standardBase = .ok schedule →
        tree.find? [FileName.ofText outputName] = some (.folder entries) →
          Run folder tree (.error .outputIsFolder, tree)
  | written {model : Model} {schedule : Schedule} :
      load folder tree = .ok model → model.compile Salience.standardBase = .ok schedule →
        tree.Writable (FileName.ofText outputName) →
          Run folder tree
            (.ok (pathIn folder outputName),
              tree.write schedule.grl.toUTF8 [FileName.ofText outputName])

theorem generate_of_writable
    {model : Model} {schedule : Schedule} (loaded : load folder tree = .ok model)
    (compiled : model.compile Salience.standardBase = .ok schedule)
    (writable : tree.Writable (FileName.ofText outputName)) :
    generate folder tree =
      (.ok (pathIn folder outputName),
        tree.write schedule.grl.toUTF8 [FileName.ofText outputName]) := by
  have text : source folder tree = .ok schedule.grl := by
    simp only [source, loaded, compiled]
  rw [generate, text]
  cases found : tree.find? [FileName.ofText outputName] with
  | none => rfl
  | some child =>
      cases child with
      | file content => rfl
      | folder entries => exact absurd found (writable entries)

theorem run_generate (folder : String) (tree : FileTree) :
    Run folder tree (generate folder tree) := by
  cases loaded : load folder tree with
  | error error =>
      simp only [generate, source, loaded]
      exact .unloadable loaded
  | ok model =>
      cases compiled : model.compile Salience.standardBase with
      | error error =>
          simp only [generate, source, loaded, compiled]
          exact .uncompilable loaded compiled
      | ok schedule =>
          by_cases writable : tree.Writable (FileName.ofText outputName)
          · rw [generate_of_writable loaded compiled writable]
            exact .written loaded compiled writable
          · simp only [FileTree.Writable, ne_eq, not_forall, not_not] at writable
            obtain ⟨entries, found⟩ := writable
            simp only [generate, source, loaded, compiled, found]
            exact .obstructed loaded compiled found

theorem generate_again
    {model : Model} {schedule : Schedule} (loaded : load folder tree = .ok model)
    (compiled : model.compile Salience.standardBase = .ok schedule) :
    generate folder (tree.write schedule.grl.toUTF8 [FileName.ofText outputName]) =
      (.ok (pathIn folder outputName),
        tree.write schedule.grl.toUTF8 [FileName.ofText outputName]) := by
  have loadedAgain := (load_write folder tree schedule.grl.toUTF8).trans loaded
  rw [generate_of_writable loadedAgain compiled (FileTree.writable_write _ _ tree),
    FileTree.write_write]

/-- A run that fails changes nothing: the model cannot be loaded or compiled, or a folder stands in
the place of the rule source. A run that succeeds writes the source of the compiled model there,
changes no other path, and does the same if it is repeated. -/
theorem generate_all_or_nothing (folder : String) (tree : FileTree) :
    (∀ failure, (generate folder tree).1 = .error failure →
        (generate folder tree).2 = tree ∧
          ((∃ error, failure = .load error ∧ load folder tree = .error error) ∨
            (∃ model error, failure = .compile error ∧ load folder tree = .ok model ∧
              model.compile Salience.standardBase = .error error) ∨
            failure = .outputIsFolder ∧
              tree.kind? [FileName.ofText "rules.grl"] = some .folder)) ∧
      ∀ path, (generate folder tree).1 = .ok path →
        ∃ model schedule,
          load folder tree = .ok model ∧ model.compile Salience.standardBase = .ok schedule ∧
            (generate folder tree).2.kind? [FileName.ofText "rules.grl"] =
              some (.file schedule.grl.toUTF8) ∧
            (∀ other, other ≠ [FileName.ofText "rules.grl"] →
              (generate folder tree).2.kind? other = tree.kind? other) ∧
            generate folder (generate folder tree).2 = (.ok path, (generate folder tree).2) := by
  have run := run_generate folder tree
  generalize generate folder tree = outcome at run
  cases run with
  | unloadable loaded =>
      refine ⟨?_, by simp⟩
      rintro failure ⟨⟩
      exact ⟨rfl, Or.inl ⟨_, rfl, loaded⟩⟩
  | uncompilable loaded compiled =>
      refine ⟨?_, by simp⟩
      rintro failure ⟨⟩
      exact ⟨rfl, Or.inr (Or.inl ⟨_, _, rfl, loaded, compiled⟩)⟩
  | obstructed loaded compiled found =>
      refine ⟨?_, by simp⟩
      rintro failure ⟨⟩
      have isFolder : tree.kind? [FileName.ofText "rules.grl"] = some .folder :=
        congrArg (Option.map FileTree.kind) found
      exact ⟨rfl, Or.inr (Or.inr ⟨rfl, isFolder⟩)⟩
  | written loaded compiled writable =>
      refine ⟨by simp, ?_⟩
      rintro path ⟨⟩
      obtain ⟨entries, rfl⟩ := exists_folder_of_load loaded
      refine ⟨_, _, loaded, compiled, ?_, ?_, generate_again loaded compiled⟩
      · exact congrArg (Option.map FileTree.kind) (FileTree.find?_write_self _ _ _)
      · intro other different
        exact FileTree.kind?_write_of_ne writable different

/-- A model of one rule, beside what stands in the place of its source. -/
def priceFolder (present : FileTree) : FileTree :=
  .folder
    [(FileName.ofText "rules.json", .file "\x7b\"price\": \"2\"\x7d".toUTF8),
      (FileName.ofText "rules.grl", present),
      (FileName.ofText "parameters.json", .file "[]".toUTF8),
      (FileName.ofText "features.json", .file "[]".toUTF8)]

theorem ok_of_toOption {ε α : Type} {outcome : Except ε α} {value : α}
    (succeeded : outcome.toOption = some value) : outcome = .ok value := by
  cases outcome with
  | error failure => cases succeeded
  | ok other => exact congrArg Except.ok (Option.some.inj succeeded)

/-- An old source is replaced, and a folder in its place is kept. -/
theorem generate_all_or_nothing_price :
    (∃ after, generate "m" (priceFolder (.file "old".toUTF8)) = (.ok "m/rules.grl", after) ∧
        after.kind? [FileName.ofText "features.json"] = some (.file "[]".toUTF8) ∧
        generate "m" after = (.ok "m/rules.grl", after)) ∧
      generate "m" (priceFolder (.folder [])) =
        (.error .outputIsFolder, priceFolder (.folder [])) := by
  constructor
  · have succeeded :
        (generate "m" (priceFolder (.file "old".toUTF8))).1 = .ok "m/rules.grl" :=
      ok_of_toOption (by decide +kernel)
    obtain ⟨_, _, _, _, _, others, again⟩ :=
      (generate_all_or_nothing "m" (priceFolder (.file "old".toUTF8))).2 _ succeeded
    have different :
        [FileName.ofText "features.json"] ≠ [FileName.ofText "rules.grl"] := by
      decide +kernel
    have kept : (priceFolder (.file "old".toUTF8)).kind? [FileName.ofText "features.json"] =
        some (.file "[]".toUTF8) := by
      rfl
    exact ⟨_, Prod.ext succeeded rfl, (others _ different).trans kept, again⟩
  · have failed : (generate "m" (priceFolder (.folder []))).1 = .error .outputIsFolder := by
      have answer :
          (match (generate "m" (priceFolder (.folder []))).1 with
            | .error .outputIsFolder => true
            | _ => false) = true := by
        decide +kernel
      split at answer
      · assumption
      · cases answer
    obtain ⟨unchanged, _⟩ :=
      (generate_all_or_nothing "m" (priceFolder (.folder []))).1 _ failed
    exact Prod.ext failed unchanged

end ModelFolder

end FeatureRules
