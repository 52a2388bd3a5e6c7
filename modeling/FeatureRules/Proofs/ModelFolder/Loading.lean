import FeatureRules.Proofs.Declarations.Building
import FeatureRules.Proofs.ModelFolder.Generation

/-!
# What loading looks at

Loading a model folder looks at three files and at the group files, which are those in the folder
`groups` whose name is a text with the ending `.json` and something in front of it. Nothing else in
the folder counts, and neither does the order in which `groups` lists its entries: group files are
taken in the order of the bytes of their names.
-/

namespace FeatureRules

/-! ## Names of group files -/

namespace FileName

/-- The order of names is the lexicographic order of their bytes. -/
theorem le_iff {first second : FileName} : FileName.le first second = true ↔ first ≤ second := by
  fun_induction FileName.le first second with
  | case1 others => simp
  | case2 byte rest => simp
  | case3 byte rest other others inductionHypothesis =>
      rw [List.cons_le_cons_iff, ← inductionHypothesis]
      simp [UInt8.lt_iff_toNat_lt]

theorem ofText_append (first second : String) :
    ofText (first ++ second) = ofText first ++ ofText second := by
  simp [ofText]

theorem text?_eq_some_iff {name : FileName} {text : String} :
    name.text? = some text ↔ name = ofText text := by
  rw [text?, String.fromUTF8?]
  constructor
  · intro found
    split at found
    · cases found
      rfl
    · cases found
  · rintro rfl
    exact dif_pos text.isValidUTF8

end FileName

/-! ## Trees that list a name once -/

namespace FileTree

def ListsOnce (tree : FileTree) : Prop :=
  ∀ path child, tree.find? path = some child → (child.entries.map Prod.fst).Nodup

theorem listsOnce_file (content : ByteArray) : (file content).ListsOnce := by
  intro path child found
  cases path with
  | nil =>
      cases found
      exact List.nodup_nil
  | cons name rest =>
      rw [find?_file_cons] at found
      cases found

theorem listsOnce_folder_iff {present : List (FileName × FileTree)} :
    (folder present).ListsOnce ↔
      (present.map Prod.fst).Nodup ∧
        ∀ name child, present.lookup name = some child → child.ListsOnce := by
  constructor
  · intro once
    refine ⟨once [] _ rfl, ?_⟩
    intro name child listed path below found
    apply once (name :: path)
    rw [find?_cons, entries, listed]
    exact found
  · rintro ⟨distinct, children⟩ path child found
    cases path with
    | nil =>
        cases found
        exact distinct
    | cons name rest =>
        rw [find?_cons, entries] at found
        obtain ⟨next, listed, foundBelow⟩ := Option.bind_eq_some_iff.mp found
        exact children name next listed rest child foundBelow

theorem listsOnce_empty : (folder []).ListsOnce :=
  listsOnce_folder_iff.mpr ⟨List.nodup_nil, by simp⟩

theorem ListsOnce.put
    {content : FileTree} (contentOnce : content.ListsOnce) (path : List FileName) :
    ∀ {tree : FileTree}, tree.ListsOnce → (put content path tree).ListsOnce := by
  induction path with
  | nil =>
      intro tree _
      exact contentOnce
  | cons name rest inductionHypothesis =>
      intro tree once
      -- A file on the way is replaced by a folder, so `tree` has to be taken apart first.
      have entriesOnce : (folder tree.entries).ListsOnce := by
        cases tree with
        | file old => exact listsOnce_empty
        | folder present => exact once
      obtain ⟨distinct, children⟩ := listsOnce_folder_iff.mp entriesOnce
      refine listsOnce_folder_iff.mpr ⟨Entries.nodup_keys_insert name _ distinct, ?_⟩
      intro other child listed
      rw [Entries.lookup_insert] at listed
      split at listed
      · cases listed
        apply inductionHypothesis
        cases present : tree.entries.lookup name with
        | none => exact listsOnce_empty
        | some old => exact children name old present
      · exact children other child listed

/-- The tree that writing files one after the other makes. -/
def ofFiles (files : List (List FileName × ByteArray)) : FileTree :=
  files.foldl (fun tree entry => tree.write entry.2 entry.1) (folder [])

theorem listsOnce_ofFiles (files : List (List FileName × ByteArray)) :
    (ofFiles files).ListsOnce := by
  have run :
      ∀ tree : FileTree, tree.ListsOnce →
        (files.foldl (fun done entry => done.write entry.2 entry.1) tree).ListsOnce := by
    induction files with
    | nil =>
        intro tree once
        exact once
    | cons entry rest inductionHypothesis =>
        intro tree once
        exact inductionHypothesis _ ((listsOnce_file entry.2).put entry.1 once)
  exact run _ listsOnce_empty

def Kind.text? : Kind → Option String
  | .file content => String.fromUTF8? content
  | .folder => none

theorem readText?_eq (tree : FileTree) (path : List FileName) :
    tree.readText? path = (tree.kind? path).bind Kind.text? := by
  rw [readText?, kind?]
  cases tree.find? path with
  | none => rfl
  | some child => cases child <;> rfl

def Kind.isFile : Kind → Bool
  | .file _ => true
  | .folder => false

theorem isFile_eq (tree : FileTree) (path : List FileName) :
    tree.isFile path = (tree.kind? path).any Kind.isFile := by
  rw [isFile, kind?]
  cases tree.find? path with
  | none => rfl
  | some child => cases child <;> rfl

end FileTree

namespace ModelFolder

def groupFileName (group : String) : FileName :=
  FileName.ofText (group ++ ".json")

/-- A name is that of the file of some group. -/
def IsGroupFile (name : FileName) : Prop :=
  ∃ group, group ≠ "" ∧ name = groupFileName group

theorem stem?_eq_some_iff {name stem : FileName} :
    stem? name = some stem ↔ stem ≠ [] ∧ name = stem ++ FileName.ofText ".json" := by
  have unfolded :
      stem? name =
        if (FileName.ofText ".json").isSuffixOf name &&
            decide ((FileName.ofText ".json").length < name.length) then
          some (name.take (name.length - (FileName.ofText ".json").length))
        else none := rfl
  rw [unfolded]
  generalize FileName.ofText ".json" = ending
  rw [Option.ite_none_right_eq_some, Bool.and_eq_true, List.isSuffixOf_iff_suffix,
    decide_eq_true_eq]
  constructor
  · rintro ⟨⟨⟨front, rfl⟩, longer⟩, taken⟩
    have isFront : front = stem := by simpa using taken
    subst isFront
    refine ⟨?_, rfl⟩
    rintro rfl
    simp at longer
  · rintro ⟨nonempty, rfl⟩
    have positive : 0 < stem.length := List.length_pos_iff.mpr nonempty
    refine ⟨⟨List.suffix_append stem ending, ?_⟩, by simp⟩
    rw [List.length_append]
    omega

theorem groupName?_eq_some_iff {name : FileName} {group : String} :
    groupName? name = some group ↔ group ≠ "" ∧ name = groupFileName group := by
  rw [groupName?, Option.bind_eq_some_iff]
  simp only [stem?_eq_some_iff, FileName.text?_eq_some_iff, groupFileName, FileName.ofText_append]
  constructor
  · rintro ⟨stem, ⟨nonempty, rfl⟩, rfl⟩
    refine ⟨?_, rfl⟩
    rintro rfl
    exact nonempty rfl
  · rintro ⟨nonempty, rfl⟩
    refine ⟨_, ⟨?_, rfl⟩, rfl⟩
    intro empty
    exact nonempty (FileName.ofText_injective empty)

theorem isSome_groupName?_iff {name : FileName} :
    (groupName? name).isSome ↔ IsGroupFile name := by
  simp only [Option.isSome_iff_exists, groupName?_eq_some_iff, IsGroupFile]

/-! ## Group files in order -/

def groupEntries (tree : FileTree) : List (FileName × FileTree) :=
  match tree.find? [FileName.ofText "groups"] with
  | some child => child.entries
  | none => []

def sortedEntries (tree : FileTree) : List (FileName × FileTree) :=
  (groupEntries tree).mergeSort fun first second => FileName.le first.1 second.1

/-- The group files with what they are, in the order in which they are read. -/
def groupListing (tree : FileTree) : List (FileName × FileTree.Kind) :=
  ((sortedEntries tree).filter fun entry => (groupName? entry.1).isSome).map fun entry =>
    (entry.1, entry.2.kind)

variable {folder : String} {tree first second : FileTree}

theorem kind?_group (tree : FileTree) (name : FileName) :
    tree.kind? [FileName.ofText "groups", name] =
      ((groupEntries tree).lookup name).map FileTree.kind := by
  rw [FileTree.kind?, groupEntries, FileTree.find?_cons, FileTree.find?_cons]
  cases tree.entries.lookup (FileName.ofText "groups") with
  | none => rfl
  | some child =>
      change (child.find? [name]).map FileTree.kind = (child.entries.lookup name).map FileTree.kind
      rw [FileTree.find?_cons]
      cases child.entries.lookup name <;> rfl

theorem nodup_groupEntries (once : tree.ListsOnce) :
    ((groupEntries tree).map Prod.fst).Nodup := by
  rw [groupEntries]
  split
  · rename_i child found
    exact once _ child found
  · exact List.nodup_nil

theorem groupFiles_eq (tree : FileTree) :
    groupFiles tree =
      (sortedEntries tree).filterMap fun entry =>
        (groupName? entry.1).map fun group => (group, entry.2) := by
  rw [groupFiles, sortedEntries, groupEntries]
  cases tree.find? [FileName.ofText "groups"] with
  | none => simp
  | some child =>
      cases child with
      | file content => simp [FileTree.entries]
      | folder present => rfl

theorem groupFiles_kinds (tree : FileTree) :
    (groupFiles tree).map (fun entry => (entry.1, entry.2.kind)) =
      (groupListing tree).filterMap fun entry =>
        (groupName? entry.1).map fun group => (group, entry.2) := by
  rw [groupFiles_eq, groupListing, List.map_filterMap, List.filterMap_map, List.filterMap_filter]
  apply List.filterMap_congr
  intro entry _
  cases named : groupName? entry.1 <;> simp [named]

theorem mem_groupListing_iff (once : tree.ListsOnce) {name : FileName} {kind : FileTree.Kind} :
    (name, kind) ∈ groupListing tree ↔
      IsGroupFile name ∧ tree.kind? [FileName.ofText "groups", name] = some kind := by
  rw [kind?_group, Option.map_eq_some_iff]
  simp only [groupListing, sortedEntries, List.mem_map, List.mem_filter, List.mem_mergeSort,
    isSome_groupName?_iff, lookup_eq_some_iff_mem (nodup_groupEntries once), Prod.exists,
    Prod.mk.injEq]
  constructor
  · rintro ⟨_, content, ⟨member, isGroup⟩, rfl, isKind⟩
    exact ⟨isGroup, content, member, isKind⟩
  · rintro ⟨isGroup, content, member, isKind⟩
    exact ⟨name, content, ⟨member, isGroup⟩, rfl, isKind⟩

theorem sortedEntries_increasing (once : tree.ListsOnce) :
    (sortedEntries tree).Pairwise fun earlier later => earlier.1 < later.1 := by
  have sorted :
      (sortedEntries tree).Pairwise fun earlier later =>
        FileName.le earlier.1 later.1 = true := by
    apply List.pairwise_mergeSort
    · intro one two three
      simp only [FileName.le_iff]
      exact List.le_trans
    · intro one two
      rw [Bool.or_eq_true, FileName.le_iff, FileName.le_iff]
      exact List.le_total one.1 two.1
  have distinct : (sortedEntries tree).Pairwise fun earlier later => earlier.1 ≠ later.1 := by
    apply List.pairwise_map.mp
    exact ((List.mergeSort_perm _ _).map Prod.fst).nodup_iff.mpr (nodup_groupEntries once)
  apply (sorted.and distinct).imp
  rintro earlier later ⟨atMost, different⟩
  exact Std.lt_iff_le_and_ne.mpr ⟨FileName.le_iff.mp atMost, different⟩

/-- Group files are listed in the order of bytes, each once. -/
theorem groupListing_increasing (once : tree.ListsOnce) :
    (groupListing tree).Pairwise fun earlier later => earlier.1 < later.1 := by
  rw [groupListing, List.pairwise_map]
  exact (sortedEntries_increasing once).filter _

/-! ## Reading group files -/

theorem readGroup_congr
    (group : String) {content other : FileTree} (same : content.kind = other.kind) :
    readGroup folder group content = readGroup folder group other := by
  have sameText : content.readText? [] = other.readText? [] := by
    rw [FileTree.readText?_eq, FileTree.readText?_eq]
    exact congrArg FileTree.Kind.text? same
  rw [readGroup, readGroup, sameText]

theorem readGroups_congr
    {files others : List (String × FileTree)}
    (same : files.map (fun entry => (entry.1, entry.2.kind)) =
      others.map fun entry => (entry.1, entry.2.kind)) :
    readGroups folder files = readGroups folder others := by
  induction files generalizing others with
  | nil => rw [List.map_eq_nil_iff.mp same.symm]
  | cons entry rest inductionHypothesis =>
      cases others with
      | nil => cases same
      | cons other later =>
          obtain ⟨group, content⟩ := entry
          obtain ⟨otherGroup, otherContent⟩ := other
          simp only [List.map_cons, List.cons.injEq, Prod.mk.injEq] at same
          obtain ⟨⟨rfl, sameKind⟩, sameLater⟩ := same
          rw [readGroups, readGroups, readGroup_congr group sameKind,
            inductionHypothesis sameLater]

theorem names_of_readGroups
    {files : List (String × FileTree)} {groups : List Group}
    (read : readGroups folder files = .ok groups) :
    groups.map Group.name = files.map Prod.fst := by
  induction files generalizing groups with
  | nil =>
      cases read
      rfl
  | cons entry rest inductionHypothesis =>
      obtain ⟨group, readFirst, others⟩ := exists_of_bind_eq_ok read
      obtain ⟨later, readLater, finished⟩ := exists_of_bind_eq_ok others
      obtain ⟨fields, _, made⟩ := exists_of_bind_eq_ok readFirst
      cases finished
      cases made
      rw [List.map_cons, List.map_cons, inductionHypothesis readLater]

/-! ## Loading -/

/-- Two trees have the same model files, whatever else they hold and however they list it. -/
structure SameModelFiles (first second : FileTree) : Prop where
  rules : first.kind? [FileName.ofText "rules.json"] = second.kind? [FileName.ofText "rules.json"]
  parameters :
    first.kind? [FileName.ofText "parameters.json"] =
      second.kind? [FileName.ofText "parameters.json"]
  features :
    first.kind? [FileName.ofText "features.json"] = second.kind? [FileName.ofText "features.json"]
  groups : ∀ name, IsGroupFile name →
    first.kind? [FileName.ofText "groups", name] = second.kind? [FileName.ofText "groups", name]

theorem SameModelFiles.groupListing_eq
    (same : SameModelFiles first second) (firstOnce : first.ListsOnce)
    (secondOnce : second.ListsOnce) : groupListing first = groupListing second := by
  have nodup {one : FileTree} (once : one.ListsOnce) : (groupListing one).Nodup := by
    apply (groupListing_increasing once).imp
    rintro earlier _ before rfl
    exact List.lt_irrefl earlier.1 before
  -- Both are strictly increasing, so it is enough that they have the same members.
  apply List.Perm.eq_of_pairwise _ (groupListing_increasing firstOnce)
    (groupListing_increasing secondOnce)
  · apply (List.perm_ext_iff_of_nodup (nodup firstOnce) (nodup secondOnce)).mpr
    rintro ⟨name, kind⟩
    rw [mem_groupListing_iff firstOnce, mem_groupListing_iff secondOnce]
    apply and_congr_right
    intro isGroup
    rw [same.groups name isGroup]
  · intro one two _ _ before after
    exact absurd after (List.lt_asymm before)

theorem readPart_congr
    {α : Type} (decode : Document → Except DecodeError α) {name : String}
    (same : first.kind? [FileName.ofText name] = second.kind? [FileName.ofText name]) :
    readPart decode folder name first = readPart decode folder name second := by
  rw [readPart, readPart, FileTree.readText?_eq, FileTree.readText?_eq, same]

theorem SameModelFiles.load_eq
    (same : SameModelFiles first second) (firstOnce : first.ListsOnce)
    (secondOnce : second.ListsOnce) : load folder first = load folder second := by
  have groups : readGroups folder (groupFiles first) = readGroups folder (groupFiles second) := by
    apply readGroups_congr
    rw [groupFiles_kinds, groupFiles_kinds, same.groupListing_eq firstOnce secondOnce]
  simp only [load, declarations, FileTree.isFile_eq, same.rules, readPart_congr _ same.rules,
    readPart_congr _ same.parameters, readPart_congr _ same.features, groups]

theorem exists_declarations_of_load {model : Model} (loaded : load folder tree = .ok model) :
    ∃ sheet : Declarations,
      readGroups folder (groupFiles tree) = .ok sheet.groups ∧ sheet.build = .ok model := by
  obtain ⟨sheet, declared, rest⟩ := exists_of_bind_eq_ok loaded
  have built : sheet.build = .ok model := by
    cases outcome : sheet.build with
    | error failure =>
        rw [outcome] at rest
        cases rest
    | ok other =>
        rw [outcome] at rest
        cases rest
        rfl
  rw [declarations] at declared
  split at declared
  · cases declared
  · obtain ⟨rules, _, declared⟩ := exists_of_bind_eq_ok declared
    obtain ⟨parameters, _, declared⟩ := exists_of_bind_eq_ok declared
    obtain ⟨features, _, declared⟩ := exists_of_bind_eq_ok declared
    obtain ⟨groups, read, finished⟩ := exists_of_bind_eq_ok declared
    cases finished
    exact ⟨_, read, built⟩

/-- The groups of a loaded model are those of the group files, in the same order. -/
theorem groupFileNames_of_load {model : Model} (loaded : load folder tree = .ok model) :
    model.groups.map (fun group => groupFileName group.name) =
      (groupListing tree).map Prod.fst := by
  obtain ⟨sheet, read, built⟩ := exists_declarations_of_load loaded
  rw [Declarations.groups_of_build built]
  have names : sheet.groups.map Group.name =
      (groupListing tree).filterMap fun entry => groupName? entry.1 := by
    have kept := congrArg (List.map Prod.fst) (groupFiles_kinds tree)
    rw [List.map_map, List.map_filterMap] at kept
    rw [names_of_readGroups read]
    refine kept.trans (List.filterMap_congr ?_)
    intro entry _
    cases groupName? entry.1 <;> rfl
  have listed : ∀ entry ∈ groupListing tree,
      (groupName? entry.1).map groupFileName = some entry.1 := by
    intro entry member
    obtain ⟨origin, isListed, rfl⟩ := List.mem_map.mp member
    obtain ⟨group, named⟩ := Option.isSome_iff_exists.mp (List.mem_filter.mp isListed).2
    change (groupName? origin.1).map groupFileName = some origin.1
    rw [named, Option.map_some, (groupName?_eq_some_iff.mp named).2]
  calc
    sheet.groups.map (fun group => groupFileName group.name)
    _ = (sheet.groups.map Group.name).map groupFileName := by rw [List.map_map]; rfl
    _ = (groupListing tree).filterMap fun entry => (groupName? entry.1).map groupFileName := by
      rw [names, List.map_filterMap]
    _ = (groupListing tree).filterMap fun entry => some entry.1 := List.filterMap_congr listed
    _ = (groupListing tree).map Prod.fst :=
      congrFun List.filterMap_eq_map _

/-- Trees with the same model files load alike, to the same model or the same failure. The groups of
a loaded model are those that have a file, in the order of the bytes of the names of these files. -/
theorem load_depends_on_model_files
    (folder : String) (first second : FileTree) (firstOnce : first.ListsOnce)
    (secondOnce : second.ListsOnce) (same : SameModelFiles first second) :
    load folder first = load folder second ∧
      ∀ model, load folder first = .ok model →
        (model.groups.map fun group => groupFileName group.name).Pairwise (· < ·) ∧
          ∀ name, name ∈ model.groups.map (fun group => groupFileName group.name) ↔
            IsGroupFile name ∧ first.kind? [FileName.ofText "groups", name] ≠ none := by
  refine ⟨same.load_eq firstOnce secondOnce, ?_⟩
  intro model loaded
  rw [groupFileNames_of_load loaded]
  refine ⟨List.pairwise_map.mpr (groupListing_increasing firstOnce), ?_⟩
  intro name
  simp only [List.mem_map, Prod.exists, exists_and_right, exists_eq_right,
    mem_groupListing_iff firstOnce, exists_and_left, ← Option.ne_none_iff_exists']

/-- The files of a model without rules of its own, with the files in its folder of groups. -/
def ageFiles (groups : List (FileName × String)) : List (List FileName × ByteArray) :=
  ([("rules.json", "\x7b\x7d"),
      ("parameters.json", "[\x7b\"name\": \"age\", \"type\": \"integer\"\x7d]"),
      ("features.json", "[]")].map fun entry => ([FileName.ofText entry.1], entry.2.toUTF8)) ++
    groups.map fun entry => ([FileName.ofText "groups", entry.1], entry.2.toUTF8)

def alphaFile : FileName × String :=
  (FileName.ofText "alpha.json", "\x7b\"\x7b$age\x7d\": [\"18\"]\x7d")

def zetaFile : FileName × String :=
  (FileName.ofText "zeta.json", "\x7b\"\x7b$age\x7d\": [\"1\"]\x7d")

-- A name that is no text, and one with another ending.
def bytesFile : FileName × String :=
  (0xFF :: FileName.ofText ".json", "no group")

def notesFile : FileName × String :=
  (FileName.ofText "notes.txt", "no group")

def sortedAges : FileTree :=
  .ofFiles (ageFiles [alphaFile, zetaFile, bytesFile])

def reversedAges : FileTree :=
  .ofFiles (ageFiles [zetaFile, notesFile, alphaFile])

theorem sameModelFiles_ages : SameModelFiles sortedAges reversedAges where
  rules := rfl
  parameters := rfl
  features := rfl
  groups := by
    intro name isGroup
    have named := isSome_groupName?_iff.mpr isGroup
    have notBytes : name ≠ bytesFile.1 := by
      rintro rfl
      revert named
      decide +kernel
    have notNotes : name ≠ notesFile.1 := by
      rintro rfl
      revert named
      decide +kernel
    have different : zetaFile.1 ≠ alphaFile.1 := by decide +kernel
    have entriesSorted : groupEntries sortedAges =
        [alphaFile, zetaFile, bytesFile].map fun entry => (entry.1, .file entry.2.toUTF8) := rfl
    have entriesReversed : groupEntries reversedAges =
        [zetaFile, notesFile, alphaFile].map fun entry => (entry.1, .file entry.2.toUTF8) := rfl
    rw [kind?_group, kind?_group, entriesSorted, entriesReversed]
    simp only [List.map_cons, List.map_nil, List.lookup_cons, beq_eq_false_iff_ne.mpr notBytes,
      beq_eq_false_iff_ne.mpr notNotes]
    by_cases isZeta : name = zetaFile.1
    · subst isZeta
      simp [beq_eq_false_iff_ne.mpr different]
    · simp [beq_eq_false_iff_ne.mpr isZeta]

-- Sorting does not reduce, but here it has nothing to do.
theorem groupFiles_sortedAges :
    groupFiles sortedAges =
      [("alpha", .file alphaFile.2.toUTF8), ("zeta", .file zetaFile.2.toUTF8)] := by
  rw [groupFiles_eq, sortedEntries, List.mergeSort_of_pairwise (by decide +kernel)]
  rfl

/-- Two trees whose folder of groups holds different files in different orders. -/
theorem load_depends_on_model_files_ages :
    sortedAges.ListsOnce ∧ reversedAges.ListsOnce ∧ SameModelFiles sortedAges reversedAges ∧
      load "m" sortedAges = load "m" reversedAges ∧
      ∃ model, load "m" reversedAges = .ok model ∧
        model.groups.map Group.name = ["alpha", "zeta"] := by
  have sortedOnce : sortedAges.ListsOnce := FileTree.listsOnce_ofFiles _
  have reversedOnce : reversedAges.ListsOnce := FileTree.listsOnce_ofFiles _
  obtain ⟨alike, _⟩ :=
    load_depends_on_model_files "m" sortedAges reversedAges sortedOnce reversedOnce
      sameModelFiles_ages
  refine ⟨sortedOnce, reversedOnce, sameModelFiles_ages, alike, ?_⟩
  have names : (load "m" sortedAges).toOption.map (fun model => model.groups.map Group.name) =
      some ["alpha", "zeta"] := by
    rw [load, declarations, groupFiles_sortedAges]
    decide +kernel
  obtain ⟨model, loaded, isNames⟩ := Option.map_eq_some_iff.mp names
  exact ⟨model, alike.symm.trans (ok_of_toOption loaded), isNames⟩

end ModelFolder

end FeatureRules
