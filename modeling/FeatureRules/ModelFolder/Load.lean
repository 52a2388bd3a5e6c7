import FeatureRules.Declarations
import FeatureRules.FileTree

/-!
# Loading a model folder

A model folder holds `rules.json`, `parameters.json` and `features.json`, and one file for each group
in the folder `groups`. Loading depends on these files only, and not on the order in which folders
list them.
-/

namespace FeatureRules

inductive LoadError where
  /-- A file is missing, is a folder, or is no text. -/
  | unreadable (path : String)
  | notJson (path : String)
  | missingRules (folder : String)
  | model (error : ModelError)
deriving Repr

def LoadError.message : LoadError → String
  | unreadable path => "failed to read '" ++ path ++ "'"
  | notJson path => "invalid JSON in '" ++ path ++ "'"
  | missingRules folder => "no rules.json in '" ++ folder ++ "'"
  | model error => error.message

namespace ModelFolder

/-- The path of a name in a folder. A separator is added only where one is needed. -/
def pathIn (folder name : String) : String :=
  match folder.toList.getLast? with
  | none | some '/' => folder ++ name
  | some _ => folder ++ "/" ++ name

/-- Read a file of a folder. The path is that of the file as messages show it. -/
def readFile {α : Type} (decode : Document → Except DecodeError α) (path : String)
    (text? : Option String) : Except LoadError α :=
  match text? with
  | none => .error (.unreadable path)
  | some text =>
      match Document.decodeText decode text with
      | .ok value => .ok value
      | .error _ => .error (.notJson path)

def decodeFields (document : Document) : Except DecodeError (List (String × Json)) := do
  match ← document.decodeJson with
  | .object fields => return fields
  | _ => .error .malformed

/-- The stem of the name of a group file, which is not empty. -/
def stem? (name : FileName) : Option FileName :=
  let ending := FileName.ofText ".json"
  if ending.isSuffixOf name && ending.length < name.length then
    some (name.take (name.length - ending.length))
  else none

/-- The group that a file is about, by its name. -/
def groupName? (name : FileName) : Option String :=
  (stem? name).bind FileName.text?

/-- The group files of a folder with the names of their groups, in the order of their file names. -/
def groupFiles (tree : FileTree) : List (String × FileTree) :=
  match tree.find? [FileName.ofText "groups"] with
  | some (.folder entries) =>
      let sorted := entries.mergeSort fun first second => FileName.le first.1 second.1
      sorted.filterMap fun (name, content) => (groupName? name).map fun group => (group, content)
  | _ => []

/-- Read a group from its file: templates with their entries. -/
def readGroup (folder : String) (group : String) (content : FileTree) :
    Except LoadError Group := do
  let path := pathIn (pathIn folder "groups") (group ++ ".json")
  let fields ← readFile decodeFields path (content.readText? [])
  return {
    name := group
    members := fields.map fun (template, entries) => { template, entries } }

def readGroups (folder : String) : List (String × FileTree) → Except LoadError (List Group)
  | [] => .ok []
  | (group, content) :: rest => do
      let first ← readGroup folder group content
      let later ← readGroups folder rest
      return first :: later

def readPart {α : Type} (decode : Document → Except DecodeError α) (folder name : String)
    (tree : FileTree) : Except LoadError α :=
  readFile decode (pathIn folder name) (tree.readText? [FileName.ofText name])

def declarations (folder : String) (tree : FileTree) : Except LoadError Declarations := do
  if !tree.isFile [FileName.ofText "rules.json"] then .error (.missingRules folder)
  else
    let rules ← readPart decodeFields folder "rules.json" tree
    let parameters ←
      readPart (Document.decodeArray Parameter.decode) folder "parameters.json" tree
    let features ← readPart (Document.decodeArray Feature.decode) folder "features.json" tree
    let groups ← readGroups folder (groupFiles tree)
    return { features, parameters, rules, groups }

def load (folder : String) (tree : FileTree) : Except LoadError Model := do
  let declarations ← declarations folder tree
  match declarations.build with
  | .ok model => return model
  | .error error => .error (.model error)

end ModelFolder

end FeatureRules
