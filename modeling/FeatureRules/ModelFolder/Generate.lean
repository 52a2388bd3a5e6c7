import FeatureRules.Compilation
import FeatureRules.Grl
import FeatureRules.ModelFolder.Load

/-!
# Generating rule source

The model in a folder is compiled, and its rule source written beside it.
-/

namespace FeatureRules

inductive GenerateError where
  | load (error : LoadError)
  | compile (error : CompileError)
  /-- There is a folder where the rule source should be written. -/
  | outputIsFolder
deriving Repr

def GenerateError.message : GenerateError → String
  | load error => error.message
  | compile error => error.message
  | outputIsFolder => "Is a directory (os error 21)"

namespace ModelFolder

def outputName : String :=
  "rules.grl"

def source (folder : String) (tree : FileTree) : Except GenerateError String :=
  match load folder tree with
  | .error error => .error (.load error)
  | .ok model =>
      match model.compile Salience.standardBase with
      | .error error => .error (.compile error)
      | .ok schedule => .ok schedule.grl

/-- Write the rule source of the model in a folder. The result is the path of the file, and the folder
as it is left. -/
def generate (folder : String) (tree : FileTree) : Except GenerateError String × FileTree :=
  match source folder tree with
  | .error error => (.error error, tree)
  | .ok text =>
      match tree.find? [FileName.ofText outputName] with
      | some (.folder _) => (.error .outputIsFolder, tree)
      | _ =>
          (.ok (pathIn folder outputName),
            tree.write text.toUTF8 [FileName.ofText outputName])

end ModelFolder

end FeatureRules
