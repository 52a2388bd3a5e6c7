import FeatureRules.Entries

/-!
# File trees

Files and folders as values. Names are any bytes, and a folder lists its entries in the order in
which they were made.
-/

namespace FeatureRules

abbrev FileName := List UInt8

def FileName.ofText (text : String) : FileName :=
  text.toUTF8.data.toList

def FileName.text? (name : FileName) : Option String :=
  String.fromUTF8? ⟨name.toArray⟩

def FileName.le : FileName → FileName → Bool
  | [], _ => true
  | _ :: _, [] => false
  | first :: rest, other :: others =>
      decide (first.toNat < other.toNat) || (first == other && le rest others)

/-- A file, or a folder of files and folders. -/
inductive FileTree where
  | file (content : ByteArray)
  | folder (entries : List (FileName × FileTree))
deriving Inhabited

namespace FileTree

def entries : FileTree → List (FileName × FileTree)
  | file _ => []
  | folder entries => entries

def find? (tree : FileTree) : List FileName → Option FileTree
  | [] => some tree
  | name :: rest =>
      match tree.entries.lookup name with
      | some child => child.find? rest
      | none => none

def isFile (tree : FileTree) (path : List FileName) : Bool :=
  match tree.find? path with
  | some (file _) => true
  | _ => false

def readText? (tree : FileTree) (path : List FileName) : Option String :=
  match tree.find? path with
  | some (file content) => String.fromUTF8? content
  | _ => none

/-- Put a tree at the end of a path, in place of what stands there. Folders on the way are made. -/
def put (content : FileTree) (path : List FileName) (tree : FileTree) : FileTree :=
  match path with
  | [] => content
  | name :: rest =>
      let child := (tree.entries.lookup name).getD (folder [])
      folder (Entries.insert name (put content rest child) tree.entries)

def write (content : ByteArray) (path : List FileName) (tree : FileTree) : FileTree :=
  put (file content) path tree

/-- Make a folder unless something stands there. -/
def makeFolder (path : List FileName) (tree : FileTree) : FileTree :=
  match tree.find? path with
  | some _ => tree
  | none => put (folder []) path tree

/-- Remove what stands at the end of a path. Without a path, everything is removed. -/
def remove (path : List FileName) (tree : FileTree) : FileTree :=
  match path, tree with
  | [], _ => folder []
  | _ :: _, file content => file content
  | [name], folder entries => folder (entries.filter fun entry => entry.1 != name)
  | name :: next :: rest, folder entries =>
      match entries.lookup name with
      | some child => folder (Entries.insert name (remove (next :: rest) child) entries)
      | none => folder entries

end FileTree

/-- The names along a written path. Empty names and single points lead nowhere. -/
def FileName.path (bytes : List UInt8) : List FileName :=
  let separator := '/'.toNat.toUInt8
  let point := '.'.toNat.toUInt8
  (bytes.splitOn separator).filter fun name => !name.isEmpty && name != [point]

end FeatureRules
