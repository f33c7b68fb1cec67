import Docblock.Path

/-!
# Files

A file tree is a file with its bytes, or a directory with its entries. A file system is a tree with
a place to start from: relative paths begin at the working directory.

`Docblock.Proofs.FileSystem.Tree` has the laws of trees whose directories name their entries apart,
`Docblock.Proofs.FileSystem.Locations` those of paths that lead to places, and
`Docblock.Proofs.FileSystem.Writing` what writing a file changes: that file, and nothing else.
Rights and links are not modelled.
-/

namespace Docblock

/-- A file, or a directory with named entries. -/
inductive FileTree where
  | file (content : ByteArray)
  | directory (entries : List (Text × FileTree))

namespace FileTree

/-- The entries of a directory; a file has none. -/
def entries : FileTree → List (Text × FileTree)
  | .file _ => []
  | .directory entries => entries

/-- What a location leads to. -/
def get? (tree : FileTree) : Location → Option FileTree
  | [] => some tree
  | name :: rest => (tree.entries.lookup name).bind (·.get? rest)

/-- Entries with one of them replaced, or with a new one at the end. -/
def setEntry (name : Text) (tree : FileTree) : List (Text × FileTree) → List (Text × FileTree)
  | [] => [(name, tree)]
  | (other, old) :: rest =>
    if other = name then (name, tree) :: rest else (other, old) :: setEntry name tree rest

/-- The tree with another tree at a location; directories on the way are made where they are
missing. -/
def insert (tree : FileTree) : Location → FileTree → FileTree
  | [], new => new
  | name :: rest, new =>
    let child := (tree.entries.lookup name).getD (.directory [])
    .directory (setEntry name (child.insert rest new) tree.entries)

mutual

/-- The locations of the files of a tree, from the tree on. -/
def files : FileTree → List Location
  | .file _ => [[]]
  | .directory entries => entryFiles entries

/-- The locations of the files of several entries. -/
def entryFiles : List (Text × FileTree) → List Location
  | [] => []
  | (name, tree) :: rest => (files tree).map (name :: ·) ++ entryFiles rest

end

mutual

/-- The locations of all entries below a tree, from the tree on. -/
def descendants : FileTree → List Location
  | .file _ => []
  | .directory entries => entryDescendants entries

/-- The locations of several entries and of all below them. -/
def entryDescendants : List (Text × FileTree) → List Location
  | [] => []
  | (name, tree) :: rest => [name] :: (descendants tree).map (name :: ·) ++ entryDescendants rest

end

end FileTree

/-- A tree that begins at the root, and the directory where relative paths begin. -/
structure FileSystem where
  tree : FileTree
  working : Location

namespace FileSystem

/-- What stands at a location. -/
def at? (fs : FileSystem) (location : Location) : Option FileTree := fs.tree.get? location

/-- Where one piece of a path leads. It has to stand in a directory. -/
def enter? (fs : FileSystem) (location : Location) (piece : Text) : Option Location :=
  match fs.at? location with
  | some (.directory entries) =>
    if piece = [] || piece = ['.'] then some location
    else if piece = ['.', '.'] then some location.dropLast
    else if (entries.lookup piece).isSome then some (location ++ [piece])
    else none
  | _ => none

/-- The location that a path leads to, if there is something. -/
def resolve? (fs : FileSystem) (path : Text) : Option Location :=
  match path with
  | [] => none
  | '/' :: rest => (rest.splitOn '/').foldlM fs.enter? []
  | _ => (path.splitOn '/').foldlM fs.enter? fs.working

/-- What a path leads to. -/
def get? (fs : FileSystem) (path : Text) : Option FileTree := (fs.resolve? path).bind fs.at?

/-- Whether a path leads to a file. -/
def isFile (fs : FileSystem) (path : Text) : Bool :=
  match fs.get? path with
  | some (.file _) => true
  | _ => false

/-- The text of the file that a path leads to, if it is a file and holds UTF-8. -/
def readText? (fs : FileSystem) (path : Text) : Option Text :=
  match fs.get? path with
  | some (.file content) => (String.fromUTF8? content).map String.toList
  | _ => none

/-- The file system with another text in the file that a path leads to. -/
def writeText (fs : FileSystem) (path text : Text) : FileSystem :=
  match fs.resolve? path with
  | some location => { fs with tree := fs.tree.insert location (.file (String.ofList text).toUTF8) }
  | none => fs

end FileSystem

end Docblock
