import Docblock.FileSystem.Tree

/-!
# The PHP files under a root

A root is a file or a directory. The files below a directory are spelled with the root's own
spelling in front. The files of several roots make one sorted set.

The set is independent of the order in which the roots are given and of how often one is named, and
it holds exactly the PHP files at or below them (`Docblock.Proofs.FileSystem.Collected`). Links
between directories are not modelled, so a walk ends.
-/

namespace Docblock

/-- A root that leads to nothing. -/
structure WalkError where
  root : Text
deriving DecidableEq

/-- The text of an error. -/
def WalkError.message (e : WalkError) : Text := "failed to walk ".toList ++ e.root

namespace FileSystem

/-- The path of a location below a directory, with the directory's spelling in front. -/
def spell (root : Text) (location : Location) : Text := location.foldl Path.join root

/-- The PHP files of one root. -/
def phpFiles (fs : FileSystem) (root : Text) : Except WalkError (List Text) :=
  match fs.get? root with
  | none => .error ⟨root⟩
  | some (.file _) => .ok (if Path.isPhp root then [root] else [])
  | some (.directory entries) =>
    .ok ((((FileTree.entryFiles entries).map (spell root)).filter Path.isPhp).mergeSort Path.le)

/-- The PHP files of several roots, each once and in order. -/
def phpFilesOfRoots (fs : FileSystem) (roots : List Text) : Except WalkError (List Text) := do
  let files ← roots.mapM fs.phpFiles
  return Path.sortedSet files.flatten

end FileSystem

end Docblock
