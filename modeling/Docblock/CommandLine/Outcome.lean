import Docblock.FileSystem.Tree

/-!
# The outcome of a command

What a run leaves behind: an exit code, two streams of output, and new texts of files.

The outcome is a value. Nothing is written while a command runs; the files it wants written are
listed here, and `Outcome.apply` is the file system with them in it. So the modes of a run can be
compared by their outcomes, as `Docblock.Proofs.CommandLine.Modes` does. That a file cannot be
written is not modelled.
-/

namespace Docblock.CommandLine

/-- What a command leaves behind. -/
structure Outcome where
  code : Nat := 0
  stdout : Text := []
  stderr : Text := []
  /-- The files that were written, by their paths. -/
  written : List (Text × Text) := []
deriving DecidableEq

namespace Outcome

/-- The outcome of a command that could not do its work. -/
def failure (message : Text) : Outcome :=
  { code := 1, stderr := "Error: ".toList ++ message ++ ['\n'] }

/-- The outcome of a command that was called with other arguments than it takes. -/
def misuse (usage : Text) : Outcome :=
  { code := 2, stderr := "Usage: ".toList ++ usage ++ ['\n'] }

/-- The file system with the files that were written. -/
def apply (r : Outcome) (fs : FileSystem) : FileSystem :=
  r.written.foldl (fun fs (path, text) => fs.writeText path text) fs

end Outcome

/-- Lines of output, each with a line feed at its end. -/
def outputLines (lines : List Text) : Text := lines.flatMap (· ++ ['\n'])

end Docblock.CommandLine
