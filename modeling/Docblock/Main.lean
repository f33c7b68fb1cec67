import Docblock.CommandLine.Dump
import Docblock.CommandLine.Run

/-!
# The command

Standard input lists the files that the command may see, one path a line, as `find` prints them.
They are read into a file system, the command runs on it, and then its output is printed and its
files are written.

This is the only module that acts. All that the theorems speak of is in `Docblock.Main.outcome` and
below it: the outcome is a function of the file system, the time and the arguments.
-/

namespace Docblock.Main

/-- The names that lead to a path. -/
def namesOf (path : String) : Location :=
  (path.toList.splitOn '/').filter fun piece => !piece.isEmpty && piece != ['.']

/-- The location of a path, which may begin at the working directory. -/
def locationOf (working : Location) (path : String) : Location :=
  if path.toList.head? = some '/' then namesOf path else working ++ namesOf path

/-- The tree with one more of the listed paths in it. -/
def addPath (working : Location) (tree : FileTree) (path : String) : IO FileTree := do
  let location := locationOf working path
  try
    let content ← IO.FS.readBinFile path
    return tree.insert location (.file content)
  catch _ =>
    return if (tree.get? location).isSome then tree else tree.insert location (.directory [])

/-- The lines of standard input. -/
partial def readLines (input : IO.FS.Stream) (lines : List String) : IO (List String) := do
  let line ← input.getLine
  if line.isEmpty then return lines.reverse
  readLines input (String.ofList (Text.dropEndWhile (· == '\n') line.toList) :: lines)

/-- A number of milliseconds in seconds, with the given number of places of its three. -/
def seconds (milliseconds places : Nat) : Text :=
  let fraction := Text.ofNat (milliseconds % 1000)
  Text.ofNat (milliseconds / 1000) ++ '.' ::
    (List.replicate (3 - fraction.length) '0' ++ fraction).take places

/-- The outcome for the given arguments. -/
def outcome (fs : FileSystem) (milliseconds : Nat) (arguments : List Text) :
    CommandLine.Outcome :=
  match arguments with
  | first :: rest =>
    if first = "dump-types".toList then CommandLine.dump fs rest
    else CommandLine.run fs ⟨seconds milliseconds 2, seconds milliseconds 3⟩ arguments
  | [] => CommandLine.run fs ⟨seconds milliseconds 2, seconds milliseconds 3⟩ []

end Docblock.Main

/-- Runs the command on the files that standard input lists. -/
def main (arguments : List String) : IO UInt32 := do
  let start ← IO.monoMsNow
  let working := Docblock.Main.namesOf (toString (← IO.currentDir))
  let paths ← Docblock.Main.readLines (← IO.getStdin) []
  let empty := (Docblock.FileTree.directory []).insert working (.directory [])
  let tree ← paths.foldlM (Docblock.Main.addPath working) empty
  let elapsed := (← IO.monoMsNow) - start
  let outcome := Docblock.Main.outcome ⟨tree, working⟩ elapsed (arguments.map String.toList)
  for (path, text) in outcome.written do
    IO.FS.writeFile (String.ofList path) (String.ofList text)
  IO.print (String.ofList outcome.stdout)
  IO.eprint (String.ofList outcome.stderr)
  return outcome.code.toUInt32
