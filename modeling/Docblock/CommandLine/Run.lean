import Docblock.CommandLine.Summary
import Docblock.CommandLine.Target

/-!
# Running the formatter

A run reads its arguments, finds the PHP files they name, formats them, and leaves the outcome. The
file system is only read; what is to be written is part of the outcome.

What a run does in each mode is proved in `Docblock.Proofs.CommandLine.Modes`, from one summary for
all of them. Of a watch only the first round is modelled: later rounds are the same work again,
begun by events of the file system. The time that a run took is given from outside and only printed.
-/

namespace Docblock.CommandLine

/-- How the command is called. -/
def usage : Text :=
  ("format <PATH> [--check | --dry-run] [--format text|json] [OPTIONS], " ++
    "or watch <PATH> [OPTIONS]").toList

/-- The name of the program and its version. -/
def versionLine : Text := "phpdoc-fmt 0.1.0".toList

/-- The outcome for a target without PHP files. -/
def nothingFound (output : OutputFormat) (root : Text) : Outcome :=
  match output with
  | .text => { stdout := outputLines ["No PHP files found under ".toList ++ root] }
  | .json => {}

/-- Formats the files of a target. -/
def formatTarget (fs : FileSystem) (elapsed : Elapsed) (mode : WriteMode) (output : OutputFormat)
    (target : Target) : Except Error Outcome := do
  let files ← target.files fs
  if files.isEmpty then return nothingFound output target.root
  return (Summary.ofFiles fs target.options files).outcome mode output elapsed

/-- What is said when a watch begins. -/
def watchLine : Text := "Watching for changes (Ctrl+C to exit)...".toList

/-- Does what an invocation asks for; of a watch the first round. -/
def execute (fs : FileSystem) (elapsed : Elapsed) (i : Invocation) : Except Error Outcome := do
  let target ← Target.ofInvocation fs i
  match i.task with
  | .format mode output => formatTarget fs elapsed mode output target
  | .watch =>
    let outcome ← formatTarget fs elapsed .write .text target
    return { outcome with stdout := outcome.stdout ++ outputLines [watchLine] }

/-- Runs the command with the given arguments. -/
def run (fs : FileSystem) (elapsed : Elapsed) (arguments : List Text) : Outcome :=
  match read? arguments with
  | none => .misuse usage
  | some .version => { stdout := outputLines [versionLine] }
  | some (.run invocation) =>
    match execute fs elapsed invocation with
    | .ok outcome => outcome
    | .error e => .failure e.message

end Docblock.CommandLine
