import Docblock.CommandLine.Arguments
import Docblock.CommandLine.Outcome
import Docblock.Json
import Docblock.Report

/-!
# Formatting several files

A summary holds a report for each file that could be read, in order, and a diagnostic for each that
could not. Its written form is text for a terminal, or JSON.

That the reports and the failures account for the files, one for each and in order, is proved in
`Docblock.Proofs.CommandLine.Modes`. Both forms name the files that changed, which in a check are
the files that would change, and count files and diagnostics; the text of a dry run holds the new
texts only.
-/

namespace Docblock.CommandLine

/-- The time that a run took, as the two forms of output write it. -/
structure Elapsed where
  text : Text
  json : Text

/-- What came of formatting several files. -/
structure Summary where
  reports : List Report
  /-- Why files have no report. -/
  failures : List Diagnostic

namespace Summary

/-- The diagnostic for a file that has no report. -/
def failure (path reason : Text) : Diagnostic :=
  { file := path, severity := .error, message := reason }

/-- The report of a file, or why it has none. -/
def formatFile (fs : FileSystem) (o : Options) (path : Text) : Except Diagnostic Report :=
  match fs.readText? path with
  | none =>
    .error (failure path
      ("failed to read ".toList ++ path ++ ": stream did not contain valid UTF-8".toList))
  | some source =>
    match Report.ofSource o path source with
    | .ok report => .ok report
    | .error e => .error (failure path e.message)

/-- Formats several files. -/
def ofFiles (fs : FileSystem) (o : Options) (paths : List Text) : Summary :=
  let results := paths.map (formatFile fs o)
  { reports := results.filterMap fun
      | .ok report => some report
      | .error _ => none
    failures := results.filterMap fun
      | .ok _ => none
      | .error d => some d }

/-- The reports of files that formatting changes. -/
def changed (s : Summary) : List Report := s.reports.filter Report.changed

/-- All diagnostics; those about missing reports come first. -/
def diagnostics (s : Summary) : List Diagnostic := s.failures ++ s.reports.flatMap (·.diagnostics)

/-- The number of diagnostics of a severity. -/
def count (s : Summary) (severity : Severity) : Nat :=
  s.diagnostics.countP fun d => d.severity = severity

/-- The new texts of files, in the mode that writes them. -/
def written (s : Summary) (mode : WriteMode) : List (Text × Text) :=
  match mode with
  | .write => s.changed.map fun r => (r.path, r.formatted)
  | _ => []

/-! ## Text -/

/-- What is said about a changed file. -/
def changeText (mode : WriteMode) (r : Report) : Text :=
  match mode with
  | .write => outputLines ["Formatted ".toList ++ r.path]
  | .check => outputLines ["Would reformat ".toList ++ r.path]
  | .dryRun =>
    outputLines ["--- ".toList ++ r.path ++ " ---".toList] ++ r.formatted ++
      (if r.formatted.getLast? = some '\n' then [] else ['\n'])

/-- The last line: how many files there were, and what became of them. -/
def statsLine (s : Summary) (mode : WriteMode) (elapsed : Elapsed) : Text :=
  let verb := if mode = .check then "would change" else "changed"
  "Stats ▸ ".toList ++ Text.ofNat s.reports.length ++ " file(s) | ".toList ++
    Text.ofNat s.changed.length ++ ' ' :: verb.toList ++ " | ".toList ++
    Text.ofNat (s.count .error) ++ " error(s), ".toList ++
    Text.ofNat (s.count .warning) ++ " warning(s) | ".toList ++ elapsed.text ++ ['s']

/-- What is written to the terminal; in a dry run only the new texts. -/
def text (s : Summary) (mode : WriteMode) (elapsed : Elapsed) : Text :=
  let changes := s.changed.flatMap (changeText mode)
  if mode = .dryRun then changes
  else
    let total := s.reports.length + s.failures.length
    outputLines ["Formatting ".toList ++ Text.ofNat total ++ " file(s)...".toList] ++ changes ++
      outputLines [s.statsLine mode elapsed]

/-- The diagnostics as they are written to the terminal, with an empty line after each. -/
def diagnosticsText (s : Summary) : Text := s.diagnostics.flatMap fun d => d.text ++ ['\n']

/-! ## JSON -/

/-- A changed file; a dry run shows its new text. -/
def changeJson (mode : WriteMode) (r : Report) : Json :=
  .object ([("file".toList, .string r.path), ("edits".toList, .ofNat r.edits.length)] ++
    if mode = .dryRun then [("formatted".toList, .string r.formatted)] else [])

/-- A diagnostic; rows and columns are counted from one. -/
def diagnosticJson (d : Diagnostic) : Json :=
  .object [("file".toList, .string d.file), ("severity".toList, .string d.severity.word),
    ("message".toList, .string d.message),
    ("line".toList, .ofOption (fun p => .ofNat (p.row + 1)) d.place),
    ("column".toList, .ofOption (fun p => .ofNat (p.column + 1)) d.place)]

/-- The summary as one object. -/
def json (s : Summary) (mode : WriteMode) (elapsed : Elapsed) : Json :=
  .object [
    ("files".toList, .array (s.reports.map fun r => .string r.path)),
    ("changed".toList, .array (s.changed.map (changeJson mode))),
    ("diagnostics".toList, .array (s.diagnostics.map diagnosticJson)),
    ("stats".toList, .object [
      ("files".toList, .ofNat s.reports.length), ("changed".toList, .ofNat s.changed.length),
      ("errors".toList, .ofNat (s.count .error)), ("warnings".toList, .ofNat (s.count .warning)),
      ("duration_seconds".toList, .number elapsed.json)])]

/-- The outcome of a run with this summary. A check fails if a file would change. -/
def outcome (s : Summary) (mode : WriteMode) (output : OutputFormat) (elapsed : Elapsed) :
    Outcome where
  code := if mode = .check && !s.changed.isEmpty then 1 else 0
  stdout :=
    match output with
    | .text => s.text mode elapsed
    | .json => (s.json mode elapsed).pretty 0 ++ ['\n']
  stderr :=
    match output with
    | .text => s.diagnosticsText
    | .json => []
  written := s.written mode

end Summary

end Docblock.CommandLine
