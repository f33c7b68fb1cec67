import Docblock.Text.Blank

/-!
# Diagnostics

What the user is told about a file: a severity, a message, and perhaps a place with the line that
stands there. The written form is coloured for a terminal and points at the place with a caret.

The caret stands as many characters into its line as the place has bytes before it, behind a margin
that leaves three characters for the number of a line. Exactly when this is below the place is
proved in `Docblock.Proofs.Diagnostic.Caret`, where the lines are read as a terminal shows them.
-/

namespace Docblock

/-- How bad it is. -/
inductive Severity where
  | warning
  | error
deriving DecidableEq

/-- The word for a severity. -/
def Severity.word : Severity → Text
  | .warning => "warning".toList
  | .error => "error".toList

/-- Begins a stretch of text in a style of the terminal. -/
def Terminal.style (code : String) : Text := ("\x1b[" ++ code ++ "m").toList

/-- Ends a stretch of text in a style of the terminal. -/
def Terminal.reset : Text := Terminal.style "0"

/-- The style of a severity: bold, and yellow or red. -/
def Severity.style : Severity → Text
  | .warning => Terminal.style "1;33"
  | .error => Terminal.style "1;31"

/-- A place in a file. -/
structure Place where
  /-- Lines before it. -/
  row : Nat
  /-- Bytes before it in its line. -/
  column : Nat
  /-- The line it stands in, where it is known. -/
  line : Option Text
deriving DecidableEq

/-- A message about a file. -/
structure Diagnostic where
  file : Text
  severity : Severity
  message : Text
  place : Option Place := none
deriving DecidableEq

namespace Diagnostic

/-- A text behind as many spaces as make it `width` characters wide. -/
def padStart (width : Nat) (t : Text) : Text := List.replicate (width - t.length) ' ' ++ t

/-- The blue margin beside a line that is shown, with the number of the line or nothing in it. -/
def gutter (number : Text) : Text :=
  Terminal.style "34" ++ padStart 3 number ++ " |".toList ++ Terminal.reset

/-- The lines that show a place: an empty margin, the line, and the caret below it. -/
def snippet (severity : Severity) (place : Place) (line : Text) : List Text :=
  [gutter [], gutter (Text.ofNat (place.row + 1)) ++ ' ' :: line,
    gutter [] ++ ' ' :: List.replicate place.column ' ' ++ severity.style ++
      '^' :: Terminal.reset]

/-- The lines of a diagnostic. -/
def lines (d : Diagnostic) : List Text :=
  let title := d.severity.style ++ d.severity.word ++ Terminal.reset ++ ": ".toList ++ d.message
  match d.place with
  | none => [title, " --> ".toList ++ d.file]
  | some place =>
    let position :=
      " --> ".toList ++ d.file ++ ':' :: Text.ofNat (place.row + 1) ++ ':' ::
        Text.ofNat (place.column + 1)
    [title, position] ++ (place.line.map (snippet d.severity place)).getD []

/-- The written form of a diagnostic, each line with a line feed at its end. -/
def text (d : Diagnostic) : Text := d.lines.flatMap (· ++ ['\n'])

end Diagnostic

end Docblock
