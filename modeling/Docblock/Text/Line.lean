import Docblock.Text.Blank

/-!
# Lines

Two readings of a text as lines. `Text.pieces` cuts at every line feed and keeps all that stands
between the cuts. `Text.lines` reads a file: a line feed ends a line rather than separating two, so
none follows a final one, and a carriage return before the line feed belongs to the line's end.

`Docblock.Proofs.Text.Cuts` has the laws of both. That lines put together again are the text is one
of them for `pieces` alone: what ends a line is forgotten by `lines`.
-/

namespace Docblock.Text

/-- What stands between the line feeds of a text; never empty. -/
def pieces (t : Text) : List Text := t.splitOn '\n'

/-- The text without one carriage return at its end. -/
def dropReturn (t : Text) : Text := (dropEnd? ['\r'] t).getD t

/-- The lines whose pieces are given: all but the last were ended by a line feed, and the last is a
line only if it holds something. -/
def linesOfPieces : List Text → List Text
  | [] => []
  | [last] => if last.isEmpty then [] else [last]
  | piece :: next :: rest => dropReturn piece :: linesOfPieces (next :: rest)

/-- The lines of a file's text. -/
def lines (t : Text) : List Text := linesOfPieces (pieces t)

/-- What stands after the last line feed of a text. -/
def lastPiece (t : Text) : Text := (t.reverse.takeWhile (· != '\n')).reverse

/-- Lines put one under the other, with a line feed between two. -/
def unpieces (ls : List Text) : Text := ['\n'].intercalate ls

end Docblock.Text
