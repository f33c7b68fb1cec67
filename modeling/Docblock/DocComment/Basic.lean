import Docblock.Source.Segment
import Docblock.Text.Offset

/-!
# A doc comment in its file

A doc comment is known by its text and the text of the file before it. Its offsets, its row and
column, and the indentation of its lines follow from these two.

That these are the places of the comment in the file, and that its row is the line of that number,
is proved in `Docblock.Proofs.Source.Places`. The indentation has a space for each character in
front of a comment behind code, also for a tab, which may be wider;
`Docblock.Proofs.DocComment.OneLine` tells by how much.
-/

namespace Docblock

/-- A doc comment of a file. -/
structure DocComment where
  /-- The file up to the comment. -/
  before : Text
  text : Text
deriving DecidableEq

namespace DocComment

/-- Bytes before the comment. -/
def start (c : DocComment) : Nat := Text.byteSize c.before

/-- Bytes up to the end of the comment. -/
def stop (c : DocComment) : Nat := c.start + Text.byteSize c.text

/-- Lines before the comment's first. -/
def row (c : DocComment) : Nat := c.before.count '\n'

/-- What stands before the comment in its line. -/
def linePrefix (c : DocComment) : Text := Text.lastPiece c.before

/-- Bytes before the comment in its line. -/
def column (c : DocComment) : Nat := Text.byteSize c.linePrefix

/-- What stands in front of each further line of the comment: the white space before its first line,
or as many spaces as characters are there. -/
def indent (c : DocComment) : Text :=
  if Text.allBlank c.linePrefix then c.linePrefix else List.replicate c.linePrefix.length ' '

end DocComment

namespace Source

/-- The doc comments among segments that stand after the text `before`. -/
def docCommentsAfter (before : Text) : List Segment → List DocComment
  | [] => []
  | .code text :: rest => docCommentsAfter (before ++ text) rest
  | .doc text :: rest => ⟨before, text⟩ :: docCommentsAfter (before ++ text) rest

/-- The doc comments of a file, in order. -/
def docComments (source : Text) : List DocComment := docCommentsAfter [] (segments source)

end Source

end Docblock
