import Docblock.Comment.Compose
import Docblock.DocComment.Basic

/-!
# Writing a doc comment back

The lines of a comment are put between delimiters again. A comment of one line that was written on
one line stays there if it fits; every other comment has a line for each delimiter and a margin.

What is written is a doc comment again, closed at its end and nowhere before
(`Docblock.Proofs.DocComment.Delimiters`), each further row begins with the margin if no line holds
a line feed (`Docblock.Proofs.DocComment.Margined`), and its lines are read back
(`Docblock.Proofs.DocComment.Margin`, `Docblock.Proofs.DocComment.Rereading`).
-/

namespace Docblock.DocComment

/-- A doc comment written anew. -/
structure Formatted where
  text : Text
  /-- The tags whose type could not be read, with the reason. -/
  typeErrors : List (Text × ParseError)

/-- The width left for the lines of a comment: its indentation and margin are taken off, and one
column always remains. -/
def bodyWidth (o : Options) (indent : Text) : UInt64 :=
  let used := o.displayWidth indent + 3
  if used < o.docWidth then o.docWidth - used else 1

/-- A comment on one line. -/
def singleLine (line : Text) : Text := "/** ".toList ++ line ++ " */".toList

/-- A line of a comment with its margin. -/
def marginLine (indent line : Text) : Text := indent ++ Text.trimEnd (" * ".toList ++ line)

/-- A comment with a line for each delimiter. -/
def multiLine (indent : Text) (lines : List Text) : Text :=
  Text.unpieces
    ("/**".toList :: lines.map (marginLine indent) ++ [indent ++ " */".toList])

/-- Whether a comment of one line fits behind its indentation. -/
def fitsOneLine (o : Options) (indent line : Text) : Bool :=
  o.displayWidth indent + o.displayWidth (singleLine line) ≤ o.docWidth

/-- The text of a comment with the given lines, in place of `old`. -/
def render (o : Options) (indent old : Text) : List Text → Text
  | [line] =>
    if !old.contains '\n' && fitsOneLine o indent line then singleLine line
    else multiLine indent [line]
  | lines => multiLine indent lines

/-- The tags of a comment whose type could not be read. -/
def typeErrors (nodes : List Node) : List (Text × ParseError) :=
  nodes.filterMap fun
    | .tag ⟨name, _, .failed e⟩ => some (name, e)
    | _ => none

/-- A doc comment written anew; nothing if it has no lines. -/
def format (o : Options) (indent text : Text) : Option Formatted :=
  let nodes := Comment.parse text
  match Comment.compose (o.withPrintWidth (bodyWidth o indent)) nodes with
  | [] => none
  | lines => some ⟨render o indent text lines, typeErrors nodes⟩

end Docblock.DocComment
