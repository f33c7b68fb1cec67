import Docblock.Comment.Node
import Docblock.Text.Line
import Docblock.TypeExpr.Parser

/-!
# Reading a comment

A comment is read in three steps. `Comment.bodyLines` takes off the delimiters and the margin, and
the blank lines at either end. `Comment.nodes` groups the lines: those before the first tag are
prose, and each tag takes the lines up to the next. `Comment.parse` reads the type of each tag that
has one.

No line is lost on the way from lines to nodes (`Docblock.Proofs.Comment.WrittenBack`). Whether the
margin that is taken off is one is not known to the reader: a star at the front of a comment on one
line is taken for a margin as well, and `Docblock.Proofs.DocComment.Rereading` tells what follows
from that.
-/

namespace Docblock.Comment

/-- What stands between the delimiters of a comment; a delimiter may be missing. -/
def inner (comment : Text) : Text :=
  let body := Text.trim comment
  let body := (Text.dropStart? "/**".toList body <|> Text.dropStart? "/*".toList body).getD body
  (Text.dropEnd? "*/".toList body).getD body

/-- A line without its margin: a run of `*` with the white space before it. -/
def dropMargin (line : Text) : Text :=
  match Text.trimStart line with
  | '*' :: r => r.dropWhile (· == '*')
  | _ => line

/-- What a line of a comment says: no margin, not the one space after it, and nothing blank at the
end. -/
def bodyLine (line : Text) : Text :=
  let line := dropMargin line
  Text.trimEnd ((Text.dropStart? [' '] line).getD line)

/-- The lines of a comment, without blank lines at either end. -/
def bodyLines (comment : Text) : List Text :=
  Text.dropEndWhile Text.allBlank
    (((Text.lines (inner comment)).map bodyLine).dropWhile Text.allBlank)

/-- The name of the tag that a line begins, and the description after it. -/
def tagLine? (line : Text) : Option (Text × Text) :=
  let line := Text.trim line
  if line.head? = some '@' then
    some (Text.firstWord line, Text.trimStart (Text.afterFirstWord line))
  else none

/-- The lines before the first tag, and the tags, each with the lines that follow it. -/
def groupLines : List Text → List Text × List Tag
  | [] => ([], [])
  | line :: rest =>
    let (loose, tags) := groupLines rest
    match tagLine? line with
    | some (name, description) =>
      ([], { name, description := Text.unpieces (description :: loose) } :: tags)
    | none => (line :: loose, tags)

/-- The nodes of a comment; no type has been read yet. -/
def nodes (comment : Text) : List Node :=
  let (loose, tags) := groupLines (bodyLines comment)
  loose.map .prose ++ tags.map .tag

/-- The tag with its type read off its description, if it takes one. Where that fails the
description stays as it is. -/
def readType (t : Tag) : Tag :=
  if t.title ∈ Tag.typedTitles then
    match TypeExpr.parse t.name t.description with
    | .ok parsed => { t with type := .typed parsed.type, description := parsed.rest }
    | .error e => { t with type := .failed e }
  else t

/-- The node with its type read, if it is a tag that takes one. -/
def readNode : Node → Node
  | .prose text => .prose text
  | .tag t => .tag (readType t)

/-- The nodes of a comment with their types. -/
def parse (comment : Text) : List Node := (nodes comment).map readNode

end Docblock.Comment
