import Docblock.Comment.Body
import Docblock.CommandLine.Outcome
import Docblock.DocComment.Basic
import Docblock.TypeExpr.Outline

/-!
# Showing what was read

For each doc comment of a file: where it stands, its nodes, and the outlines of its types.

The file is only read. A comment is shown as it is read, before anything is composed from it, so a
type that could not be read is shown with its error where another has its outline.
-/

namespace Docblock.CommandLine

/-- The lines for a node: its text, and the outline of its type or why it has none. -/
def dumpNode : Node → List Text
  | .prose text => ["  Text ".toList ++ Text.quoted text]
  | .tag t =>
    let title := "  Tag ".toList ++ t.name ++ ' ' :: Text.quoted t.description
    match t.type with
    | .untyped => [title]
    | .typed type => title :: type.outline 2 []
    | .failed e => [title, "    error: ".toList ++ e.message]

/-- The lines for a doc comment. -/
def dumpComment (c : DocComment) : List Text :=
  ("comment at ".toList ++ Text.ofNat (c.row + 1) ++ ':' :: Text.ofNat (c.column + 1)) ::
    (Comment.parse c.text).flatMap dumpNode

/-- Shows the doc comments of the file that the first argument names. -/
def dump (fs : FileSystem) (arguments : List Text) : Outcome :=
  match arguments with
  | [] => .failure "path argument missing".toList
  | path :: _ =>
    match fs.readText? path with
    | none => .failure ("failed to read ".toList ++ path)
    | some source =>
      { stdout := outputLines ((Source.docComments source).flatMap dumpComment) }

end Docblock.CommandLine
