import Docblock.Diagnostic
import Docblock.Directive.Ignore
import Docblock.DocComment.Render
import Docblock.Edit

/-!
# Formatting a file

A report tells what formatting does to one file: the edits that replace its doc comments, the text
they lead to, and a warning for each type that could not be read.

No edits of a report overlap, so it never fails to apply them, and code outside of comments is kept
(`Docblock.Proofs.Source.Splice`, `Docblock.Proofs.Source.Rewriting`). A report says that the file
changed just if it has an edit (`Docblock.Proofs.Source.Changes`).
-/

namespace Docblock

/-- The outcome of formatting one file. -/
structure Report where
  path : Text
  source : Text
  formatted : Text
  edits : List Edit
  diagnostics : List Diagnostic

namespace Report

/-- Whether the file has another text after formatting. -/
def changed (r : Report) : Bool := r.formatted != r.source

/-- The warning about a type that could not be read. -/
def warning (path source : Text) (c : DocComment) (tag : Text) (e : ParseError) : Diagnostic where
  file := path
  severity := .warning
  message := "type of ".toList ++ tag ++ " left unformatted: ".toList ++ e.message
  place := some ⟨c.row, c.column, (Text.lines source)[c.row]?⟩

/-- The doc comments of a file that are written anew, each with its new form. -/
def reformatted (o : Options) (source : Text) : List (DocComment × DocComment.Formatted) :=
  if Ignore.wholeFile source then []
  else
    (Source.docComments source).filterMap fun c =>
      if Ignore.commentAlone c.text then none
      else (DocComment.format o c.indent c.text).map fun formatted => (c, formatted)

/-- The edits of a file that change something. -/
def editsOf (o : Options) (source : Text) : List Edit :=
  ((reformatted o source).map fun (c, formatted) =>
    (⟨c.start, c.stop, formatted.text⟩ : Edit)).filter fun e => !e.isNoop source

/-- The warnings about a file. -/
def warningsOf (o : Options) (path source : Text) : List Diagnostic :=
  (reformatted o source).flatMap fun (c, formatted) =>
    formatted.typeErrors.map fun (tag, e) => warning path source c tag e

/-- Formats the file at a path. -/
def ofSource (o : Options) (path source : Text) : Except EditError Report := do
  let edits := editsOf o source
  let formatted ← Edit.apply source edits
  return { path, source, formatted, edits, diagnostics := warningsOf o path source }

end Report

end Docblock
