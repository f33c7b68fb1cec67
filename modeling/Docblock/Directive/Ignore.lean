import Docblock.Text.Line

/-!
# Directives that keep text as it is

A file or a comment that holds the directive is left alone.

The directive for a file begins with the one for a comment, so a comment that holds the longer one
is kept for either reason. A comment that is kept has no edit and no warning, and the laws about
files count it among the comments that keep their texts (`Docblock.Proofs.Source.Rewriting`).
-/

namespace Docblock.Ignore

/-- Keeps the comment that holds it. -/
def directive : Text := "phpdoc-fmt-ignore".toList

/-- Keeps the whole file that holds it. -/
def fileDirective : Text := "phpdoc-fmt-ignore-file".toList

/-- Whether a file keeps all its comments. -/
def wholeFile (source : Text) : Bool := (Text.lines source).any (Text.includes fileDirective)

/-- Whether a comment asks to be kept. -/
def commentAlone (text : Text) : Bool := Text.includes directive text

/-- Whether a comment of a file is kept. -/
def comment (source text : Text) : Bool := wholeFile source || commentAlone text

end Docblock.Ignore
