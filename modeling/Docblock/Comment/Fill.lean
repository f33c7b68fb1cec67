import Docblock.Options
import Docblock.Text.Line

/-!
# Filling lines

Prose and descriptions are set word by word. Each line of the text is a paragraph of its own: it
keeps its indentation, its words are parted by one space, and with `wrapText` a new line begins
before a word that would end beyond the print width. A word that begins with `@` never begins a
line, since it would be read back as a tag.

`Docblock.Proofs.Comment.Filling` has the laws of filling that hold whether or not text is wrapped,
and `Docblock.Proofs.Comment.Greedy` tells where lines end if it is: each line takes as many words
as fit, but for words with an `@`, which stay on their line.
-/

namespace Docblock.Comment

/-- Whether a new line has to begin before a word that follows `line`. -/
def breaksBefore (o : Options) (line word : Text) : Bool :=
  !Text.allBlank line && o.wrapText && word.head? != some '@' &&
    o.printWidth < o.displayWidth line + 1 + o.displayWidth word

/-- A line with one more word at its end. -/
def appendWord (line word : Text) : Text :=
  if Text.allBlank line then line ++ word else line ++ ' ' :: word

/-- The lines that result from setting words after the beginning of a line. -/
def fillWords (o : Options) (line : Text) : List Text → List Text
  | [] => [Text.trimEnd line]
  | word :: words =>
    if breaksBefore o line word then Text.trimEnd line :: fillWords o word words
    else fillWords o (appendWord line word) words

/-- The lines of one paragraph. It begins with the seed, or without one with its own indentation. -/
def fillParagraph (o : Options) (seed paragraph : Text) : List Text :=
  let start := if seed.isEmpty then paragraph.takeWhile Text.isBlank else seed
  fillWords o start (Text.words paragraph)

/-- The lines of a text, whose first paragraph continues the seed. -/
def fill (o : Options) (seed text : Text) : List Text :=
  match Text.pieces text with
  | [] => []
  | first :: rest => fillParagraph o seed first ++ rest.flatMap (fillParagraph o [])

end Docblock.Comment
