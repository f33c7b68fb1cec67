import Docblock.Text.Blank

/-!
# The characters of a document

The rules of YAML speak of columns and lines, so a document is read as a row of glyphs: its
characters, each with its place. However a line end is written, it is one glyph.
-/

namespace Docblock.Yaml

/-- A character of a document and its place. -/
structure Glyph where
  char : Char
  /-- Lines before it. -/
  line : Nat
  /-- Characters before it in its line. -/
  column : Nat
  /-- Characters before it in the document. -/
  index : Nat

/-- The characters that may stand in a document. -/
def isAllowed (c : Char) : Bool :=
  let n := c.toNat
  n == 0x09 || n == 0x0A || n == 0x0D || (0x20 ≤ n && n ≤ 0x7E) || n == 0x85 ||
    (0xA0 ≤ n && n ≤ 0xFFFD) || 0x10000 ≤ n

/-- The characters that end a line as a line feed does: carriage return, line feed and next line. -/
def isLineEnd (c : Char) : Bool := c == '\n' || c == '\r' || c.toNat == 0x85

/-- The characters that end a line and are kept as they are: the two separators. -/
def isSeparator (c : Char) : Bool := c.toNat == 0x2028 || c.toNat == 0x2029

/-- The glyphs of a text that begins at the given place. -/
def glyphsFrom (line column index : Nat) : Text → List Glyph
  | [] => []
  | '\r' :: '\n' :: r => ⟨'\n', line, column, index⟩ :: glyphsFrom (line + 1) 0 (index + 2) r
  | c :: r =>
    if isLineEnd c then ⟨'\n', line, column, index⟩ :: glyphsFrom (line + 1) 0 (index + 1) r
    else if isSeparator c then ⟨c, line, column, index⟩ :: glyphsFrom (line + 1) 0 (index + 1) r
    else ⟨c, line, column, index⟩ :: glyphsFrom line (column + 1) (index + 1) r

/-- The glyphs of a document, if it holds no character that may not stand there. -/
def glyphs? (document : Text) : Option (List Glyph) :=
  if document.all isAllowed then some (glyphsFrom 0 0 0 document) else none

namespace Glyph

/-- White space inside a line. -/
def isGap (g : Glyph) : Bool := g.char == ' ' || g.char == '\t'

/-- The end of a line. -/
def isBreak (g : Glyph) : Bool := g.char == '\n' || isSeparator g.char

/-- White space, or the end of a line. -/
def isWhite (g : Glyph) : Bool := g.isGap || g.isBreak

/-- A character of a name: an ASCII letter or digit, a hyphen or an underscore. -/
def isWord (g : Glyph) : Bool := g.char.isAlphanum || g.char == '-' || g.char == '_'

/-- A byte order mark at the beginning of a line. -/
def isByteOrderMark (g : Glyph) : Bool := g.column == 0 && g.char.toNat == 0xFEFF

/-- Whether a glyph is one of several characters. -/
def isAny (g : Glyph) (chars : Text) : Bool := chars.contains g.char

end Glyph

/-- The characters of glyphs. -/
def textOf (s : List Glyph) : Text := s.map Glyph.char

/-- Whether a word ends before the glyphs: white space comes next, or nothing. -/
def endsWord (s : List Glyph) : Bool := s.head?.all Glyph.isWhite

/-- Whether one of several characters comes next. -/
def nextIsAny (chars : Text) (s : List Glyph) : Bool := s.head?.any fun g => g.isAny chars

/-- Whether a mark of three characters stands alone at the beginning of a line. -/
def isMarker (mark : Text) (s : List Glyph) : Bool :=
  s.head?.any (·.column == 0) && textOf (s.take 3) == mark && endsWord (s.drop 3)

/-- The mark that begins a document. -/
def startMarker : Text := "---".toList

/-- The mark that ends a document. -/
def endMarker : Text := "...".toList

/-- Whether a mark between documents comes next. -/
def isDocumentMarker (s : List Glyph) : Bool := isMarker startMarker s || isMarker endMarker s

/-- The ends of lines among glyphs. -/
def breaksOf (s : List Glyph) : Text := textOf (s.filter Glyph.isBreak)

/-- What a run of white space between two words of a scalar stands for. In one line it is kept. Of
several line ends the first, if it is a line feed, is dropped; a single line feed is a space. -/
def foldedGap (run : List Glyph) : Text :=
  match breaksOf run with
  | [] => textOf run
  | ['\n'] => [' ']
  | '\n' :: rest => rest
  | breaks => breaks

/-- What is left of a line that may end here: white space and a comment are passed over, and the end
of the line too. -/
def endLine? (s : List Glyph) : Option (List Glyph) :=
  let r := s.dropWhile Glyph.isGap
  let r := if nextIsAny ['#'] r then r.dropWhile (!·.isBreak) else r
  match r with
  | [] => some []
  | g :: rest => if g.isBreak then some rest else none

end Docblock.Yaml
