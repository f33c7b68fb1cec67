import Docblock.Options
import Docblock.TypeExpr.Nulls

/-!
# The written form of a type

A type is written in two steps. `TypeExpr.pieces` turns the tree into a row of words and gaps; a gap
knows what stands in it on one line, how deep the type is nested there, and from which wrap level on
it is a line break instead. `Piece.render` then fills the gaps for one wrap level. So the four forms
of one type differ in their gaps alone.

Two levels differ by where gaps are broken, and a tighter one breaks all that a looser one does
(`Docblock.Proofs.TypeExpr.Refinement`). By how much a tighter level may be wider is told in
`Docblock.Proofs.TypeExpr.Widths`. The lines are read back as the arranged tree
(`Docblock.Proofs.TypeExpr.RoundTrip`).
-/

namespace Docblock

/-- How far a type is broken up: each level breaks what the one before it breaks, and more. -/
inductive WrapLevel where
  /-- All on one line. -/
  | never
  /-- The entries of shapes whose entries all have keys. -/
  | entries
  /-- Also the arguments of generic types. -/
  | arguments
  /-- Also the other shapes, and the clauses of a conditional type. -/
  | clauses
deriving DecidableEq

namespace WrapLevel

/-- The levels from the loosest to the tightest. -/
def rank : WrapLevel → Nat
  | .never => 0
  | .entries => 1
  | .arguments => 2
  | .clauses => 3

/-- Whether a gap that breaks from `gap` on is a line break at the level. -/
def breaks (level gap : WrapLevel) : Bool := gap.rank ≤ level.rank

end WrapLevel

/-- A part of a written type. -/
inductive Piece where
  /-- Text that is never broken. -/
  | word (text : Text)
  /-- A line break with `depth` steps of indentation at `level` and beyond, and `inline` before. -/
  | gap (level : WrapLevel) (depth : Nat) (inline : Text)
deriving DecidableEq

namespace Piece

/-- The first line of the pieces at a wrap level, and the lines after it. -/
def render (level : WrapLevel) (unit : Text) : List Piece → Text × List Text
  | [] => ([], [])
  | .word text :: ps =>
    let (line, rest) := render level unit ps
    (text ++ line, rest)
  | .gap threshold depth inline :: ps =>
    let (line, rest) := render level unit ps
    if level.breaks threshold then ([], ((List.replicate depth unit).flatten ++ line) :: rest)
    else (inline ++ line, rest)

/-- Rows of pieces with a separator between two. -/
def join (separator : List Piece) : List (List Piece) → List Piece := separator.intercalate

/-- Rows of pieces between commas, one step deeper than `depth`, with gaps that break at `level`
before the first, between two and after the last. -/
def block (level : WrapLevel) (depth : Nat) (items : List (List Piece)) : List Piece :=
  .gap level (depth + 1) [] ::
    join [.word [','], .gap level (depth + 1) [' ']] items ++ [.gap level depth []]

end Piece

namespace ShapeEntry

/-- The level at which a shape breaks: a shape with a key for every entry breaks first. -/
def blockLevel (entries : List ShapeEntry) : WrapLevel :=
  if entries.all isKeyed then .entries else .clauses

end ShapeEntry

namespace TypeExpr

mutual

/-- A type as a row of words and gaps, read off the tree from left to right. -/
def pieces (depth : Nat) : TypeExpr → List Piece
  | .nullable inner => .word ['?'] :: pieces depth inner
  | .named name => [.word name]
  | .generic base arguments =>
    pieces depth base ++ [.word ['<']] ++
      Piece.block .arguments depth (piecesAll (depth + 1) arguments) ++ [.word ['>']]
  | .constant owner member => pieces depth owner ++ [.word [':', ':']] ++ pieces depth member
  | .shape [] => [.word ("array".toList ++ ['{', '}'])]
  | .shape (entry :: entries) =>
    [.word ("array".toList ++ ['{'])] ++
      Piece.block (ShapeEntry.blockLevel (entry :: entries)) depth
        (piecesEntry (depth + 1) entry :: piecesEntries (depth + 1) entries) ++
      [.word ['}']]
  | .record key value =>
    [.word "array<".toList] ++ pieces depth key ++ [.word ", ".toList] ++ pieces depth value ++
      [.word ['>']]
  | .sequence kind item => [.word (kind.word ++ ['<'])] ++ pieces depth item ++ [.word ['>']]
  | .arrayOf item => pieces depth item ++ [.word ['[', ']']]
  | .union branches => Piece.join [.word " | ".toList] (piecesAll depth branches)
  | .callable callee parameters result =>
    pieces depth callee ++ [.word ['(']] ++
      Piece.join [.word ", ".toList] (piecesParameters depth parameters) ++
      [.word "): ".toList] ++ pieces depth result
  | .literal quote body => [.word ([quote.char] ++ body ++ [quote.char])]
  | .group inner => [.word ['(']] ++ pieces depth inner ++ [.word [')']]
  | .conditional subject bound consequent alternative =>
    pieces depth subject ++
      [.gap .clauses (depth + 1) [' '], .word "is ".toList] ++ pieces (depth + 1) bound ++
      [.gap .clauses (depth + 1) [' '], .word "? ".toList] ++ pieces (depth + 1) consequent ++
      [.gap .clauses (depth + 1) [' '], .word ": ".toList] ++ pieces (depth + 1) alternative
  | .ellipsis => [.word "...".toList]
  | .qualified modifier target => pieces depth modifier ++ [.word [' ']] ++ pieces depth target

/-- Each of several types as a row of its own. -/
def piecesAll (depth : Nat) : List TypeExpr → List (List Piece)
  | [] => []
  | t :: ts => pieces depth t :: piecesAll depth ts

/-- One entry of a shape. -/
def piecesEntry (depth : Nat) : ShapeEntry → List Piece
  | .positional value => pieces depth value
  | .keyed key isOptional value =>
    pieces depth key ++ [.word (if isOptional then "?: ".toList else ": ".toList)] ++
      pieces depth value

/-- Each entry of a shape as a row of its own. -/
def piecesEntries (depth : Nat) : List ShapeEntry → List (List Piece)
  | [] => []
  | e :: es => piecesEntry depth e :: piecesEntries depth es

/-- Each parameter of a callable as a row of its own. The name follows a bare `...` at once, since
`...$rest` is one word. -/
def piecesParameters (depth : Nat) : List Parameter → List (List Piece)
  | [] => []
  | .unnamed type :: ps => pieces depth type :: piecesParameters depth ps
  | .named type name :: ps =>
    (pieces depth type ++ [.word (if type.isEllipsis then name else ' ' :: name)]) ::
      piecesParameters depth ps

end

/-- The type's pieces in the order in which they are written: the arranged tree from left to
right. -/
def layout (t : TypeExpr) (expand : Bool) : List Piece := pieces 0 (arrange expand t)

/-- The first line of a type at a wrap level, and the lines after it. -/
def render (t : TypeExpr) (o : Options) (level : WrapLevel) : Text × List Text :=
  Piece.render level o.indentUnit (t.layout o.expandNull)

/-- The lines of a type at a wrap level. -/
def lines (t : TypeExpr) (o : Options) (level : WrapLevel) : List Text :=
  let (first, rest) := t.render o level
  first :: rest

/-- The type on one line. -/
def inline (t : TypeExpr) (expand : Bool) : Text :=
  (Piece.render .never [] (t.layout expand)).1

end TypeExpr

end Docblock
