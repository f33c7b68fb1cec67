import Docblock.Proofs.Text.Cuts
import Docblock.TypeExpr.Layout

/-!
# The written form as one text

The lines of a type at a wrap level, put one under the other, are its pieces put one after the
other: a gap is a line feed with the indentation where it breaks, and its inline text elsewhere
(`unpieces_render`). So what is said of the lines of a type is said of one text, which is built
along the tree like the row of pieces itself.

The equations are the printer's, one for each kind of type, with the rows of pieces gone: what a
type is written as at a level, in terms of what its parts are written as. Reading a written type
back (`Docblock.Proofs.TypeExpr.Printing`) and comparing it with what was read
(`Docblock.Proofs.TypeExpr.Condensed`) are inductions that use one equation in each case. They say
nothing of arranging; the tree is written as it is.
-/

namespace Docblock

namespace Piece

/-- What stands in a gap at a wrap level. -/
def gapText (level : WrapLevel) (unit : Text) (threshold : WrapLevel) (depth : Nat)
    (inline : Text) : Text :=
  if level.breaks threshold then '\n' :: (List.replicate depth unit).flatten else inline

/-- The pieces at a wrap level as one text. -/
def flat (level : WrapLevel) (unit : Text) : List Piece → Text
  | [] => []
  | .word text :: ps => text ++ flat level unit ps
  | .gap threshold depth inline :: ps =>
    gapText level unit threshold depth inline ++ flat level unit ps

variable (level : WrapLevel) (unit : Text)

@[simp] theorem flat_nil : flat level unit [] = [] := rfl

@[simp] theorem flat_word (text : Text) (ps : List Piece) :
    flat level unit (.word text :: ps) = text ++ flat level unit ps := rfl

@[simp] theorem flat_gap (threshold : WrapLevel) (depth : Nat) (inline : Text) (ps : List Piece) :
    flat level unit (.gap threshold depth inline :: ps) =
      gapText level unit threshold depth inline ++ flat level unit ps := rfl

/-- Rows of pieces put together are written one after the other. -/
@[simp] theorem flat_append (ps qs : List Piece) :
    flat level unit (ps ++ qs) = flat level unit ps ++ flat level unit qs := by
  induction ps with
  | nil => rfl
  | cons p ps ih =>
    cases p with
    | word text => simp [ih]
    | gap threshold depth inline => simp [ih]

/-- The lines of the pieces, put one under the other, are the pieces as one text. -/
theorem unpieces_render (ps : List Piece) :
    Text.unpieces ((render level unit ps).1 :: (render level unit ps).2) = flat level unit ps := by
  induction ps with
  | nil => simp [render, Text.unpieces]
  | cons p ps ih =>
    cases p with
    | word text => rw [render, flat_word, ← ih, ← Text.unpieces_cons_append]
    | gap threshold depth inline =>
      rw [render, flat_gap, gapText, ← ih]
      by_cases hbreaks : level.breaks threshold = true
      · simp only [hbreaks, if_true]
        rw [Text.unpieces_nil_cons, Text.unpieces_cons_append, List.cons_append]
      · simp only [hbreaks, Bool.false_eq_true, if_false]
        rw [Text.unpieces_cons_append]

/-- Rows with a separator between two, as one text. -/
theorem flat_join (separator : List Piece) (rows : List (List Piece)) :
    flat level unit (join separator rows) =
      (flat level unit separator).intercalate (rows.map (flat level unit)) := by
  rw [join]
  induction rows with
  | nil => rfl
  | cons row rows ih =>
    cases rows with
    | nil => simp
    | cons next rows => simpa using ih

end Piece

namespace TypeExpr

/-- The rows of several types are the row of each. -/
theorem piecesAll_eq_map (depth : Nat) (ts : List TypeExpr) :
    piecesAll depth ts = ts.map (pieces depth) := by
  induction ts with
  | nil => rfl
  | cons t ts ih => rw [piecesAll, ih, List.map_cons]

/-- The rows of several entries are the row of each. -/
theorem piecesEntries_eq_map (depth : Nat) (es : List ShapeEntry) :
    piecesEntries depth es = es.map (piecesEntry depth) := by
  induction es with
  | nil => rfl
  | cons e es ih => rw [piecesEntries, ih, List.map_cons]

/-- One parameter of a callable. -/
def piecesParameter (depth : Nat) : Parameter → List Piece
  | .unnamed type => pieces depth type
  | .named type name =>
    pieces depth type ++ [.word (if type.isEllipsis then name else ' ' :: name)]

/-- The rows of several parameters are the row of each. -/
theorem piecesParameters_eq_map (depth : Nat) (ps : List Parameter) :
    piecesParameters depth ps = ps.map (piecesParameter depth) := by
  induction ps with
  | nil => rfl
  | cons p ps ih =>
    cases p with
    | unnamed type => rw [piecesParameters, ih, List.map_cons, piecesParameter]
    | named type name => rw [piecesParameters, ih, List.map_cons, piecesParameter]

/-- The tree, nested `depth` deep, as one text. -/
def written (level : WrapLevel) (unit : Text) (depth : Nat) (t : TypeExpr) : Text :=
  Piece.flat level unit (pieces depth t)

/-- An entry of a shape as one text. -/
def writtenEntry (level : WrapLevel) (unit : Text) (depth : Nat) (e : ShapeEntry) : Text :=
  Piece.flat level unit (piecesEntry depth e)

/-- A parameter of a callable as one text. -/
def writtenParameter (level : WrapLevel) (unit : Text) (depth : Nat) (p : Parameter) : Text :=
  Piece.flat level unit (piecesParameter depth p)

section Equations

attribute [local simp] pieces piecesEntry piecesParameters

variable (level : WrapLevel) (unit : Text) (depth : Nat)

/-- Several types are written each for itself. -/
theorem map_flat_piecesAll (ts : List TypeExpr) :
    (piecesAll depth ts).map (Piece.flat level unit) = ts.map (written level unit depth) := by
  rw [piecesAll_eq_map, List.map_map]
  rfl

/-- Several entries are written each for itself. -/
theorem map_flat_piecesEntries (es : List ShapeEntry) :
    (piecesEntries depth es).map (Piece.flat level unit) =
      es.map (writtenEntry level unit depth) := by
  rw [piecesEntries_eq_map, List.map_map]
  rfl

/-- Several parameters are written each for itself. -/
theorem map_flat_piecesParameters (ps : List Parameter) :
    (piecesParameters depth ps).map (Piece.flat level unit) =
      ps.map (writtenParameter level unit depth) := by
  rw [piecesParameters_eq_map, List.map_map]
  rfl

open Piece (gapText)

/-- The question mark stands at the type. -/
theorem written_nullable (inner : TypeExpr) :
    written level unit depth (.nullable inner) = '?' :: written level unit depth inner := rfl

theorem written_named (name : Text) : written level unit depth (.named name) = name := by
  simp [written]

/-- The arguments stand between angles, one step deeper, and the gaps around them break together. -/
theorem written_generic (base : TypeExpr) (arguments : List TypeExpr) :
    written level unit depth (.generic base arguments) =
      written level unit depth base ++ '<' :: (gapText level unit .arguments (depth + 1) [] ++
        ((',' :: gapText level unit .arguments (depth + 1) [' ']).intercalate
          (arguments.map (written level unit (depth + 1))) ++
        (gapText level unit .arguments depth [] ++ ['>']))) := by
  simp [written, Piece.block, Piece.flat_join, map_flat_piecesAll]

/-- Nothing stands around the double colon. -/
theorem written_constant (owner member : TypeExpr) :
    written level unit depth (.constant owner member) =
      written level unit depth owner ++ ':' :: ':' :: written level unit depth member := by
  simp [written]

/-- A shape without entries is never broken. -/
theorem written_shape_nil :
    written level unit depth (.shape []) = SequenceKind.array.word ++ ['{', '}'] := by
  simp [written, SequenceKind.word]

/-- The entries of a shape stand between braces, one step deeper; from which level on they break
depends on whether all have keys. -/
theorem written_shape_cons (e : ShapeEntry) (es : List ShapeEntry) :
    written level unit depth (.shape (e :: es)) =
      SequenceKind.array.word ++
        '{' :: (gapText level unit (ShapeEntry.blockLevel (e :: es)) (depth + 1) [] ++
        ((',' :: gapText level unit (ShapeEntry.blockLevel (e :: es)) (depth + 1) [' ']).intercalate
          ((e :: es).map (writtenEntry level unit (depth + 1))) ++
        (gapText level unit (ShapeEntry.blockLevel (e :: es)) depth [] ++ ['}']))) := by
  simp [written, Piece.block, Piece.flat_join, map_flat_piecesEntries,
    SequenceKind.word, writtenEntry]

/-- A key and a value stay on one line. -/
theorem written_record (key value : TypeExpr) :
    written level unit depth (.record key value) =
      SequenceKind.array.word ++ '<' :: (written level unit depth key ++
        ',' :: ' ' :: (written level unit depth value ++ ['>'])) := by
  simp [written, SequenceKind.word]

/-- A sequence has one item, which stays on the line. -/
theorem written_sequence (kind : SequenceKind) (item : TypeExpr) :
    written level unit depth (.sequence kind item) =
      kind.word ++ '<' :: (written level unit depth item ++ ['>']) := by
  simp [written]

/-- The brackets stand at the item. -/
theorem written_arrayOf (item : TypeExpr) :
    written level unit depth (.arrayOf item) = written level unit depth item ++ ['[', ']'] := by
  simp [written]

/-- The branches of a union stay on one line, with a bar between spaces. -/
theorem written_union (branches : List TypeExpr) :
    written level unit depth (.union branches) =
      [' ', '|', ' '].intercalate (branches.map (written level unit depth)) := by
  simp [written, Piece.flat_join, map_flat_piecesAll]

/-- Parameters stay on one line, and the result follows a colon. -/
theorem written_callable (callee : TypeExpr) (ps : List Parameter) (result : TypeExpr) :
    written level unit depth (.callable callee ps result) =
      written level unit depth callee ++ '(' ::
        ([',', ' '].intercalate (ps.map (writtenParameter level unit depth)) ++
        ')' :: ':' :: ' ' :: written level unit depth result) := by
  simp [written, Piece.flat_join, map_flat_piecesParameters]

/-- A literal is its body between the quotes it had. -/
theorem written_literal (quote : Quote) (body : Text) :
    written level unit depth (.literal quote body) = quote.char :: (body ++ [quote.char]) := by
  simp [written]

/-- Nothing stands between the parentheses and the type in them. -/
theorem written_group (inner : TypeExpr) :
    written level unit depth (.group inner) = '(' :: (written level unit depth inner ++ [')']) := by
  simp [written]

/-- The clauses of a conditional stand one step deeper, and the three gaps before them break
together. -/
theorem written_conditional (subject bound consequent alternative : TypeExpr) :
    written level unit depth (.conditional subject bound consequent alternative) =
      written level unit depth subject ++
        (gapText level unit .clauses (depth + 1) [' '] ++ 'i' :: 's' :: ' ' ::
        (written level unit (depth + 1) bound ++
        (gapText level unit .clauses (depth + 1) [' '] ++ '?' :: ' ' ::
        (written level unit (depth + 1) consequent ++
        (gapText level unit .clauses (depth + 1) [' '] ++ ':' :: ' ' ::
        written level unit (depth + 1) alternative))))) := by
  simp [written]

theorem written_ellipsis : written level unit depth .ellipsis = ['.', '.', '.'] := rfl

/-- One space parts a modifier from what it modifies. -/
theorem written_qualified (modifier target : TypeExpr) :
    written level unit depth (.qualified modifier target) =
      written level unit depth modifier ++ ' ' :: written level unit depth target := by
  simp [written]

/-- A key has its question mark and its colon at it, and the value behind a space. -/
theorem writtenEntry_keyed (key : TypeExpr) (isOptional : Bool) (value : TypeExpr) :
    writtenEntry level unit depth (.keyed key isOptional value) =
      written level unit depth key ++ ((if isOptional then ['?'] else []) ++
        ':' :: ' ' :: written level unit depth value) := by
  cases isOptional <;> simp [written, writtenEntry]

/-- The name stands behind a space, but at once behind an ellipsis. -/
theorem writtenParameter_named (type : TypeExpr) (name : Text) :
    writtenParameter level unit depth (.named type name) =
      written level unit depth type ++ ((if type.isEllipsis then [] else [' ']) ++ name) := by
  cases h : type.isEllipsis <;> simp [written, writtenParameter, piecesParameter, h]

end Equations

/-- The lines of a type, put one under the other, are the arranged tree as one text. -/
theorem unpieces_lines (t : TypeExpr) (o : Options) (level : WrapLevel) :
    Text.unpieces (t.lines o level) =
      (arrange o.expandNull t).written level o.indentUnit 0 :=
  Piece.unpieces_render level o.indentUnit _

end TypeExpr

end Docblock
