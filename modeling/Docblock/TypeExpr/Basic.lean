import Docblock.Text.Blank

/-!
# Type expressions

The type that a tag of a doc comment names, as a tree. The tree keeps every token of the written
form except its layout: grouping parentheses, the two spellings of an array of one item type, and
the quote of a literal are all there.

Which trees can be read at all is not part of the definition. It is `WellFormed` in
`Docblock.Proofs.TypeExpr.Shape`, which holds of every tree that is read, and of which it is proved
that it is written so that it can be read again.
-/

namespace Docblock

/-- The mark that encloses a literal. -/
inductive Quote where
  | single
  | double
deriving DecidableEq

/-- The character of a quote. -/
def Quote.char : Quote → Char
  | .single => '\''
  | .double => '"'

/-- The two names of an array that is given by its item type alone. -/
inductive SequenceKind where
  | array
  | list
deriving DecidableEq

/-- The word that names a kind of sequence. -/
def SequenceKind.word : SequenceKind → Text
  | .array => "array".toList
  | .list => "list".toList

mutual

/-- A type as a doc comment writes it. -/
inductive TypeExpr where
  /-- `?T` -/
  | nullable (inner : TypeExpr)
  /-- A name, keyword or variable: `int`, `\A\B`, `positive-int`, `$this`. -/
  | named (name : Text)
  /-- `Base<A, B>` -/
  | generic (base : TypeExpr) (arguments : List TypeExpr)
  /-- `Owner::MEMBER` -/
  | constant (owner member : TypeExpr)
  /-- An array with known entries: a braced list after the word `array`. -/
  | shape (entries : List ShapeEntry)
  /-- `array<K, V>` -/
  | record (key value : TypeExpr)
  /-- `array<T>` or `list<T>` -/
  | sequence (kind : SequenceKind) (item : TypeExpr)
  /-- `T[]` -/
  | arrayOf (item : TypeExpr)
  /-- `A | B` -/
  | union (branches : List TypeExpr)
  /-- `callee(A, B $b): R` -/
  | callable (callee : TypeExpr) (parameters : List Parameter) (result : TypeExpr)
  /-- A literal between quotes; its escapes stay as they are written. -/
  | literal (quote : Quote) (body : Text)
  /-- `(T)` -/
  | group (inner : TypeExpr)
  /-- `subject is bound ? consequent : alternative` -/
  | conditional (subject bound consequent alternative : TypeExpr)
  /-- `...` -/
  | ellipsis
  /-- `modifier target`, an argument such as `covariant T`. -/
  | qualified (modifier target : TypeExpr)

/-- One entry of a shape. Only an entry with a key can be optional. -/
inductive ShapeEntry where
  | positional (value : TypeExpr)
  | keyed (key : TypeExpr) (isOptional : Bool) (value : TypeExpr)

/-- One parameter of a callable. -/
inductive Parameter where
  | unnamed (type : TypeExpr)
  | named (type : TypeExpr) (name : Text)

end

instance : Inhabited TypeExpr := ⟨.ellipsis⟩

/-- Whether a type is the word `null`, in any case of its letters. -/
def TypeExpr.isNull : TypeExpr → Bool
  | .named name => Text.eqIgnoringCase name "null".toList
  | _ => false

/-- Whether a type is the bare `...`. -/
def TypeExpr.isEllipsis : TypeExpr → Bool
  | .ellipsis => true
  | _ => false

/-- Whether an entry has a key. -/
def ShapeEntry.isKeyed : ShapeEntry → Bool
  | .positional _ => false
  | .keyed .. => true

end Docblock
