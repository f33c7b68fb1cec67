import Docblock.Text.Blank

/-!
# Options

What a user may choose about the layout of a comment, and the two measures that follow from it: the
columns a text takes, and the unit in which a broken type is indented.

Columns are 64-bit words. A width below 2^64 is exact, and sums wrap around beyond that.

Where a law about widths passes from words to columns (`Docblock.Proofs.Text.Columns`) it asks that
they stay below 2^64. `Options.displayWidth` is what the program measures; `Options.columns` is the
same sum without bound.
-/

namespace Docblock

/-- The choices that govern the layout. -/
structure Options where
  /-- Columns a line may take. -/
  printWidth : UInt64 := 80
  /-- Columns a line of a comment may take, where it differs from `printWidth`. -/
  docPrintWidth : Option UInt64 := none
  /-- Columns a tab takes. -/
  tabWidth : UInt64 := 4
  /-- Indent with one tab instead of spaces. -/
  useTabs : Bool := false
  /-- A unit of indentation that wins over tabs and spaces. -/
  indent : Option Text := none
  /-- Break prose and descriptions where a line would grow too wide. -/
  wrapText : Bool := false
  /-- Write a nullable type as a union with `null`. -/
  expandNull : Bool := false
deriving DecidableEq

namespace Options

/-- The width a comment may take, its indentation included. -/
def docWidth (o : Options) : UInt64 := o.docPrintWidth.getD o.printWidth

/-- One step of indentation inside a broken type. -/
def indentUnit (o : Options) : Text :=
  match o.indent with
  | some unit => unit
  | none => if o.useTabs then ['\t'] else List.replicate o.tabWidth.toNat ' '

/-- The same options with another print width. -/
def withPrintWidth (o : Options) (width : UInt64) : Options := { o with printWidth := width }

/-- The columns one character takes. -/
def charWidth (o : Options) (c : Char) : UInt64 := if c = '\t' then o.tabWidth else 1

/-- The columns a text takes: one for each character, and the tab width for a tab. -/
def displayWidth (o : Options) (t : Text) : UInt64 :=
  t.foldr (fun c width => o.charWidth c + width) 0

end Options

end Docblock
