import Docblock.Yaml.Plain

/-!
# Scalars in lines of their own

After a bar the lines of a scalar are kept, after an angle bracket they are folded. The lines begin
at one column, which the first of them shows unless a digit gives it. A sign says what becomes of
the line ends after the last line.
-/

namespace Docblock.Yaml

/-- What becomes of the line ends after the last line of a scalar. -/
inductive Chomping where
  /-- None is kept. -/
  | strip
  /-- The first is kept. -/
  | clip
  /-- All are kept. -/
  | keep
deriving DecidableEq

/-- What the first line of a block scalar says. -/
structure BlockHeader where
  chomping : Chomping
  /-- The columns by which the lines are indented further than the block around them, if it is
  given. -/
  indent : Option Nat

/-- The sign for chomping at the front, and what follows it. -/
def readChomping (s : List Glyph) : Chomping × List Glyph :=
  if nextIsAny ['+'] s then (.keep, s.drop 1)
  else if nextIsAny ['-'] s then (.strip, s.drop 1)
  else (.clip, s)

/-- The digit for the indentation at the front, and what follows it. It may not be zero. -/
def readIndent? (s : List Glyph) : Option (Option Nat × List Glyph) :=
  match s with
  | [] => some (none, [])
  | g :: r =>
    if !g.char.isDigit then some (none, g :: r)
    else if g.char = '0' then none
    else some (some (g.char.toNat - '0'.toNat), r)

/-- The header of a block scalar after its bar or angle bracket, and the lines below it. The sign
and the digit may stand in either order. -/
def readHeader? (s : List Glyph) : Option (BlockHeader × List Glyph) := do
  let (indent, r) ← readIndent? s
  let (chomping, r) := readChomping r
  let (indent, r) ← if indent.isNone then readIndent? r else some (indent, r)
  return (⟨chomping, indent⟩, ← endLine? r)

/-- Blank lines in front of a line of a block scalar. -/
structure BlankLines where
  /-- Their line ends. -/
  breaks : Text := []
  /-- The greatest column at which one of them, or the line after them, goes on after its spaces. -/
  width : Nat := 0
  rest : List Glyph := []

/-- Whether a glyph stands before the column `indent`, or anywhere if it is not known. -/
def inIndentation (indent : Option Nat) (g : Glyph) : Bool := indent.all fun n => g.column < n

/-- Passes over blank lines and the spaces before the column `indent`, or before any column if it is
not known. A tab may not stand there. -/
def blankLines? (indent : Option Nat) : List Glyph → Option BlankLines
  | [] => some {}
  | g :: r =>
    if inIndentation indent g && g.char = ' ' then blankLines? indent r
    else if inIndentation indent g && g.char = '\t' then none
    else if g.isBreak then do
      let more ← blankLines? indent r
      return { more with breaks := g.char :: more.breaks, width := max g.column more.width }
    else some { width := g.column, rest := g :: r }

theorem blankLines?_length {indent : Option Nat} {s : List Glyph} {b : BlankLines}
    (h : blankLines? indent s = some b) : b.rest.length ≤ s.length := by
  fun_induction blankLines? indent s generalizing b with
  | case1 => cases h; exact Nat.le_refl _
  | case2 g r _ ih => exact Nat.le_succ_of_le (ih h)
  | case3 => cases h
  | case4 g r _ _ _ ih =>
    obtain ⟨more, hmore, heq⟩ := Option.bind_eq_some_iff.1 h
    have hle := ih hmore
    cases heq
    exact Nat.le_succ_of_le hle
  | case5 => cases h; exact Nat.le_refl _

/-- The line end before a line of a folded scalar. It is a line break of the text beside a line that
begins with white space, and else a space, or nothing before further line ends. -/
def joinedBreak (folds besideGap : Bool) (lineBreak breaks : Text) : Text :=
  if folds && lineBreak = ['\n'] && !besideGap then if breaks.isEmpty then [' '] else []
  else lineBreak

/-- What is kept of the end of the last line and of the blank lines after it. -/
def Chomping.tail (chomping : Chomping) (lineBreak breaks : Text) : Text :=
  match chomping with
  | .strip => []
  | .clip => lineBreak
  | .keep => lineBreak ++ breaks

/-- A block scalar, and what follows it. -/
structure BlockScalar where
  text : Text
  rest : List Glyph

/-- The lines of a block scalar at the column `indent`. Before them stand a line with the end
`lineBreak`, which begins with white space if `afterGap`, and then blank lines with the ends
`breaks`. -/
def blockLines? (folds : Bool) (chomping : Chomping) (indent : Nat) (afterGap : Bool)
    (lineBreak breaks : Text) (s : List Glyph) : Option BlockScalar :=
  match s with
  | [] => some ⟨chomping.tail lineBreak breaks, []⟩
  | g :: r =>
    if g.column ≠ indent then some ⟨chomping.tail lineBreak breaks, g :: r⟩
    else
      match h : blankLines? (some indent) ((r.dropWhile (!·.isBreak)).drop 1) with
      | none => none
      | some blank => do
        have : blank.rest.length < (g :: r).length := by
          have h₁ := blankLines?_length h
          have h₂ := length_dropWhile_le (!·.isBreak) r
          simp only [List.length_drop, List.length_cons] at *
          omega
        let line := g :: r.takeWhile (!·.isBreak)
        let more ← blockLines? folds chomping indent g.isGap
          (textOf ((r.dropWhile (!·.isBreak)).take 1)) blank.breaks blank.rest
        let front := joinedBreak folds (afterGap || g.isGap) lineBreak breaks ++ breaks
        return { more with text := front ++ textOf line ++ more.text }
termination_by s.length
decreasing_by exact this

/-- A block scalar after its bar or angle bracket; `level` is the least column at which its lines
may stand. -/
def block? (folds : Bool) (level : Nat) (s : List Glyph) : Option BlockScalar := do
  let (header, r) ← readHeader? s
  let given := header.indent.map (level - 1 + ·)
  let blank ← blankLines? given r
  let indent := given.getD (max (max blank.width level) 1)
  blockLines? folds header.chomping indent false [] blank.breaks blank.rest

end Docblock.Yaml
