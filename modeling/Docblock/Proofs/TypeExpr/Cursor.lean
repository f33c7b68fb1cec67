import Docblock.Proofs.Text.Bytes
import Docblock.TypeExpr.Parser

/-!
# Reading a type with a cursor

`TypeExpr.read` passes on the text that is left. Here the same grammar is read with a cursor that
moves through one text, as a reader does that holds a text as bytes: a cursor is two offsets in
bytes, and whatever is looked at is a slice of the text or a scan over its bytes.

What cannot be seen of `TypeExpr.read` can be seen here. A slice off the border of a character, or
out of the text, makes the run go astray (`Halt.astray`); so does a move of the cursor to such an
offset, or to one in front of the last token, since every move is checked. What a rule of the
grammar is made of stands here: slices, moves, and the tokens. The rules are in
`Docblock.Proofs.TypeExpr.Stepwise`, where the recursion has fuel, and a run that needs more is
`Halt.exhausted`.

Marks and names are looked for in the bytes, by tests that look at one byte at a time. That these
tests find the ends which tests of characters find is proved in
`Docblock.Proofs.TypeExpr.CursorTokens`, since no byte of a character beyond ASCII is one of an
ASCII character. It is not assumed here.
-/

namespace Docblock

/-- A text, and the place it comes from, which errors name. -/
structure Passage where
  location : Text
  text : Text

/-- Where a reader stands in a text: the bytes it has looked past, and the bytes up to the end of
the last token. The layout that was skipped lies between the two. -/
structure Cursor where
  pos : Nat
  stop : Nat

/-- Both offsets lie between characters of the text, the end of the last token not behind the
other. -/
def Cursor.isIn (text : Text) (c : Cursor) : Bool :=
  decide (c.stop ≤ c.pos) && (text.splitAtByte? c.stop).isSome && (text.splitAtByte? c.pos).isSome

/-- The check of a move, as a statement about the text. -/
theorem Cursor.isIn_iff {text : Text} {c : Cursor} :
    c.isIn text = true ↔ c.stop ≤ c.pos ∧ text.IsBoundary c.stop ∧ text.IsBoundary c.pos := by
  rw [isIn, Bool.and_eq_true, Bool.and_eq_true, decide_eq_true_iff, Text.isSome_splitAtByte?_iff,
    Text.isSome_splitAtByte?_iff, and_assoc]

/-- Why a run has no result. -/
inductive Halt where
  /-- An offset was used that is out of the text or inside a character. -/
  | astray
  /-- The fuel was not enough. -/
  | exhausted
  /-- The text is not what the grammar asks for. -/
  | failed (e : ParseError)

/-- A computation that reads a text with a cursor. -/
abbrev CursorM := ReaderT Passage (StateT Cursor (Except Halt))

namespace CursorM

/-! ## Slices and moves -/

/-- A text cut in two at an offset. -/
def cut (n : Nat) (t : Text) : CursorM (Text × Text) :=
  match t.splitAtByte? n with
  | some parts => return parts
  | none => throw .astray

/-- The text from the cursor on. -/
def ahead : CursorM Text := do
  let (_, rest) ← cut (← get).pos (← read).text
  return rest

/-- The only way in which a cursor moves: to a place in the text. -/
def moveTo (c : Cursor) : CursorM Unit := do
  if c.isIn (← read).text then set c else throw .astray

/-- Passes a token of `n` bytes. -/
def advance (n : Nat) : CursorM Unit := do
  let c ← get
  moveTo ⟨c.pos + n, c.pos + n⟩

/-- Ends the run with an error at the cursor, which quotes what stands there. -/
def fail {α : Type} (cause : ParseCause) (path : List Rule) : CursorM α := do
  let c ← get
  let excerpt := ParseError.excerptOf (← ahead)
  throw (.failed {
    cause, offset := c.pos, excerpt
    path := ['.'].intercalate ((← read).location :: path.map Rule.label) })

/-! ## Tokens -/

def isLayoutByte (b : UInt8) : Bool := b == 0x20 || b == 0x09 || b == 0x0A || b == 0x0D

/-- An ASCII letter or digit. -/
def isAlphanumByte (b : UInt8) : Bool :=
  (0x30 ≤ b && b ≤ 0x39) || (0x41 ≤ b && b ≤ 0x5A) || (0x61 ≤ b && b ≤ 0x7A)

/-- A byte of a name. All bytes of a character beyond ASCII belong to names. -/
def isNameByte (b : UInt8) : Bool :=
  isAlphanumByte b || b == 0x5C || b == 0x2D || b == 0x5F || b == 0x2A || 0x80 ≤ b

/-- A byte of a parameter's name. -/
def isParameterByte (b : UInt8) : Bool := isAlphanumByte b || b == 0x5F || 0x80 ≤ b

/-- Moves the cursor in front of the next token. -/
def skipLayout : CursorM Unit := do
  let c ← get
  let gap := (← ahead).bytes.takeWhile isLayoutByte
  moveTo { c with pos := c.pos + gap.length }

/-- Whether the text goes on so after layout. -/
def peek (start : Text) : CursorM Bool := do
  skipLayout
  return start.isPrefixOf (← ahead)

/-- Passes a mark if it stands behind the layout. -/
def eat (m : Mark) : CursorM Bool := do
  if ← peek m.text then
    advance m.text.byteSize
    return true
  else return false

/-- Passes a mark, or fails. -/
def expect (path : List Rule) (m : Mark) : CursorM Unit := do
  if ← eat m then return ()
  else fail (.expected m) path

/-- Whether an argument of a generic type ends here. -/
def endsArgument : CursorM Bool := do
  if ← peek Mark.comma.text then return true else peek Mark.closeAngle.text

/-- Passes the word unless it is the beginning of a longer name. -/
def eatWord (word : Text) : CursorM Bool := do
  if ← peek word then
    let next := (← read).text.bytes[(← get).pos + word.byteSize]?
    if next.any isNameByte then return false
    else
      advance word.byteSize
      return true
  else return false

/-- Passes a word that begins with `start`, and goes on with at least one byte of a kind. -/
def eatStarting (start : Text) (p : UInt8 → Bool) : CursorM (Option Text) := do
  let rest ← ahead
  if rest.bytes.length < start.byteSize then throw .astray
  let scanned := ((rest.bytes.drop start.byteSize).takeWhile p).length
  if scanned = 0 then return none
  else
    let (word, _) ← cut (start.byteSize + scanned) rest
    advance (start.byteSize + scanned)
    return some word

/-- Passes a name, with the marks that may stand in front of it. -/
def eatName : CursorM (Option Text) := do
  skipLayout
  let rest ← ahead
  eatStarting (Token.leading ["&$".toList, "$".toList] rest) isNameByte

/-- Passes the name of a parameter. -/
def eatParameterName : CursorM (Option Text) := do
  skipLayout
  let rest ← ahead
  match Token.parameterStarts.find? (·.isPrefixOf rest) with
  | some start => eatStarting start isParameterByte
  | none => return none

/-- The offset of the quote that closes a literal, counted from `offset`. A backslash takes the
character after it along. -/
def closing? (quote : Char) : (escaped : Bool) → (offset : Nat) → Text → Option Nat
  | _, _, [] => none
  | true, offset, c :: r => closing? quote false (offset + c.utf8Size) r
  | false, offset, c :: r =>
    if c = '\\' then closing? quote true (offset + c.utf8Size) r
    else if c = quote then some offset
    else closing? quote false (offset + c.utf8Size) r

/-- A literal, whose quote stands at the cursor. -/
def literal (path : List Rule) (quote : Quote) : CursorM TypeExpr := do
  let c ← get
  let (_, rest) ← cut (c.pos + 1) (← read).text
  match closing? quote.char false 0 rest with
  | some offset =>
    let (body, _) ← cut offset rest
    advance (offset + 2)
    return .literal quote body
  | none => fail .unterminated path

end CursorM

end Docblock
