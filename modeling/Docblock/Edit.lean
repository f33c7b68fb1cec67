import Docblock.Text.Offset

/-!
# Edits

An edit replaces a range of bytes of a text. Several edits are applied at once: all ranges are
ranges of the text as it is before.

The pass goes from the front of the text to its end and fails at the first edit that cannot be
applied. `Docblock.Proofs.Edit.Simultaneous` proves that it is the same to replace the ranges one
after the other from the last, tells exactly when edits can be applied, and when their order
matters.
-/

namespace Docblock

/-- The replacement of the bytes from `start` up to `stop`. -/
structure Edit where
  start : Nat
  stop : Nat
  replacement : Text
deriving DecidableEq

/-- Why edits cannot be applied. -/
inductive EditError where
  /-- A range ends before it starts. -/
  | reversed
  /-- Two ranges share bytes. -/
  | overlapping
  /-- A range goes beyond the text or cuts a character. -/
  | outOfRange
deriving DecidableEq

/-- The text of an error. -/
def EditError.message : EditError → Text
  | .reversed => "text edit start must not exceed end".toList
  | .overlapping => "overlapping edits are not supported".toList
  | .outOfRange => "text edit range does not fit the text".toList

namespace Edit

/-- Whether an edit leaves the text as it is. -/
def isNoop (source : Text) (e : Edit) : Bool :=
  Text.slice? e.start e.stop source == some e.replacement

/-- Edits are applied in the order of their starts, and of their stops among equal starts. -/
def le (a b : Edit) : Bool := a.start < b.start || (a.start == b.start && a.stop ≤ b.stop)

/-- The text from the byte offset `cursor` on, with edits in their order applied to it. -/
def applyFrom (source : Text) (cursor : Nat) : List Edit → Except EditError Text
  | [] =>
    match Text.splitAtByte? cursor source with
    | some (_, tail) => .ok tail
    | none => .error .outOfRange
  | e :: es =>
    if e.start < cursor then .error .overlapping
    else
      match Text.slice? cursor e.start source with
      | some kept => do
        let tail ← applyFrom source e.stop es
        return kept ++ e.replacement ++ tail
      | none => .error .outOfRange

/-- The text with all edits applied. -/
def apply (source : Text) (edits : List Edit) : Except EditError Text :=
  if edits.all fun e => e.start ≤ e.stop then applyFrom source 0 (edits.mergeSort le)
  else .error .reversed

end Edit

end Docblock
