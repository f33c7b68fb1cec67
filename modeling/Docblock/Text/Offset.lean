import Docblock.Text.Blank

/-!
# Byte offsets

Positions in a text are counted in the bytes of its UTF-8 form. A position inside a character, or
beyond the end, cuts nothing.

A cut is known by the two parts it gives: `Docblock.Proofs.Text.Offsets` turns every fact about
offsets into one about texts that are put together, and `Docblock.Proofs.Text.Bytes` compares scans
of bytes with scans of characters.
-/

namespace Docblock.Text

/-- The number of bytes of the text's UTF-8 form. -/
def byteSize (t : Text) : Nat := t.foldr (fun c size => c.utf8Size + size) 0

/-- The text before and from the byte offset `n`, if a character begins there or the text ends
there. -/
def splitAtByte? (n : Nat) : Text → Option (Text × Text)
  | [] => if n = 0 then some ([], []) else none
  | c :: r =>
    if n = 0 then some ([], c :: r)
    else if c.utf8Size ≤ n then
      (splitAtByte? (n - c.utf8Size) r).map fun (before, after) => (c :: before, after)
    else none

/-- The text from the byte offset `start` up to `stop`. -/
def slice? (start stop : Nat) (t : Text) : Option Text := do
  if stop < start then none
  let (_, tail) ← splitAtByte? start t
  let (middle, _) ← splitAtByte? (stop - start) tail
  return middle

end Docblock.Text
