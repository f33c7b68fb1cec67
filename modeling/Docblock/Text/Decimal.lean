import Docblock.Text.Blank

/-!
# Reading numerals

A count is written in decimal digits, perhaps with a `+` in front, and has to be a 64-bit word.
-/

namespace Docblock.Text

/-- The value of a row of digits, if it is one and not empty. -/
def readDigits? (t : Text) : Option Nat :=
  if t.isEmpty || !t.all Char.isDigit then none
  else some (t.foldl (fun n c => 10 * n + (c.toNat - '0'.toNat)) 0)

/-- The word with the given value, if there is one. -/
def wordOf? (n : Nat) : Option UInt64 := if n < UInt64.size then some n.toUInt64 else none

/-- The 64-bit word that a numeral denotes. -/
def readWord? : Text → Option UInt64
  | '+' :: digits => (readDigits? digits).bind wordOf?
  | digits => (readDigits? digits).bind wordOf?

end Docblock.Text
