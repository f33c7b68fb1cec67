import Docblock.Text.Blank
import Docblock.Text.Graphic

/-!
# Quoted text

A text between double quotes in which every character can be seen: quotes, backslashes and the
common control characters are escaped by a letter, and all else that does not show by itself by its
code.
-/

namespace Docblock.Text

/-- The code of a character as an escape. -/
def codeEscape (c : Char) : Text := "\\u\x7b".toList ++ Nat.toDigits 16 c.toNat ++ ['}']

/-- A character as it stands in a quoted text. -/
def quotedChar (c : Char) : Text :=
  if c = '"' || c = '\\' then ['\\', c]
  else if c = '\n' then ['\\', 'n']
  else if c = '\t' then ['\\', 't']
  else if c = '\r' then ['\\', 'r']
  else if c.toNat = 0 then ['\\', '0']
  else if isGraphic c then [c]
  else codeEscape c

/-- A text between double quotes. -/
def quoted (t : Text) : Text := ['"'] ++ t.flatMap quotedChar ++ ['"']

end Docblock.Text
