import Docblock.Text.Blank

/-!
# JSON

Values of JSON and their written form over several lines, indented by two spaces. The members of an
object keep their order.

Only what is written is modelled; nothing is read. Strings are escaped so that a value is text in
one piece, and numbers are given as the texts they are written as.
-/

namespace Docblock

/-- A value of JSON. A number is given by its numeral. -/
inductive Json where
  | null
  | number (numeral : Text)
  | string (text : Text)
  | array (items : List Json)
  | object (members : List (Text × Json))

namespace Json

/-- A natural number. -/
def ofNat (n : Nat) : Json := .number (Text.ofNat n)

/-- A value that may be missing. -/
def ofOption {α : Type} (f : α → Json) : Option α → Json
  | some a => f a
  | none => .null

/-- A control character by its code. -/
def codeEscape (c : Char) : Text :=
  let digits := Nat.toDigits 16 c.toNat
  "\\u".toList ++ List.replicate (4 - digits.length) '0' ++ digits

/-- A character as it stands in a string. -/
def stringChar (c : Char) : Text :=
  if c = '"' || c = '\\' then ['\\', c]
  else if c = '\n' then ['\\', 'n']
  else if c = '\t' then ['\\', 't']
  else if c = '\r' then ['\\', 'r']
  else if c.toNat = 0x08 then ['\\', 'b']
  else if c.toNat = 0x0C then ['\\', 'f']
  else if c.toNat < 0x20 then codeEscape c
  else [c]

/-- A string between its quotes. -/
def quote (t : Text) : Text := ['"'] ++ t.flatMap stringChar ++ ['"']

/-- A line end and the indentation of the next line. -/
def newline (depth : Nat) : Text := '\n' :: List.replicate (2 * depth) ' '

/-- Items in lines of their own between two marks, or just the marks if there are none. -/
def enclose (first last : Char) (depth : Nat) (items : List Text) : Text :=
  if items.isEmpty then [first, last]
  else
    [first] ++ [','].intercalate (items.map (newline (depth + 1) ++ ·)) ++ newline depth ++ [last]

mutual

/-- The written form of a value that stands at a depth of nesting. -/
def pretty (depth : Nat) : Json → Text
  | .null => "null".toList
  | .number numeral => numeral
  | .string text => quote text
  | .array items => enclose '[' ']' depth (prettyItems (depth + 1) items)
  | .object members => enclose '{' '}' depth (prettyMembers (depth + 1) members)

/-- The written forms of several values. -/
def prettyItems (depth : Nat) : List Json → List Text
  | [] => []
  | item :: rest => pretty depth item :: prettyItems depth rest

/-- The written forms of the members of an object. -/
def prettyMembers (depth : Nat) : List (Text × Json) → List Text
  | [] => []
  | (key, value) :: rest =>
    (quote key ++ ": ".toList ++ pretty depth value) :: prettyMembers depth rest

end

end Json

end Docblock
