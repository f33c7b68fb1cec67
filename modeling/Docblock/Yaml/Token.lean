import Docblock.Text.Blank

/-!
# Tokens

The tokens of a document. Where a block of lines begins and ends is a token as well, though nothing
is written there but the indentation.
-/

namespace Docblock.Yaml

/-- The ways in which a scalar is written. -/
inductive ScalarStyle where
  | plain
  | singleQuoted
  | doubleQuoted
  /-- Lines below a bar, which are kept. -/
  | literal
  /-- Lines below an angle bracket, which are folded. -/
  | folded
deriving DecidableEq

/-- The brackets of a sequence or a mapping. -/
inductive Bracket where
  | square
  | brace
deriving DecidableEq

/-- A token. -/
inductive Token where
  /-- A line that says how the next document is to be read. -/
  | directive
  | documentStart
  | documentEnd
  /-- The beginning of a sequence in lines. -/
  | blockSequence
  /-- The beginning of a mapping in lines. -/
  | blockMapping
  /-- The end of a sequence or mapping in lines. -/
  | blockEnd
  /-- The hyphen before an item in lines. -/
  | blockEntry
  | opening (bracket : Bracket)
  | closing (bracket : Bracket)
  | comma
  /-- What follows is a key. -/
  | key
  /-- What follows is the value of a key. -/
  | value
  /-- The next node can be referred to by this number. -/
  | anchor (number : Nat)
  /-- The node with this number again. -/
  | reference (number : Nat)
  | tag (name : Text)
  | scalar (style : ScalarStyle) (text : Text)
deriving DecidableEq

end Docblock.Yaml
