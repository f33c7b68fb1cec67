import Docblock.TypeExpr.ParseError

/-!
# The nodes of a comment

What a doc comment says is a row of nodes: lines of prose, and tags. A tag runs from its name to the
line before the next tag. Some tags begin with a type; for these the node tells the type, or why
none could be read.

A tag keeps its description as one text with line feeds, the type included, so that a tag whose type
cannot be read can be written as it was. Whether a tag has a type is decided by its title alone
(`Tag.typedTitles`).
-/

namespace Docblock

/-- What is known of the type of a tag. -/
inductive TagType where
  /-- The tag takes no type, or it was not read. -/
  | untyped
  | typed (type : TypeExpr)
  | failed (error : ParseError)

/-- A tag with its lines. -/
structure Tag where
  /-- The name with the `@` in front. -/
  name : Text
  /-- The text after the name, or after the type where there is one. -/
  description : Text
  type : TagType := .untyped

/-- A part of a comment. -/
inductive Node where
  | prose (text : Text)
  | tag (tag : Tag)

namespace Tag

/-- The name without the `@`. -/
def title (t : Tag) : Text :=
  match t.name with
  | '@' :: r => r
  | name => name

/-- The titles of the tags whose description begins with a type. -/
def typedTitles : List Text :=
  ["method", "param", "property", "property-read", "property-write", "return", "type", "throws",
    "var", "phpstan-param", "phpstan-return", "phpstan-var", "psalm-param", "psalm-return",
    "psalm-var"].map String.toList

/-- The tag as it is written without a type. -/
def written (t : Tag) : Text := t.name ++ ' ' :: t.description

end Tag

end Docblock
