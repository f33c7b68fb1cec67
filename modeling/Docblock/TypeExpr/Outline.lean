import Docblock.Text.Quoted
import Docblock.TypeExpr.Basic

/-!
# The outline of a type

A type with one line for each node of its tree: the kind of the node, its own text, and before it
the part it plays in the node above, from which it is indented by two spaces.

The outline shows the tree as it was read, with nothing arranged or expanded. It is for looking at
what the reader makes of a text; no other part of the library depends on it.
-/

namespace Docblock.TypeExpr

/-- A line of an outline. -/
def outlineLine (depth : Nat) (label : Text) (text : Text) : Text :=
  List.replicate (2 * depth) ' ' ++ label ++ text

/-- The label of an entry. -/
def entryLabel (isOptional : Bool) : Text :=
  if isOptional then "entry?: ".toList else "entry: ".toList

mutual

/-- The lines of a type at a depth, with a label before the first. -/
def outline (depth : Nat) (label : Text) : TypeExpr → List Text
  | .named name => [outlineLine depth label ("SimpleValue ".toList ++ Text.quoted name)]
  | .ellipsis => [outlineLine depth label "Spread".toList]
  | .literal quote body =>
    [outlineLine depth label
      ("StringLiteral ".toList ++ Text.quoted body ++ [' ', '(', quote.char, ')'])]
  | .nullable inner =>
    outlineLine depth label "Maybe".toList :: outline (depth + 1) [] inner
  | .group inner =>
    outlineLine depth label "Parentheses".toList :: outline (depth + 1) [] inner
  | .arrayOf item =>
    outlineLine depth label "ArraySquareBracket".toList :: outline (depth + 1) [] item
  | .generic base arguments =>
    outlineLine depth label "WithGenerics".toList :: outline (depth + 1) "node: ".toList base ++
      outlineAll (depth + 1) "generic: ".toList arguments
  | .constant owner member =>
    outlineLine depth label "StaticAccess".toList :: outline (depth + 1) "class: ".toList owner ++
      outline (depth + 1) "member: ".toList member
  | .shape entries =>
    outlineLine depth label "TupleDict".toList :: outlineEntries (depth + 1) entries
  | .record key value =>
    outlineLine depth label "Record".toList :: outline (depth + 1) "key: ".toList key ++
      outline (depth + 1) "value: ".toList value
  | .sequence kind item =>
    outlineLine depth label ("ArrayList ".toList ++ kind.word) :: outline (depth + 1) [] item
  | .union branches =>
    outlineLine depth label "Union".toList :: outlineAll (depth + 1) [] branches
  | .callable callee parameters result =>
    outlineLine depth label "Callable".toList :: outline (depth + 1) "node: ".toList callee ++
      outlineParameters (depth + 1) parameters ++ outline (depth + 1) "return: ".toList result
  | .conditional subject bound consequent alternative =>
    outlineLine depth label "Conditional".toList :: outline (depth + 1) "check: ".toList subject ++
      outline (depth + 1) "is: ".toList bound ++ outline (depth + 1) "then: ".toList consequent ++
      outline (depth + 1) "else: ".toList alternative
  | .qualified modifier target =>
    outlineLine depth label "ModifierKeyword".toList ::
      outline (depth + 1) "modifier: ".toList modifier ++
      outline (depth + 1) "target: ".toList target

/-- The lines of several types with the same label. -/
def outlineAll (depth : Nat) (label : Text) : List TypeExpr → List Text
  | [] => []
  | t :: ts => outline depth label t ++ outlineAll depth label ts

/-- The lines of the entries of a shape; a value stands under its key. -/
def outlineEntries (depth : Nat) : List ShapeEntry → List Text
  | [] => []
  | .positional value :: es =>
    outline depth (entryLabel false) value ++ outlineEntries depth es
  | .keyed key isOptional value :: es =>
    outline depth "key: ".toList key ++ outline (depth + 1) (entryLabel isOptional) value ++
      outlineEntries depth es

/-- The lines of the parameters of a callable. -/
def outlineParameters (depth : Nat) : List Parameter → List Text
  | [] => []
  | .unnamed type :: ps => outline depth "param: ".toList type ++ outlineParameters depth ps
  | .named type name :: ps =>
    outline depth ("param ".toList ++ name ++ ": ".toList) type ++ outlineParameters depth ps

end

end Docblock.TypeExpr
