import Docblock.Comment.Body
import Docblock.Comment.Fill
import Docblock.TypeExpr.Layout

/-!
# Writing a comment

The lines of a comment are composed from its nodes. A tag with a type is set with as few line breaks
as fit: the type on one line if the first word of the description fits behind it, else at the first
wrap level whose lines fit, else at the last. A tag whose type could not be read stays as it is
written. Runs of blank lines become one, and one blank line parts the prose from the first typed tag
after it.

What is composed says what the nodes say (`Docblock.Proofs.Comment.Content`), has one line that
begins with `@` for each tag (`Docblock.Proofs.Comment.TagLines`), and blank lines only where they
belong (`Docblock.Proofs.Comment.BlankLines`). Composed again it stays as it is
(`Docblock.Proofs.Comment.Blocks`). Which level is chosen, and when its lines fit, is the subject of
`Docblock.Proofs.Comment.Fitting`.
-/

namespace Docblock.Comment

/-- The first word of a description's first line, and all that follows it. Without such a word the
description only loses the spaces and tabs at its front. -/
def splitFirstWord (description : Text) : Option Text × Text :=
  let firstLine := Text.trimStart (description.takeWhile (· != '\n'))
  let otherLines := description.dropWhile (· != '\n')
  if firstLine.isEmpty then (none, description.dropWhile fun c => c == ' ' || c == '\t')
  else
    (some (Text.firstWord firstLine), Text.trimStart (Text.afterFirstWord firstLine) ++ otherLines)

/-- A line with a word behind a space at its end, if there is a word. -/
def withWord (line : Text) : Option Text → Text
  | some word => line ++ ' ' :: word
  | none => line

/-- The lines of a type at a wrap level, with the name of the tag in front: the first and the
others. -/
def headLines (o : Options) (name : Text) (type : TypeExpr) (level : WrapLevel) :
    Text × List Text :=
  let (first, rest) := type.render o level
  (name ++ ' ' :: first, rest)

/-- Whether each of several lines fits the print width. -/
def allFit (o : Options) (lines : List Text) : Bool :=
  lines.all fun line => o.displayWidth line ≤ o.printWidth

/-- The wrap level at which the type of a tag is set: the first of three that fits, or else the
last. The form on one line has to hold the first word of the description too. -/
def chooseLevel (o : Options) (name : Text) (type : TypeExpr) (word : Option Text) : WrapLevel :=
  let fits (level : WrapLevel) : Bool :=
    let (first, rest) := headLines o name type level
    allFit o (first :: rest)
  if o.displayWidth (withWord (headLines o name type .never).1 word) ≤ o.printWidth then .never
  else if fits .entries then .entries
  else if fits .arguments then .arguments
  else .clauses

/-- The lines of a tag with a type. The rest of the description is filled in after the first word,
which stands behind the type. -/
def typedLines (o : Options) (name description : Text) (type : TypeExpr) : List Text :=
  let (word, remainder) := splitFirstWord description
  let (first, rest) := headLines o name type (chooseLevel o name type word)
  (first :: rest).dropLast ++
    fill o (withWord ((first :: rest).getLast (List.cons_ne_nil first rest)) word) remainder

/-- The lines of a tag that stays as it is written. -/
def verbatimLines (t : Tag) : List Text := (Text.pieces t.written).map Text.trimEnd

/-- The lines of a tag. -/
def tagLines (o : Options) (t : Tag) : List Text :=
  match t.type with
  | .typed type => typedLines o t.name t.description type
  | .failed _ => verbatimLines t
  | .untyped => fill o [] t.written

/-- Whether a tag has a type. -/
def isTyped (t : Tag) : Bool :=
  match t.type with
  | .typed _ => true
  | _ => false

/-- The lines of several nodes. `afterProse` says that prose stands just before them, `parted` that
the blank line between prose and typed tags has been written. -/
def composeNodes (o : Options) (afterProse parted : Bool) : List Node → List Text
  | [] => []
  | .prose text :: rest => fill o [] text ++ composeNodes o (!Text.allBlank text) parted rest
  | .tag t :: rest =>
    let part := isTyped t && afterProse && !parted
    (if part then [[]] else []) ++ tagLines o t ++ composeNodes o false (parted || part) rest

/-- The lines with each run of blank lines made one empty line; a blank line stands before them if
`afterBlank`. -/
def collapseBlank (afterBlank : Bool) : List Text → List Text
  | [] => []
  | line :: rest =>
    if Text.allBlank line then
      (if afterBlank then [] else [[]]) ++ collapseBlank true rest
    else line :: collapseBlank false rest

/-- The lines of a comment with the given nodes, without delimiters and margin. -/
def compose (o : Options) (nodes : List Node) : List Text :=
  collapseBlank false (composeNodes o false false nodes)

/-- The lines of a comment, composed anew. -/
def format (o : Options) (comment : Text) : List Text := compose o (parse comment)

end Docblock.Comment
