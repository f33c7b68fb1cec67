import Docblock.TypeExpr.Basic

/-!
# The place of `null`

A union is written with its `null` branches in front, the others behind in their order. With
expansion `?T` becomes the union of `null` and `T`, a nullable branch of a union becomes two
branches of that union, and one `null` is kept of several. `TypeExpr.arrange` does this at every
depth, so that writing a type is writing the arranged tree from left to right.

Without expansion arranging only moves branches, and doing it twice is doing it once
(`Docblock.Proofs.TypeExpr.Arranged`). With expansion the tree that is read back may be another one:
`Docblock.Proofs.TypeExpr.Meaning` tells when it means the same, and
`Docblock.Proofs.TypeExpr.ExpandedAgain` when it is written the same way again.
-/

namespace Docblock.TypeExpr

/-- The word `null` as a type. -/
def null : TypeExpr := .named "null".toList

/-- Branches with the `null` ones in front; with `once` only the first of these is kept. -/
def nullsFirst (once : Bool) (branches : List TypeExpr) : List TypeExpr :=
  let nulls := branches.filter isNull
  (if once then nulls.take 1 else nulls) ++ branches.filter (!·.isNull)

mutual

/-- The tree as it is written: every union with its `null` branches in front, and with `expand` no
nullable type left. -/
def arrange (expand : Bool) : TypeExpr → TypeExpr
  | .nullable inner =>
    if expand then .union (nullsFirst true [null, arrange expand inner])
    else .nullable (arrange expand inner)
  | .named name => .named name
  | .generic base arguments => .generic (arrange expand base) (arrangeAll expand arguments)
  | .constant owner member => .constant (arrange expand owner) (arrange expand member)
  | .shape entries => .shape (arrangeEntries expand entries)
  | .record key value => .record (arrange expand key) (arrange expand value)
  | .sequence kind item => .sequence kind (arrange expand item)
  | .arrayOf item => .arrayOf (arrange expand item)
  | .union branches => .union (nullsFirst expand (arrangeBranches expand branches))
  | .callable callee parameters result =>
    .callable (arrange expand callee) (arrangeParameters expand parameters) (arrange expand result)
  | .literal quote body => .literal quote body
  | .group inner => .group (arrange expand inner)
  | .conditional subject bound consequent alternative =>
    .conditional (arrange expand subject) (arrange expand bound) (arrange expand consequent)
      (arrange expand alternative)
  | .ellipsis => .ellipsis
  | .qualified modifier target => .qualified (arrange expand modifier) (arrange expand target)

/-- Each of several types, arranged. -/
def arrangeAll (expand : Bool) : List TypeExpr → List TypeExpr
  | [] => []
  | t :: ts => arrange expand t :: arrangeAll expand ts

/-- The branches of a union, arranged; with `expand` a nullable branch makes two. -/
def arrangeBranches (expand : Bool) : List TypeExpr → List TypeExpr
  | [] => []
  | .nullable inner :: ts =>
    (if expand then [null, arrange expand inner] else [.nullable (arrange expand inner)]) ++
      arrangeBranches expand ts
  | t :: ts => arrange expand t :: arrangeBranches expand ts

/-- The entries of a shape, arranged. -/
def arrangeEntries (expand : Bool) : List ShapeEntry → List ShapeEntry
  | [] => []
  | .positional value :: es => .positional (arrange expand value) :: arrangeEntries expand es
  | .keyed key isOptional value :: es =>
    .keyed (arrange expand key) isOptional (arrange expand value) :: arrangeEntries expand es

/-- The parameters of a callable, arranged. -/
def arrangeParameters (expand : Bool) : List Parameter → List Parameter
  | [] => []
  | .unnamed type :: ps => .unnamed (arrange expand type) :: arrangeParameters expand ps
  | .named type name :: ps => .named (arrange expand type) name :: arrangeParameters expand ps

end

end Docblock.TypeExpr
