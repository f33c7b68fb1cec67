import Docblock.Text.Blank

/-!
# Paths

A path is a text, and keeps the spelling it was given. Two paths compare by their components: a `.`
that is not at the front and a doubled slash count for nothing. A location is the place of a file
itself, given by the names that lead to it from the root.

The comparison by components is a linear order up to spelling, and a sorted set of paths is strictly
increasing in it (`Docblock.Proofs.Path.Order`). The common directory of several paths is the
greatest one that leads to all (`Docblock.Proofs.Path.CommonDirectory`). A `..` is a component like
others: no path is resolved by its text.
-/

namespace Docblock

/-- A step of a path. The constructors stand in the order in which steps compare. -/
inductive Component where
  /-- The root, at the front of an absolute path. -/
  | root
  /-- A `.` at the front of a relative path. -/
  | here
  /-- `..` -/
  | up
  | name (text : Text)
deriving DecidableEq, Ord

namespace Path

/-- The steps that the pieces between slashes stand for. -/
def componentsOfPieces (pieces : List Text) : List Component :=
  pieces.filterMap fun piece =>
    if piece = [] || piece = ['.'] then none
    else if piece = ['.', '.'] then some .up
    else some (.name piece)

/-- The components of a path. -/
def components (path : Text) : List Component :=
  let pieces := path.splitOn '/'
  let start : List Component :=
    if path.head? = some '/' then [.root]
    else if pieces.head? = some ['.'] then [.here]
    else []
  start ++ componentsOfPieces pieces

/-- Paths compare component by component. -/
def le (a b : Text) : Bool := (compare (components a) (components b)).isLE

/-- Two spellings of one path. -/
def same (a b : Text) : Bool := components a == components b

/-- The paths without those that spell the one before them again; `last` stands before them. -/
def dropRepeatsAfter (last : Text) : List Text → List Text
  | [] => []
  | path :: rest =>
    if same last path then dropRepeatsAfter last rest else path :: dropRepeatsAfter path rest

/-- The paths in order, each once and in its first spelling. -/
def sortedSet (paths : List Text) : List Text :=
  match paths.mergeSort le with
  | [] => []
  | first :: rest => first :: dropRepeatsAfter first rest

/-- A path under a directory; an absolute one stands for itself. -/
def join (directory path : Text) : Text :=
  if path.head? = some '/' || directory = [] then path
  else if directory.getLast? = some '/' then directory ++ path
  else directory ++ '/' :: path

/-- The paths up to the end of each piece that stands after the text `front`, where a piece leads a
step further. -/
def stepsFrom (front : Text) : List Text → List Text
  | [] => []
  | piece :: rest =>
    let reached := front ++ piece
    let further := stepsFrom (reached ++ ['/']) rest
    if same front reached then further else reached :: further

/-- The directories on the way to a path, from the root on, and the path itself at the end, each in
the path's own spelling. A relative path begins at the empty one. -/
def ancestors (path : Text) : List Text :=
  let root : Text := if path.head? = some '/' then ['/'] else []
  (root :: stepsFrom root ((path.drop root.length).splitOn '/')).dropLast ++ [path]

/-- The front of a row of paths as far as another row has the same paths. -/
def shared : List Text → List Text → List Text
  | a :: as, b :: bs => if same a b then a :: shared as bs else []
  | _, _ => []

/-- The longest path on the way to all of several ones, as the first of them spells it. -/
def longestCommon? : List Text → Option Text
  | [] => none
  | first :: rest =>
    (rest.foldl (fun common path => shared common (ancestors path)) (ancestors first)).getLast?

/-- The name at the end of a path, if it ends with one. -/
def fileName? (path : Text) : Option Text :=
  match (components path).getLast? with
  | some (.name text) => some text
  | _ => none

/-- What stands after the last dot of a name; a dot at the front does not count. -/
def extensionOfName? (name : Text) : Option Text :=
  let stem := (name.reverse.dropWhile (· != '.')).drop 1
  if stem = [] then none else some (name.reverse.takeWhile (· != '.')).reverse

/-- Whether a path names a PHP file. -/
def isPhp (path : Text) : Bool :=
  match (fileName? path).bind extensionOfName? with
  | some extension => Text.eqIgnoringCase extension "php".toList
  | none => false

end Path

/-- The names that lead from the root to a file or directory. -/
abbrev Location := List Text

namespace Location

/-- The path of a location. -/
def path (location : Location) : Text := '/' :: ['/'].intercalate location

end Location

end Docblock
