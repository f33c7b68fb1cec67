import Docblock.FileSystem.Tree
import Docblock.Text.Shorter

/-!
# Patterns for paths

A pattern is a path whose components may hold wildcards: `?` for one character, `*` for any number,
a bracketed class for one of several, and the component `**` for any number of directories. What a
pattern finds is a list of locations.

A pattern finds only what stands in the file system (`Docblock.Proofs.CommandLine.Targets`). Which
locations a pattern matches is defined here and not specified elsewhere. Two stars that are not a
component of their own make a pattern invalid, as does a class that is not closed.
-/

namespace Docblock.Glob

/-- A member of a character class: the characters from the first to the last. -/
structure CharRange where
  first : Char
  last : Char

/-- A part of a pattern for a name. -/
inductive Token where
  | char (c : Char)
  | anyChar
  | anySequence
  | within (ranges : List CharRange)
  | except (ranges : List CharRange)

/-- A component of a pattern. -/
inductive Segment where
  /-- Any number of directories. -/
  | recursive
  /-- One name. -/
  | name (tokens : List Token)

/-- The members of a class as they are written: `a-z` is a range. -/
def readRanges : Text → List CharRange
  | first :: '-' :: last :: rest => ⟨first, last⟩ :: readRanges rest
  | c :: rest => ⟨c, c⟩ :: readRanges rest
  | [] => []

/-- The members of a class and what follows its closing bracket. The first member may be a bracket
itself. -/
def readClass? (s : Text) : Option (List CharRange × Shorter s) :=
  match s with
  | [] => none
  | first :: rest =>
    match h : rest.dropWhile (· != ']') with
    | [] => none
    | _ :: after =>
      some (readRanges (first :: rest.takeWhile (· != ']')), ⟨after, by
        have := (List.dropWhile_suffix (l := rest) (· != ']')).length_le
        simp only [h, List.length_cons] at this ⊢
        omega⟩)

/-- The tokens of a pattern for a name; a class has to be closed, and two stars in a row stand for
nothing here. -/
def readTokens? (s : Text) : Option (List Token) :=
  match s with
  | [] => some []
  | '?' :: rest => (readTokens? rest).map (.anyChar :: ·)
  | '*' :: '*' :: _ => none
  | '*' :: rest => (readTokens? rest).map (.anySequence :: ·)
  | '[' :: '!' :: rest =>
    match readClass? rest with
    | some (ranges, ⟨after, _⟩) => (readTokens? after).map (.except ranges :: ·)
    | none => none
  | '[' :: rest =>
    match readClass? rest with
    | some (ranges, ⟨after, _⟩) => (readTokens? after).map (.within ranges :: ·)
    | none => none
  | c :: rest => (readTokens? rest).map (.char c :: ·)
termination_by s.length
decreasing_by all_goals simp only [List.length_cons]; omega

/-- A component of a pattern. -/
def readSegment? (s : Text) : Option Segment :=
  if s = ['*', '*'] then some .recursive else (readTokens? s).map .name

/-- Whether a character is in a class. -/
def inRanges (c : Char) (ranges : List CharRange) : Bool :=
  ranges.any fun r => r.first ≤ c && c ≤ r.last

/-- Whether a name fits the tokens. -/
def matchesName : List Token → Text → Bool
  | [], name => name.isEmpty
  | .anySequence :: tokens, [] => matchesName tokens []
  | .anySequence :: tokens, c :: name =>
    matchesName tokens (c :: name) || matchesName (.anySequence :: tokens) name
  | _ :: _, [] => false
  | .char d :: tokens, c :: name => c = d && matchesName tokens name
  | .anyChar :: tokens, _ :: name => matchesName tokens name
  | .within ranges :: tokens, c :: name => inRanges c ranges && matchesName tokens name
  | .except ranges :: tokens, c :: name => !inRanges c ranges && matchesName tokens name
termination_by tokens name => tokens.length + name.length

/-- The text of tokens that are all plain characters. -/
def literal? : List Token → Option Text
  | [] => some []
  | .char c :: rest => (literal? rest).map (c :: ·)
  | _ => none

/-- Whether the tokens begin with a plain dot. Only such a pattern finds `.` and `..`. -/
def startsWithDot : List Token → Bool
  | .char '.' :: _ => true
  | _ => false

/-- Where one component of a pattern leads from a location. -/
def enter (fs : FileSystem) (tokens : List Token) (location : Location) : List Location :=
  match literal? tokens with
  | some name => (fs.enter? location name).toList
  | none =>
    let names := ((fs.at? location).map FileTree.entries).getD []
    let found := (names.filter fun (name, _) => matchesName tokens name).map fun (name, _) =>
      location ++ [name]
    let dots := [['.'], ['.', '.']].filter fun name =>
      startsWithDot tokens && matchesName tokens name
    found ++ dots.filterMap (fs.enter? location)

/-- All locations below a location. -/
def below (fs : FileSystem) (location : Location) : List Location :=
  match fs.at? location with
  | some tree => (FileTree.descendants tree).map (location ++ ·)
  | none => []

/-- Whether a location is a directory. -/
def isDirectory (fs : FileSystem) (location : Location) : Bool :=
  match fs.at? location with
  | some (.directory _) => true
  | _ => false

/-- What a pattern finds from a location. After `**` the next name may stand at any depth; at the
end of a pattern it finds the directories below. -/
def find (fs : FileSystem) : List Segment → Location → List Location
  | [], location => [location]
  | [.recursive], location => (below fs location).filter (isDirectory fs)
  | .recursive :: .recursive :: rest, location => find fs (.recursive :: rest) location
  | .recursive :: .name tokens :: rest, location =>
    ((below fs location).filter fun found =>
      matchesName tokens (found.getLast?.getD [])).flatMap (find fs rest)
  | .name tokens :: rest, location => (enter fs tokens location).flatMap (find fs rest)

/-- Whether a path is meant as a pattern. -/
def isPattern (path : Text) : Bool := path.any fun c => "*?[]\x7b\x7d".toList.contains c

/-- What a pattern finds, if it is well formed. A slash at its end asks for directories. -/
def expand? (fs : FileSystem) (pattern : Text) : Option (List Location) := do
  let isAbsolute := pattern.head? = some '/'
  let pieces := (pattern.drop (if isAbsolute then 1 else 0)).splitOn '/'
  let onlyDirectories := pattern.getLast? = some '/'
  let segments ← (if onlyDirectories then pieces.dropLast else pieces).mapM readSegment?
  let found := find fs segments (if isAbsolute then [] else fs.working)
  return if onlyDirectories then found.filter (isDirectory fs) else found

end Docblock.Glob
