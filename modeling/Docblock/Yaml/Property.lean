import Docblock.Yaml.Block

/-!
# Names, tags and directives

What a document may say about a node beside its content: a name to refer to it by, and a tag. A tag
is written out, or begins with a handle for which another text stands. Directives at the front of a
document set such handles.
-/

namespace Docblock.Yaml

/-- The name of a node, and what follows it. -/
def name? (s : List Glyph) : Option (Text × List Glyph) :=
  let name := s.takeWhile Glyph.isWord
  let rest := s.dropWhile Glyph.isWord
  if name.isEmpty then none
  else if endsWord rest || nextIsAny "?:,]\x7d%@`".toList rest then some (textOf name, rest)
  else none

/-! ## Tags -/

/-- A character of a tag that stands for itself; `verbatim` says that the tag is written out between
angle brackets. -/
def isTagChar (verbatim : Bool) (g : Glyph) : Bool :=
  g.isWord || g.isAny ";/?:@&=+$.!~*'()".toList || (verbatim && g.isAny ",[]".toList)

/-- The number of octets that have to follow an octet of a character, where `pending` octets were
still to come before it. -/
def octetsAfter? (pending octet : Nat) : Option Nat :=
  match pending with
  | 0 =>
    if octet < 0x80 then some 0
    else if 0xC0 ≤ octet && octet < 0xE0 then some 1
    else if 0xE0 ≤ octet && octet < 0xF0 then some 2
    else if 0xF0 ≤ octet && octet < 0xF8 then some 3
    else none
  | n + 1 => if 0x80 ≤ octet && octet < 0xC0 then some n else none

/-- The characters of a tag, and what follows them. A percent sign gives an octet by its code, and
`pending` of these are still to come. -/
def tagChars? (verbatim : Bool) (pending : Nat) : List Glyph → Option (Text × List Glyph)
  | [] => if pending = 0 then some ([], []) else none
  | g :: r =>
    if g.char = '%' then
      match r with
      | a :: b :: rest => do
        let octet ← digits? 16 [a.char, b.char]
        let (text, after) ← tagChars? verbatim (← octetsAfter? pending octet) rest
        return (Char.ofNat octet :: text, after)
      | _ => none
    else if pending ≠ 0 then none
    else if isTagChar verbatim g then
      (tagChars? verbatim 0 r).map fun (text, after) => (g.char :: text, after)
    else some ([], g :: r)

/-- A tag as it is written. -/
structure WrittenTag where
  /-- What stands for the first part of the tag; empty if the tag is written out. -/
  handle : Text
  suffix : Text
  rest : List Glyph

/-- A tag after its exclamation mark, without regard to what follows it. -/
def tagBody? (s : List Glyph) : Option WrittenTag :=
  let word := textOf (s.takeWhile Glyph.isWord)
  let rest := s.dropWhile Glyph.isWord
  if nextIsAny ['<'] s then do
    let (text, after) ← tagChars? true 0 (s.drop 1)
    if !text.isEmpty && nextIsAny ['>'] after then some ⟨[], text, after.drop 1⟩ else none
  else if nextIsAny ['!'] rest then do
    let (text, after) ← tagChars? false 0 (rest.drop 1)
    if text.isEmpty then none else some ⟨['!'] ++ word ++ ['!'], text, after⟩
  else do
    let (text, after) ← tagChars? false 0 rest
    if (word ++ text).isEmpty then some ⟨[], ['!'], after⟩
    else some ⟨['!'], word ++ text, after⟩

/-- A tag after its exclamation mark. White space has to follow, or between brackets a comma. -/
def tag? (flow : Bool) (s : List Glyph) : Option WrittenTag := do
  let tag ← tagBody? s
  if endsWord tag.rest || (flow && nextIsAny [','] tag.rest) then some tag else none

/-! ## Directives -/

/-- What a directive says. -/
inductive Directive where
  /-- The document follows this version of the language. -/
  | version (major minor : Nat)
  /-- The handle stands for a text in tags. -/
  | handle (handle text : Text)
deriving DecidableEq

/-- A number of at most nine digits, and what follows it. -/
def number? (s : List Glyph) : Option (Nat × List Glyph) :=
  let digits := s.takeWhile (·.char.isDigit)
  if digits.isEmpty || 9 < digits.length then none
  else (digits? 10 (textOf digits)).map fun n => (n, s.dropWhile (·.char.isDigit))

/-- The value of a version directive, and what follows it. -/
def version? (s : List Glyph) : Option (Directive × List Glyph) := do
  let (major, r) ← number? (s.dropWhile Glyph.isGap)
  if !nextIsAny ['.'] r then none
  let (minor, r) ← number? (r.drop 1)
  return (.version major minor, r)

/-- The handle that a directive sets, and what follows it: an exclamation mark alone, or a word
between two. -/
def handle? (s : List Glyph) : Option (Text × List Glyph) :=
  let word := (s.drop 1).takeWhile Glyph.isWord
  let rest := (s.drop 1).dropWhile Glyph.isWord
  if !nextIsAny ['!'] s then none
  else if nextIsAny ['!'] rest then some (['!'] ++ textOf word ++ ['!'], rest.drop 1)
  else if word.isEmpty then some (['!'], rest)
  else none

/-- The value of a directive that sets a handle, and what follows it. -/
def handleDirective? (s : List Glyph) : Option (Directive × List Glyph) := do
  let (handle, r) ← handle? (s.dropWhile Glyph.isGap)
  if !r.head?.any Glyph.isGap then none
  let (text, r) ← tagChars? true 0 (r.dropWhile Glyph.isGap)
  if text.isEmpty || !endsWord r then none
  return (.handle handle text, r)

/-- A directive after its percent sign, and the lines after it. -/
def directive? (s : List Glyph) : Option (Directive × List Glyph) := do
  let name := textOf (s.takeWhile Glyph.isWord)
  let rest := s.dropWhile Glyph.isWord
  if !endsWord rest then none
  let (directive, r) ←
    if name = "YAML".toList then version? rest
    else if name = "TAG".toList then handleDirective? rest
    else none
  return (directive, ← endLine? r)

end Docblock.Yaml
