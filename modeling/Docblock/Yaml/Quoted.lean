import Docblock.Yaml.Glyph

/-!
# Scalars between quotes

Between single quotes a doubled quote is one. Between double quotes a backslash begins an escape; at
the end of a line it joins the line to the next. White space around a line end is folded in both.
-/

namespace Docblock.Yaml

/-- The value of a hexadecimal digit. -/
def hexDigit? (c : Char) : Option Nat :=
  if c.isDigit then some (c.toNat - '0'.toNat)
  else if 'a' ≤ c && c ≤ 'f' then some (c.toNat - 'a'.toNat + 10)
  else if 'A' ≤ c && c ≤ 'F' then some (c.toNat - 'A'.toNat + 10)
  else none

/-- The value of a row of digits in a base of at most sixteen. -/
def digits? (base : Nat) (t : Text) : Option Nat :=
  t.foldlM (fun n c => do
    let d ← hexDigit? c
    if d < base then some (base * n + d) else none) 0

/-- The character with the given code. -/
def charOf? (n : Nat) : Option Char := if n.isValidChar then some (Char.ofNat n) else none

/-- The character that a letter after a backslash stands for. -/
def escape? : Char → Option Char
  | '0' => charOf? 0
  | 'a' => charOf? 7
  | 'b' => charOf? 8
  | 't' => some '\t'
  | '\t' => some '\t'
  | 'n' => some '\n'
  | 'v' => charOf? 0x0B
  | 'f' => charOf? 0x0C
  | 'r' => some '\r'
  | 'e' => charOf? 0x1B
  | ' ' => some ' '
  | '"' => some '"'
  | '/' => some '/'
  | '\\' => some '\\'
  | 'N' => charOf? 0x85
  | '_' => charOf? 0xA0
  | 'L' => charOf? 0x2028
  | 'P' => charOf? 0x2029
  | _ => none

/-- The number of hexadecimal digits after a letter that gives a character by its code; zero for any
other letter. -/
def codeLength : Char → Nat
  | 'x' => 2
  | 'u' => 4
  | 'U' => 8
  | _ => 0

/-- The character that an escape stands for, and what follows it. The backslash has been read. -/
def readEscape? : List Glyph → Option (Char × List Glyph)
  | [] => none
  | letter :: r =>
    match codeLength letter.char with
    | 0 => (escape? letter.char).map fun c => (c, r)
    | n =>
      if r.length < n then none
      else do
        let c ← (digits? 16 (textOf (r.take n))).bind charOf?
        return (c, r.drop n)

theorem readEscape?_length {s rest : List Glyph} {c : Char} (h : readEscape? s = some (c, rest)) :
    rest.length < s.length := by
  unfold readEscape? at h
  split at h
  · cases h
  · split at h
    · obtain ⟨_, _, h⟩ := Option.map_eq_some_iff.1 h
      cases h
      exact Nat.lt_succ_self _
    · split at h
      · cases h
      · obtain ⟨_, _, h⟩ := Option.bind_eq_some_iff.1 h
        cases h
        simp only [List.length_drop, List.length_cons]
        omega

theorem length_dropWhile_le (p : Glyph → Bool) (s : List Glyph) :
    (s.dropWhile p).length ≤ s.length :=
  (List.dropWhile_suffix p).length_le

/-- The text of a scalar up to its closing quote, and what follows the quote. A mark between
documents may not stand in it. -/
def quotedBody? (double : Bool) (s : List Glyph) : Option (Text × List Glyph) :=
  match s with
  | [] => none
  | g :: r =>
    if isDocumentMarker (g :: r) then none
    else if g.isWhite then do
      let (text, after) ← quotedBody? double (r.dropWhile Glyph.isWhite)
      return (foldedGap (g :: r.takeWhile Glyph.isWhite) ++ text, after)
    else if double && g.char = '"' then some ([], r)
    else if double && g.char = '\\' then
      if r.head?.any Glyph.isBreak then do
        let (text, after) ← quotedBody? double ((r.drop 1).dropWhile Glyph.isWhite)
        return (breaksOf ((r.drop 1).takeWhile Glyph.isWhite) ++ text, after)
      else
        match h : readEscape? r with
        | none => none
        | some (c, rest) => do
          have := readEscape?_length h
          let (text, after) ← quotedBody? double rest
          return (c :: text, after)
    else if !double && g.char = '\'' then
      if nextIsAny ['\''] r then do
        let (text, after) ← quotedBody? double (r.drop 1)
        return ('\'' :: text, after)
      else some ([], r)
    else do
      let (text, after) ← quotedBody? double r
      return (g.char :: text, after)
termination_by s.length
decreasing_by
  · have := length_dropWhile_le Glyph.isWhite r
    simp only [List.length_cons]
    omega
  · have := length_dropWhile_le Glyph.isWhite (r.drop 1)
    simp only [List.length_drop, List.length_cons] at *
    omega
  · simp only [List.length_cons]
    omega
  · simp only [List.length_drop, List.length_cons]
    omega
  · simp only [List.length_cons]
    omega

end Docblock.Yaml
