import Docblock.Yaml.Quoted

/-!
# Plain scalars

A plain scalar is written without quotes. It goes on over several lines as long as they are indented
further than the block around it, and ends before a comment, before a colon with white space after
it, and between brackets before a comma or a bracket.
-/

namespace Docblock.Yaml

/-- The marks that have a meaning of their own between brackets. -/
def flowMarks : Text := ",[]\x7b\x7d".toList

/-- Whether a plain scalar ends before the glyphs, which do not begin with white space; `flow` says
that it stands between brackets. -/
def endsPlain (flow : Bool) : List Glyph → Bool
  | [] => true
  | g :: r => (g.char == ':' && endsWord r) || (flow && g.isAny flowMarks)

/-- Whether a colon comes next that may not stand between brackets, because of the mark after it. -/
def isStrayColon (flow : Bool) : List Glyph → Bool
  | [] => false
  | g :: r => flow && g.char == ':' && nextIsAny ('?' :: flowMarks) r

/-- The characters of a plain scalar up to white space or to its end, and what follows them. -/
def plainWord? (flow : Bool) : List Glyph → Option (Text × List Glyph)
  | [] => some ([], [])
  | g :: r =>
    if g.isWhite then some ([], g :: r)
    else if isStrayColon flow (g :: r) then none
    else if endsPlain flow (g :: r) then some ([], g :: r)
    else (plainWord? flow r).map fun (text, after) => (g.char :: text, after)

theorem plainWord?_length {flow : Bool} {s after : List Glyph} {text : Text}
    (h : plainWord? flow s = some (text, after)) : after.length ≤ s.length := by
  fun_induction plainWord? flow s generalizing text with
  | case1 => cases h; exact Nat.le_refl _
  | case2 => cases h; exact Nat.le_refl _
  | case3 => cases h
  | case4 => cases h; exact Nat.le_refl _
  | case5 g r _ _ _ ih =>
    obtain ⟨⟨t, a⟩, ha, heq⟩ := Option.map_eq_some_iff.1 h
    cases heq
    exact Nat.le_succ_of_le (ih ha)

/-- Whether a tab stands in the indentation of a further line, before the column `indent`. -/
def hasTabIndent (indent : Nat) (run : List Glyph) : Bool :=
  (run.dropWhile (!·.isBreak)).any fun g => g.char == '\t' && g.column < indent

/-- Whether a plain scalar stops at glyphs that follow white space. -/
def stopsPlain (flow : Bool) (indent : Nat) (s : List Glyph) : Bool :=
  endsPlain flow s || (!flow && s.head?.any (·.column < indent)) || isDocumentMarker s ||
    nextIsAny ['#'] s

/-- A plain scalar. -/
structure PlainScalar where
  text : Text
  /-- Whether a line ended after the scalar, before `rest`. -/
  endsLine : Bool
  rest : List Glyph

/-- A plain scalar whose further lines have to begin at the column `indent` at least. -/
def plain? (flow : Bool) (indent : Nat) (s : List Glyph) : Option PlainScalar :=
  match h : plainWord? flow s with
  | none => none
  | some (text, []) => some ⟨text, false, []⟩
  | some (text, g :: r) =>
    let run := g :: r.takeWhile Glyph.isWhite
    let rest := r.dropWhile Glyph.isWhite
    if !g.isWhite then some ⟨text, false, g :: r⟩
    else if hasTabIndent indent run then none
    else if stopsPlain flow indent rest then some ⟨text, run.any Glyph.isBreak, rest⟩
    else do
      have : (r.dropWhile Glyph.isWhite).length < s.length := by
        have h₁ := plainWord?_length h
        have h₂ := length_dropWhile_le Glyph.isWhite r
        simp only [List.length_cons] at h₁
        omega
      let more ← plain? flow indent (r.dropWhile Glyph.isWhite)
      return { more with text := text ++ foldedGap run ++ more.text }
termination_by s.length

end Docblock.Yaml
