import Docblock.Text.Shorter
import Docblock.TypeExpr.Basic

/-!
# The tokens of a type

A token is read off the front of a text, after the layout before it. Each reader gives back what is
left, and what is left is shorter: a token is never empty. Nothing is skipped unless a token
follows, so text after a type keeps its own layout.

What a reader of a token gives is told exactly, in both directions, by
`Docblock.Proofs.TypeExpr.Tokens`: a token stands at the front of a text, or it does not, and the
reader knows which.
-/

namespace Docblock

/-- A mark or word that the grammar of types fixes. -/
inductive Mark where
  | question
  | bar
  | ellipsis
  | comma
  | colon
  | doubleColon
  | openParen
  | closeParen
  | openBracket
  | closeBracket
  | openBrace
  | closeBrace
  | openAngle
  | closeAngle
deriving DecidableEq

namespace Mark

/-- The characters of a mark. -/
def text : Mark → Text
  | .question => ['?']
  | .bar => ['|']
  | .ellipsis => ['.', '.', '.']
  | .comma => [',']
  | .colon => [':']
  | .doubleColon => [':', ':']
  | .openParen => ['(']
  | .closeParen => [')']
  | .openBracket => ['[']
  | .closeBracket => [']']
  | .openBrace => ['{']
  | .closeBrace => ['}']
  | .openAngle => ['<']
  | .closeAngle => ['>']

theorem text_length_pos (m : Mark) : 0 < m.text.length := by
  cases m <;> decide

end Mark

namespace Token

/-- Layout between tokens: space, tab, line feed and carriage return. -/
def isLayout (c : Char) : Bool := c == ' ' || c == '\t' || c == '\n' || c == '\r'

/-- The text without the layout at its front. -/
def skip (s : Text) : Text := s.dropWhile isLayout

theorem skip_length_le (s : Text) : (skip s).length ≤ s.length :=
  (List.dropWhile_suffix _).length_le

/-- A character of a name: an ASCII letter or digit, one of four marks, or anything beyond
ASCII. -/
def isNameChar (c : Char) : Bool :=
  c.isAlphanum || c == '\\' || c == '-' || c == '_' || c == '*' || 0x80 ≤ c.toNat

/-- A character of a parameter's name. -/
def isParameterChar (c : Char) : Bool := c.isAlphanum || c == '_' || 0x80 ≤ c.toNat

theorem length_of_isPrefixOf? {start s r : Text} (h : start.isPrefixOf? s = some r) :
    start.length + r.length = s.length := by
  rw [Text.isPrefixOf?_eq_some_iff.1 h, List.length_append]

/-- What is left after a mark, if the text begins with it. -/
def mark? (m : Mark) (s : Text) : Option (Shorter s) :=
  match h : m.text.isPrefixOf? (skip s) with
  | some r => some ⟨r, by
      have := length_of_isPrefixOf? h
      have := skip_length_le s
      have := m.text_length_pos
      omega⟩
  | none => none

/-- What is left after the word `is`, unless it is the beginning of a longer name. -/
def is? (s : Text) : Option (Shorter s) :=
  match h : skip s with
  | 'i' :: 's' :: r =>
    if r.head?.any isNameChar then none
    else some ⟨r, by
      have := skip_length_le s
      simp only [h, List.length_cons] at this
      omega⟩
  | _ => none

/-- Reads `start` and then at least one character of the kind `p`, as one word. -/
def word? (p : Char → Bool) (start s : Text) : Option (Text × Shorter s) :=
  match h : start.isPrefixOf? s with
  | none => none
  | some r =>
    match hr : r with
    | [] => none
    | c :: rest =>
      if p c then
        some (start ++ c :: rest.takeWhile p, ⟨rest.dropWhile p, by
          have h₁ := length_of_isPrefixOf? h
          have h₂ := (List.dropWhile_suffix (l := rest) p).length_le
          simp only [List.length_cons] at h₁
          omega⟩)
      else none

/-- A word that was read after the layout in front of it. -/
def afterSkip {s : Text} (read : Text × Shorter (skip s)) : Text × Shorter s :=
  (read.1, ⟨read.2.1, Nat.lt_of_lt_of_le read.2.2 (skip_length_le s)⟩)

/-- The first of several texts with which the text begins; the empty text if there is none. -/
def leading (starts : List Text) (s : Text) : Text :=
  (starts.find? (·.isPrefixOf s)).getD []

/-- A name, which may be a variable or a reference to one. -/
def name? (s : Text) : Option (Text × Shorter s) :=
  (word? isNameChar (leading ["&$".toList, "$".toList] (skip s)) (skip s)).map afterSkip

/-- The ways in which the name of a parameter may begin. -/
def parameterStarts : List Text := ["&...$".toList, "...$".toList, "&$".toList, "$".toList]

/-- The name of a parameter, with the marks in front of it. -/
def parameterName? (s : Text) : Option (Text × Shorter s) :=
  match leading parameterStarts (skip s) with
  | [] => none
  | start => (word? isParameterChar start (skip s)).map afterSkip

/-- The body of a literal up to its closing quote, and what is left after that quote. A backslash
takes the character after it along. -/
def literalBody? (quote : Char) : Text → Option (Text × Text)
  | [] => none
  | '\\' :: c :: r => (literalBody? quote r).map fun (body, rest) => ('\\' :: c :: body, rest)
  | c :: r =>
    if c = quote then some ([], r)
    else (literalBody? quote r).map fun (body, rest) => (c :: body, rest)

theorem literalBody?_shorter {quote : Char} {s body rest : Text}
    (h : literalBody? quote s = some (body, rest)) : rest.length < s.length := by
  fun_induction literalBody? quote s generalizing body with
  | case1 => simp at h
  | case2 c r ih =>
    obtain ⟨⟨b, t⟩, hb, heq⟩ := Option.map_eq_some_iff.1 h
    simp only [Prod.mk.injEq] at heq
    have := ih (heq.2 ▸ hb)
    simp only [List.length_cons]
    omega
  | case3 r =>
    simp only [Option.some.injEq, Prod.mk.injEq] at h
    simp [h.2]
  | case4 c r hc hne ih =>
    obtain ⟨⟨b, t⟩, hb, heq⟩ := Option.map_eq_some_iff.1 h
    simp only [Prod.mk.injEq] at heq
    have := ih (heq.2 ▸ hb)
    simp only [List.length_cons]
    omega

/-- The quote with which a text begins. -/
def quote? (s : Text) : Option Quote :=
  match skip s with
  | '\'' :: _ => some .single
  | '"' :: _ => some .double
  | _ => none

/-- The body of a literal that begins with the given quote, and what is left after it. -/
def literal? (quote : Quote) (s : Text) : Option (Text × Shorter s) :=
  match h : literalBody? quote.char ((skip s).drop 1) with
  | some (body, rest) => some (body, ⟨rest, by
      have h₁ := literalBody?_shorter h
      have h₂ := skip_length_le s
      simp only [List.length_drop] at h₁
      omega⟩)
  | none => none

end Token

end Docblock
