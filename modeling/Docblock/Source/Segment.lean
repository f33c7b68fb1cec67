import Docblock.Text.Line

/-!
# The doc comments of a PHP file

A file is cut into segments: its doc comments, and the code between them. The cut follows the
lexical rules of PHP as far as they decide where a comment may begin: text outside of `<?php` and
`?>`, quoted strings, heredocs and line comments hold no doc comment, while the code that a string
interpolates does. Put one after the other, the segments are the file.

The lexer is the part of PHP that decides where comments are; it does not check that a file is a
program. `Docblock.Proofs.Source.Lexing` proves what a step depends on, and from that
`Docblock.Proofs.Source.Relexing` that a file with other doc comments in place of its own is cut at
the same places.
-/

namespace Docblock.Source

/-- A stretch of a file. -/
inductive Segment where
  | code (text : Text)
  | doc (text : Text)
deriving DecidableEq

/-- The text of a segment. -/
def Segment.text : Segment → Text
  | .code text => text
  | .doc text => text

/-- What the next character of a file is part of. -/
inductive Mode where
  /-- Text that is passed on as it is. -/
  | outside
  | code
  /-- A string between the given quotes that may hold code. -/
  | quoted (quote : Char)
  /-- A string up to a line that begins with the label; a raw one holds no code. -/
  | heredoc (label : Text) (raw lineStart : Bool)
deriving DecidableEq

/-- What the next character is part of, and what a closing brace goes back to. -/
structure State where
  mode : Mode
  stack : List Mode := []
deriving DecidableEq

/-- How far a lexical step goes beyond its first character, and where it leads. -/
structure Step where
  extra : Nat
  state : State
  isDoc : Bool := false

/-- The number of characters up to and including the first occurrence of `mark`, or all. -/
def through (mark : Text) : Text → Nat
  | [] => 0
  | c :: r => if mark.isPrefixOf (c :: r) then mark.length else 1 + through mark r

/-- The number of characters of a line comment: up to the end of the line or of the code. -/
def lineCommentLength : Text → Nat
  | [] => 0
  | c :: r =>
    if c = '\n' || c = '\r' || "?>".toList.isPrefixOf (c :: r) then 0 else 1 + lineCommentLength r

/-- The number of characters up to and including the closing quote, where a backslash takes the
character after it along. -/
def quotedLength (quote : Char) : Text → Nat
  | [] => 0
  | '\\' :: _ :: r => 2 + quotedLength quote r
  | c :: r => if c = quote then 1 else 1 + quotedLength quote r

/-- A character of a label. -/
def isLabelChar (c : Char) : Bool := c.isAlphanum || c == '_' || 0x80 ≤ c.toNat

/-- The length of a line end at the front of a text. -/
def newlineLength : Text → Nat
  | '\r' :: '\n' :: _ => 2
  | '\r' :: _ => 1
  | '\n' :: _ => 1
  | _ => 0

/-- The head of a heredoc after its three angle brackets: its label, whether it is raw, and the
number of characters up to the first line of its body. -/
def heredocHead? (s : Text) : Option (Text × Bool × Nat) :=
  let start := s.dropWhile fun c => c == ' ' || c == '\t'
  let quote : Option Char :=
    match start with
    | c :: _ => if c = '\'' || c = '"' then some c else none
    | [] => none
  let afterQuote := start.drop quote.toList.length
  let label := afterQuote.takeWhile isLabelChar
  let afterLabel := afterQuote.drop label.length
  let rest := afterLabel.drop quote.toList.length
  if label.isEmpty || label.head?.any Char.isDigit then none
  else if afterLabel.take quote.toList.length ≠ quote.toList then none
  else if newlineLength rest = 0 then none
  else some (label, quote = some '\'', s.length - rest.length + newlineLength rest)

/-- The number of characters of the label, with the blanks before it, that closes a heredoc at the
beginning of a line. -/
def heredocEnd? (label s : Text) : Option Nat :=
  let start := s.dropWhile fun c => c == ' ' || c == '\t'
  if label.isPrefixOf start && !(start.drop label.length).head?.any isLabelChar then
    some (s.length - start.length + label.length)
  else none

/-- A step in the text outside of the code: an opening tag leads into it. -/
def stepOutside (stack : List Mode) (s : Text) : Step :=
  if Text.eqIgnoringCase (s.take 5) "<?php".toList then ⟨4, ⟨.code, stack⟩, false⟩
  else if "<?=".toList.isPrefixOf s then ⟨2, ⟨.code, stack⟩, false⟩
  else ⟨0, ⟨.outside, stack⟩, false⟩

/-- A step in a string that may hold code. -/
def stepQuoted (quote : Char) (stack : List Mode) : Text → Step
  | '\\' :: _ => ⟨1, ⟨.quoted quote, stack⟩, false⟩
  | '{' :: '$' :: _ => ⟨0, ⟨.code, .quoted quote :: stack⟩, false⟩
  | '$' :: '{' :: _ => ⟨1, ⟨.code, .quoted quote :: stack⟩, false⟩
  | c :: _ => ⟨0, ⟨if c = quote then .code else .quoted quote, stack⟩, false⟩
  | [] => ⟨0, ⟨.quoted quote, stack⟩, false⟩

/-- A step in the body of a heredoc, not at its end. -/
def stepHeredoc (label : Text) (raw : Bool) (stack : List Mode) (s : Text) : Step :=
  let body (lineStart : Bool) : Mode := .heredoc label raw lineStart
  match s with
  | '\\' :: c :: _ =>
    if raw || c = '\n' || c = '\r' then ⟨0, ⟨body false, stack⟩, false⟩
    else ⟨1, ⟨body false, stack⟩, false⟩
  | '{' :: '$' :: _ =>
    if raw then ⟨0, ⟨body false, stack⟩, false⟩ else ⟨0, ⟨.code, body false :: stack⟩, false⟩
  | '$' :: '{' :: _ =>
    if raw then ⟨0, ⟨body false, stack⟩, false⟩ else ⟨1, ⟨.code, body false :: stack⟩, false⟩
  | c :: _ => ⟨0, ⟨body (c = '\n' || c = '\r'), stack⟩, false⟩
  | [] => ⟨0, ⟨body false, stack⟩, false⟩

/-- A step in the code. A closing brace goes back to what its opening brace stood in. -/
def stepCode (stack : List Mode) (s : Text) : Step :=
  let code : State := ⟨.code, stack⟩
  match s with
  | '?' :: '>' :: _ => ⟨1, ⟨.outside, stack⟩, false⟩
  | '/' :: '*' :: r =>
    ⟨1 + through "*/".toList r, code, r.head? = some '*'⟩
  | '/' :: '/' :: r => ⟨1 + lineCommentLength r, code, false⟩
  | '#' :: '[' :: _ => ⟨0, code, false⟩
  | '#' :: r => ⟨lineCommentLength r, code, false⟩
  | '\'' :: r => ⟨quotedLength '\'' r, code, false⟩
  | '"' :: _ => ⟨0, ⟨.quoted '"', stack⟩, false⟩
  | '`' :: _ => ⟨0, ⟨.quoted '`', stack⟩, false⟩
  | '{' :: _ => ⟨0, ⟨.code, .code :: stack⟩, false⟩
  | '}' :: _ =>
    match stack with
    | mode :: outer => ⟨0, ⟨mode, outer⟩, false⟩
    | [] => ⟨0, code, false⟩
  | '<' :: '<' :: '<' :: r =>
    match heredocHead? r with
    | some (label, raw, length) => ⟨2 + length, ⟨.heredoc label raw true, stack⟩, false⟩
    | none => ⟨2, code, false⟩
  | _ => ⟨0, code, false⟩

/-- One lexical step from the front of a text that is not empty. -/
def step (state : State) (s : Text) : Step :=
  match state.mode with
  | .outside => stepOutside state.stack s
  | .code => stepCode state.stack s
  | .quoted quote => stepQuoted quote state.stack s
  | .heredoc label raw lineStart =>
    match if lineStart then heredocEnd? label s else none with
    | some length => ⟨length - 1, ⟨.code, state.stack⟩, false⟩
    | none => stepHeredoc label raw state.stack s

/-- Segments with some code put in front. -/
def prependCode (text : Text) : List Segment → List Segment
  | .code code :: rest => .code (text ++ code) :: rest
  | segments => .code text :: segments

/-- The segments of a text that begins in the given state. -/
def segmentsFrom (state : State) : Text → List Segment
  | [] => []
  | c :: r =>
    let next := step state (c :: r)
    let taken := c :: r.take next.extra
    let rest := segmentsFrom next.state (r.drop next.extra)
    if next.isDoc then .doc taken :: rest else prependCode taken rest
termination_by s => s.length
decreasing_by simp only [List.length_drop, List.length_cons]; omega

/-- The segments of a file. -/
def segments (source : Text) : List Segment := segmentsFrom ⟨.outside, []⟩ source

/-- Code put in front of segments stands in front of their text. -/
theorem flatMap_text_prependCode (text : Text) (rest : List Segment) :
    (prependCode text rest).flatMap Segment.text = text ++ rest.flatMap Segment.text := by
  unfold prependCode
  split <;> simp only [List.flatMap_cons, Segment.text, List.append_assoc]

/-- Whatever the lexical state, the segments of a text put one after the other are the text. -/
theorem flatMap_text_segmentsFrom (state : State) (source : Text) :
    (segmentsFrom state source).flatMap Segment.text = source := by
  fun_induction segmentsFrom state source with
  | case1 => rfl
  | case2 state c r next taken rest isDoc ih =>
    rw [List.flatMap_cons, ih]
    exact congrArg (c :: ·) (List.take_append_drop next.extra r)
  | case3 state c r next taken rest isCode ih =>
    rw [flatMap_text_prependCode, ih]
    exact congrArg (c :: ·) (List.take_append_drop next.extra r)

/-- The segments of a file put one after the other are the file. -/
theorem flatMap_text_segments (source : Text) :
    (segments source).flatMap Segment.text = source :=
  flatMap_text_segmentsFrom _ source

end Docblock.Source
