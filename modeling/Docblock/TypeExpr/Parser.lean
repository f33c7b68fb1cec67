import Docblock.TypeExpr.ParseError

/-!
# Reading a type

A type is read off the front of a text by recursive descent. Two things decide what may stand at a
place: whether the place takes a whole type or only one branch of a union, and the path of rules
that leads to it. A conditional type needs a place inside another type, since at the top level of a
tag the word `is` begins the description.

The rules do not call each other in a circle. Each of them takes the reader of a nested type as an
argument, which may be applied to any text shorter than the one the enclosing type began with;
`TypeExpr.read` closes the circle, and its recursion is on the length of the text. What a rule
leaves is shorter than what it was given, so every loop of the grammar ends.
-/

namespace Docblock

/-- A value read off the front of `s`, with what is left. -/
abbrev Read (α : Type) (s : Text) := Except ParseFailure (α × Shorter s)

/-- A value that may take no text, with what is left. -/
abbrev ReadSome (α : Type) (s : Text) := Except ParseFailure (α × NoLonger s)

/-- Reads a nested type at a place of the grammar: a whole type, or one branch only. It takes any
text with fewer than `n` characters. -/
abbrev Nested (n : Nat) := Rule → (whole : Bool) → (r : Text) → r.length < n → Read TypeExpr r

namespace TypeExpr

/-- What is left after a mark that has to stand here. -/
def expect (path : List Rule) (m : Mark) (s : Text) : Except ParseFailure (Shorter s) :=
  match Token.mark? m s with
  | some r => .ok r
  | none => .error ⟨.expected m, path, Token.skip s⟩

/-- One entry of a shape. After the `?` of an optional key a colon has to follow. -/
def readEntry {n : Nat} (nested : Nested n) (path : List Rule) (s : Text) (hs : s.length < n) :
    Read ShapeEntry s := do
  let ⟨first, r₁, h₁⟩ ← nested .entry true s hs
  match Token.mark? .question r₁ with
  | some ⟨r₂, h₂⟩ =>
    let ⟨r₃, h₃⟩ ← expect path .colon r₂
    let ⟨value, r₄, h₄⟩ ← nested .entryValue true r₃ (by omega)
    return (.keyed first true value, ⟨r₄, by omega⟩)
  | none =>
    match Token.mark? .colon r₁ with
    | some ⟨r₂, h₂⟩ =>
      let ⟨value, r₃, h₃⟩ ← nested .entryValue true r₂ (by omega)
      return (.keyed first false value, ⟨r₃, by omega⟩)
    | none => return (.positional first, ⟨r₁, h₁⟩)

/-- The entries of a shape after its opening brace, with the closing one. -/
def readEntries {n : Nat} (nested : Nested n) (path : List Rule) (s : Text) (hs : s.length < n) :
    Read (List ShapeEntry) s :=
  match Token.mark? .closeBrace s with
  | some r => .ok ([], r)
  | none => do
    let ⟨entry, r₁, h₁⟩ ← readEntry nested path s hs
    match Token.mark? .comma r₁ with
    | some ⟨r₂, h₂⟩ =>
      let ⟨entries, r₃, h₃⟩ ← readEntries nested path r₂ (by omega)
      return (entry :: entries, ⟨r₃, by omega⟩)
    | none =>
      let ⟨r₂, h₂⟩ ← expect path .closeBrace r₁
      return ([entry], ⟨r₂, by omega⟩)
termination_by s.length

/-- What follows `array<`: an item type, or a key type and a value type. -/
def readArrayArguments {n : Nat} (nested : Nested n) (path : List Rule) (s : Text)
    (hs : s.length < n) : Read TypeExpr s := do
  let ⟨first, r₁, h₁⟩ ← nested .arrayArgument true s hs
  match Token.mark? .comma r₁ with
  | some ⟨r₂, h₂⟩ =>
    let ⟨value, r₃, h₃⟩ ← nested .arrayValue true r₂ (by omega)
    let ⟨r₄, h₄⟩ ← expect path .closeAngle r₃
    return (.record first value, ⟨r₄, by omega⟩)
  | none =>
    let ⟨r₂, h₂⟩ ← expect path .closeAngle r₁
    return (.sequence .array first, ⟨r₂, by omega⟩)

/-- Whether the text goes on after an argument of a generic type. -/
def endsArgument (s : Text) : Bool :=
  (Token.mark? .comma s).isSome || (Token.mark? .closeAngle s).isSome

/-- One argument of a generic type. A bare name that does not end the argument qualifies the type
after it. -/
def readArgument {n : Nat} (nested : Nested n) (s : Text) (hs : s.length < n) :
    Read TypeExpr s := do
  let ⟨first, r₁, h₁⟩ ← nested .argument true s hs
  match first with
  | .named name =>
    if endsArgument r₁ then return (.named name, ⟨r₁, h₁⟩)
    else
      let ⟨target, r₂, h₂⟩ ← nested .argument true r₁ (Nat.lt_trans h₁ hs)
      return (.qualified (.named name) target, ⟨r₂, Nat.lt_trans h₂ h₁⟩)
  | other => return (other, ⟨r₁, h₁⟩)

/-- The arguments of a generic type after its opening angle bracket, with the closing one. There is
at least one, and a comma may follow the last. -/
def readArguments {n : Nat} (nested : Nested n) (path : List Rule) (s : Text) (hs : s.length < n) :
    Read (List TypeExpr) s := do
  let ⟨argument, r₁, h₁⟩ ← readArgument nested s hs
  match Token.mark? .comma r₁ with
  | some ⟨r₂, h₂⟩ =>
    match Token.mark? .closeAngle r₂ with
    | some ⟨r₃, h₃⟩ => return ([argument], ⟨r₃, by omega⟩)
    | none =>
      let ⟨arguments, r₃, h₃⟩ ← readArguments nested path r₂ (by omega)
      return (argument :: arguments, ⟨r₃, by omega⟩)
  | none =>
    let ⟨r₂, h₂⟩ ← expect path .closeAngle r₁
    return ([argument], ⟨r₂, by omega⟩)
termination_by s.length

/-- One parameter of a callable: a type, and perhaps a name. -/
def readParameter {n : Nat} (nested : Nested n) (s : Text) (hs : s.length < n) :
    Read Parameter s := do
  let ⟨type, r₁, h₁⟩ ← nested .parameter true s hs
  match Token.parameterName? r₁ with
  | some (name, ⟨r₂, h₂⟩) => return (.named type name, ⟨r₂, by omega⟩)
  | none => return (.unnamed type, ⟨r₁, h₁⟩)

/-- The parameters of a callable after the opening parenthesis, with the closing one. -/
def readParameters {n : Nat} (nested : Nested n) (path : List Rule) (s : Text)
    (hs : s.length < n) : Read (List Parameter) s :=
  match Token.mark? .closeParen s with
  | some r => .ok ([], r)
  | none => do
    let ⟨parameter, r₁, h₁⟩ ← readParameter nested s hs
    match Token.mark? .comma r₁ with
    | some ⟨r₂, h₂⟩ =>
      let ⟨parameters, r₃, h₃⟩ ← readParameters nested path r₂ (by omega)
      return (parameter :: parameters, ⟨r₃, by omega⟩)
    | none =>
      let ⟨r₂, h₂⟩ ← expect path .closeParen r₁
      return ([parameter], ⟨r₂, by omega⟩)
termination_by s.length

/-- A type as the callee of the parameters that may follow it. The type of the result reaches as far
as the callable itself may. -/
def readCall {n : Nat} (nested : Nested n) (path : List Rule) (whole : Bool) (callee : TypeExpr)
    (s : Text) (hs : s.length < n) : ReadSome TypeExpr s :=
  match Token.mark? .openParen s with
  | some ⟨r₁, h₁⟩ => do
    let ⟨parameters, r₂, h₂⟩ ← readParameters nested path r₁ (by omega)
    let ⟨r₃, h₃⟩ ← expect path .colon r₂
    let ⟨result, r₄, h₄⟩ ← nested .result whole r₃ (by omega)
    return (.callable callee parameters result, ⟨r₄, by omega⟩)
  | none => return (callee, ⟨s, by omega⟩)

/-- A literal, whose quote stands in front. -/
def readLiteral (path : List Rule) (quote : Quote) (s : Text) : Read TypeExpr s :=
  match Token.literal? quote s with
  | some (body, r) => .ok (.literal quote body, r)
  | none => .error ⟨.unterminated, path, Token.skip s⟩

/-- A name with the arguments that may follow it. -/
def readGeneric {n : Nat} (nested : Nested n) (path : List Rule) (name : Text) (s : Text)
    (hs : s.length < n) : ReadSome TypeExpr s :=
  match Token.mark? .openAngle s with
  | some ⟨r₁, h₁⟩ => do
    let ⟨arguments, r₂, h₂⟩ ← readArguments nested path r₁ (by omega)
    return (.generic (.named name) arguments, ⟨r₂, by omega⟩)
  | none => return (.named name, ⟨s, by omega⟩)

/-- What follows a name that has no rule of its own: arguments, then a member. -/
def readNameTail {n : Nat} (nested : Nested n) (path : List Rule) (name : Text) (s : Text)
    (hs : s.length < n) : ReadSome TypeExpr s := do
  let ⟨base, r₁, h₁⟩ ← readGeneric nested path name s hs
  match Token.mark? .doubleColon r₁ with
  | some ⟨r₂, h₂⟩ =>
    let ⟨member, r₃, h₃⟩ ← nested .member false r₂ (by omega)
    return (.constant base member, ⟨r₃, by omega⟩)
  | none => return (base, ⟨r₁, h₁⟩)

/-- What follows a name. The words `array` and `list` have rules of their own before an opening
bracket. -/
def readNamed {n : Nat} (nested : Nested n) (path : List Rule) (name : Text) (s : Text)
    (hs : s.length < n) : ReadSome TypeExpr s :=
  if name = SequenceKind.array.word then
    match Token.mark? .openBrace s with
    | some ⟨r₁, h₁⟩ => do
      let ⟨entries, r₂, h₂⟩ ← readEntries nested path r₁ (by omega)
      return (.shape entries, ⟨r₂, by omega⟩)
    | none =>
      match Token.mark? .openAngle s with
      | some ⟨r₁, h₁⟩ => do
        let ⟨type, r₂, h₂⟩ ← readArrayArguments nested path r₁ (by omega)
        return (type, ⟨r₂, by omega⟩)
      | none => readNameTail nested path name s hs
  else if name = SequenceKind.list.word then
    match Token.mark? .openAngle s with
    | some ⟨r₁, h₁⟩ => do
      let ⟨item, r₂, h₂⟩ ← nested .listItem true r₁ (by omega)
      let ⟨r₃, h₃⟩ ← expect path .closeAngle r₂
      return (.sequence .list item, ⟨r₃, by omega⟩)
    | none => readNameTail nested path name s hs
  else readNameTail nested path name s hs

/-- A type without what may follow it: `...`, a group, a literal, or what begins with a name. -/
def readPrimary {n : Nat} (nested : Nested n) (path : List Rule) (s : Text) (hs : s.length ≤ n) :
    Read TypeExpr s :=
  match Token.mark? .ellipsis s with
  | some r => .ok (.ellipsis, r)
  | none =>
    match Token.mark? .openParen s with
    | some ⟨r₁, h₁⟩ => do
      let ⟨inner, r₂, h₂⟩ ← nested .group true r₁ (by omega)
      let ⟨r₃, h₃⟩ ← expect path .closeParen r₂
      return (.group inner, ⟨r₃, by omega⟩)
    | none =>
      match Token.quote? s with
      | some quote => readLiteral path quote s
      | none =>
        match Token.name? s with
        | some (name, ⟨r₁, h₁⟩) => do
          let ⟨type, r₂, h₂⟩ ← readNamed nested path name r₁ (by omega)
          return (type, ⟨r₂, by omega⟩)
        | none => .error ⟨.unexpected, path, Token.skip s⟩

/-- The pairs of square brackets after a type. -/
def readBrackets (path : List Rule) (type : TypeExpr) (s : Text) : ReadSome TypeExpr s :=
  match Token.mark? .openBracket s with
  | some ⟨r₁, h₁⟩ => do
    let ⟨r₂, h₂⟩ ← expect path .closeBracket r₁
    let ⟨outer, r₃, h₃⟩ ← readBrackets path (.arrayOf type) r₂
    return (outer, ⟨r₃, by omega⟩)
  | none => return (type, ⟨s, by omega⟩)
termination_by s.length

/-- One branch: a nullable type, or a type with its parameters and square brackets. -/
def readBranch {n : Nat} (nested : Nested n) (path : List Rule) (whole : Bool) (s : Text)
    (hs : s.length ≤ n) : Read TypeExpr s :=
  match Token.mark? .question s with
  | some ⟨r₁, h₁⟩ => do
    let ⟨inner, r₂, h₂⟩ ← nested .nullable false r₁ (by omega)
    return (.nullable inner, ⟨r₂, by omega⟩)
  | none => do
    let ⟨primary, r₁, h₁⟩ ← readPrimary nested path s hs
    let ⟨called, r₂, h₂⟩ ← readCall nested path whole primary r₁ (by omega)
    let ⟨type, r₃, h₃⟩ ← readBrackets path called r₂
    return (type, ⟨r₃, by omega⟩)

/-- The branches of a union after its first. -/
def readBranches {n : Nat} (nested : Nested n) (s : Text) (hs : s.length < n) :
    ReadSome (List TypeExpr) s :=
  match Token.mark? .bar s with
  | some ⟨r₁, h₁⟩ => do
    let ⟨branch, r₂, h₂⟩ ← nested .branch false r₁ (by omega)
    let ⟨branches, r₃, h₃⟩ ← readBranches nested r₂ (by omega)
    return (branch :: branches, ⟨r₃, by omega⟩)
  | none => return ([], ⟨s, by omega⟩)
termination_by s.length

/-- A union of branches, or the only branch itself. -/
def unionOf (first : TypeExpr) : List TypeExpr → TypeExpr
  | [] => first
  | branches => .union (first :: branches)

/-- Whether a path leads to the top level of a tag. The result of a callable at the top level is
still there. -/
def isOutermost (path : List Rule) : Bool := path.all (· == .result)

/-- The clauses that make a type conditional, where they may stand. -/
def readClauses {n : Nat} (nested : Nested n) (path : List Rule) (subject : TypeExpr) (s : Text)
    (hs : s.length < n) : ReadSome TypeExpr s :=
  if isOutermost path then return (subject, ⟨s, by omega⟩)
  else
    match Token.is? s with
    | some ⟨r₁, h₁⟩ => do
      let ⟨bound, r₂, h₂⟩ ← nested .bound true r₁ (by omega)
      let ⟨r₃, h₃⟩ ← expect path .question r₂
      let ⟨consequent, r₄, h₄⟩ ← nested .consequent true r₃ (by omega)
      let ⟨r₅, h₅⟩ ← expect path .colon r₄
      let ⟨alternative, r₆, h₆⟩ ← nested .alternative true r₅ (by omega)
      return (.conditional subject bound consequent alternative, ⟨r₆, by omega⟩)
    | none => return (subject, ⟨s, by omega⟩)

/-- A type: one branch, and where a whole type may stand also the rest of a union and the clauses of
a conditional. -/
def readWith {n : Nat} (nested : Nested n) (path : List Rule) (whole : Bool) (s : Text)
    (hs : s.length ≤ n) : Read TypeExpr s := do
  let ⟨first, r₁, h₁⟩ ← readBranch nested path whole s hs
  if whole then
    let ⟨branches, r₂, h₂⟩ ← readBranches nested r₁ (by omega)
    let ⟨type, r₃, h₃⟩ ← readClauses nested path (unionOf first branches) r₂ (by omega)
    return (type, ⟨r₃, by omega⟩)
  else return (first, ⟨r₁, h₁⟩)

/-- Reads a type off the front of a text. -/
def read (path : List Rule) (whole : Bool) (s : Text) : Read TypeExpr s :=
  readWith (n := s.length) (fun rule whole r _ => read (path ++ [rule]) whole r) path whole s
    (Nat.le_refl _)
termination_by s.length

/-- A type and the text after it, without the spaces and tabs between them. -/
structure Parsed where
  type : TypeExpr
  rest : Text

/-- Reads the type at the front of `text`. The location stands in front of the path of an error. -/
def parse (location text : Text) : Except ParseError Parsed :=
  match read [] true text with
  | .ok (type, rest) => .ok ⟨type, rest.1.dropWhile fun c => c == ' ' || c == '\t'⟩
  | .error failure => .error (failure.report location text)

end TypeExpr

end Docblock
