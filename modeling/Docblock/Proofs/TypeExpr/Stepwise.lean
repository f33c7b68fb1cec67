import Docblock.Proofs.TypeExpr.Cursor

/-!
# Types are read step by step

The grammar of `TypeExpr.read` as rules for a cursor. The rules are written once, for every monad
that says what a step is, what a round of a loop is, and what it is to read a type (`Stepwise`). A
reader that only reads is the instance at `CursorM`, where a step is just what it does and the other
two are nothing at all. `Docblock.Proofs.TypeExpr.Trace` has the other instance, which writes down
what the rules do. So the two cannot differ in a rule, and what is proved of them side by side goes
through each rule once.

The recursion is not on the text that is left. It has fuel, one unit for each type inside another
and for each member of a row, and a run that needs more than it has is `Stepwise.exhausted`. That
enough of it exists is no part of the definition: `CursorM.parse_eq` proves that more units than the
text has characters are enough, and that the run then ends as `TypeExpr.parse` does. Nothing is
claimed of a run with less fuel but that it is safe as far as it gets.
-/

namespace Docblock

/-- A monad in which a type is read step by step with a cursor. What it does besides, at a step, at
a round of a loop or at the reading of a type, is left to the monad. -/
class Stepwise (m : Type → Type) where
  /-- Ends the run, since the fuel was not enough. -/
  exhausted {α : Type} : m α
  /-- Looks for a token, or reads one. -/
  step {α : Type} : CursorM α → m α
  /-- Runs the body of a loop, which calls `ended` where the round ends. -/
  round {α : Type} : ((ended : m Unit) → m α) → m α
  /-- Reads a type, whose body reads each type inside it through `inside`. -/
  reading : ((inside : m TypeExpr → m TypeExpr) → m TypeExpr) → m TypeExpr

/-- A reader that only reads. -/
instance : Stepwise CursorM where
  exhausted := throw .exhausted
  step x := x
  round body := body (pure ())
  reading body := body fun x => x

namespace Stepwise

open CursorM (cut eat peek expect eatWord eatName eatParameterName literal fail endsArgument)

variable {m : Type → Type} [Monad m] [Stepwise m]

/-! ## The rules -/

/-- The pairs of square brackets after a type. -/
def brackets (path : List Rule) : (fuel : Nat) → TypeExpr → m TypeExpr
  | 0, _ => exhausted
  | fuel + 1, type => do
    if ← step (eat .openBracket) then
      round fun ended => do
        step (expect path .closeBracket)
        ended
        brackets path fuel (.arrayOf type)
    else return type

section
variable (nested : Rule → (whole : Bool) → m TypeExpr) (path : List Rule)

/-- One entry of a shape. After the `?` of an optional key a colon has to follow. -/
def entry : m ShapeEntry := do
  let first ← nested .entry true
  let isOptional ← step (eat .question)
  let isKeyed ← if isOptional then pure true else step (peek Mark.colon.text)
  if isKeyed then
    step (expect path .colon)
    let value ← nested .entryValue true
    return .keyed first isOptional value
  else return .positional first

/-- The entries of a shape after its opening brace, with the closing one. -/
def entries : (fuel : Nat) → m (List ShapeEntry)
  | 0 => exhausted
  | fuel + 1 => do
    if ← step (eat .closeBrace) then return []
    else
      round fun ended => do
        let first ← entry nested path
        if ← step (eat .comma) then
          ended
          let others ← entries fuel
          return first :: others
        else
          step (expect path .closeBrace)
          ended
          return [first]

/-- What follows `array<`: an item type, or a key type and a value type. -/
def arrayArguments : m TypeExpr := do
  let first ← nested .arrayArgument true
  if ← step (eat .comma) then
    let value ← nested .arrayValue true
    step (expect path .closeAngle)
    return .record first value
  else
    step (expect path .closeAngle)
    return .sequence .array first

/-- One argument of a generic type. A bare name that does not end the argument qualifies the type
after it. -/
def argument : m TypeExpr := do
  match ← nested .argument true with
  | .named name =>
    if ← step endsArgument then return .named name
    else
      let target ← nested .argument true
      return .qualified (.named name) target
  | other => return other

/-- The arguments of a generic type after its opening angle bracket, with the closing one. -/
def arguments : (fuel : Nat) → m (List TypeExpr)
  | 0 => exhausted
  | fuel + 1 =>
    round fun ended => do
      let first ← argument nested
      if ← step (eat .comma) then
        if ← step (eat .closeAngle) then
          ended
          return [first]
        else
          ended
          let others ← arguments fuel
          return first :: others
      else
        step (expect path .closeAngle)
        ended
        return [first]

/-- One parameter of a callable: a type, and perhaps a name. -/
def parameter : m Parameter := do
  let type ← nested .parameter true
  match ← step eatParameterName with
  | some name => return .named type name
  | none => return .unnamed type

/-- The parameters of a callable after the opening parenthesis, with the closing one. -/
def parameters : (fuel : Nat) → m (List Parameter)
  | 0 => exhausted
  | fuel + 1 => do
    if ← step (eat .closeParen) then return []
    else
      round fun ended => do
        let first ← parameter nested
        if ← step (eat .comma) then
          ended
          let others ← parameters fuel
          return first :: others
        else
          step (expect path .closeParen)
          ended
          return [first]

/-- A type as the callee of the parameters that may follow it. -/
def call (fuel : Nat) (whole : Bool) (callee : TypeExpr) : m TypeExpr := do
  if ← step (eat .openParen) then
    let parameters ← parameters nested path fuel
    step (expect path .colon)
    let result ← nested .result whole
    return .callable callee parameters result
  else return callee

/-- A name with the arguments that may follow it. -/
def generic (fuel : Nat) (name : Text) : m TypeExpr := do
  if ← step (eat .openAngle) then
    let arguments ← arguments nested path fuel
    return .generic (.named name) arguments
  else return .named name

/-- What follows a name that has no rule of its own: arguments, then a member. -/
def nameTail (fuel : Nat) (name : Text) : m TypeExpr := do
  let base ← generic nested path fuel name
  if ← step (eat .doubleColon) then
    let member ← nested .member false
    return .constant base member
  else return base

/-- What follows a name. -/
def named (fuel : Nat) (name : Text) : m TypeExpr := do
  if name = SequenceKind.array.word then
    if ← step (eat .openBrace) then
      let entries ← entries nested path fuel
      return .shape entries
    else if ← step (eat .openAngle) then arrayArguments nested path
    else nameTail nested path fuel name
  else if name = SequenceKind.list.word then
    if ← step (eat .openAngle) then
      let item ← nested .listItem true
      step (expect path .closeAngle)
      return .sequence .list item
    else nameTail nested path fuel name
  else nameTail nested path fuel name

/-- A type without what may follow it: `...`, a group, a literal, or what begins with a name. -/
def primary (fuel : Nat) : m TypeExpr := do
  if ← step (eat .ellipsis) then return .ellipsis
  else if ← step (eat .openParen) then
    let inner ← nested .group true
    step (expect path .closeParen)
    return .group inner
  else if ← step (peek [Quote.single.char]) then step (literal path .single)
  else if ← step (peek [Quote.double.char]) then step (literal path .double)
  else
    match ← step eatName with
    | some name => named nested path fuel name
    | none => step (fail .unexpected path)

/-- One branch: a nullable type, or a type with its parameters and square brackets. -/
def branch (fuel : Nat) (whole : Bool) : m TypeExpr := do
  if ← step (eat .question) then
    let inner ← nested .nullable false
    return .nullable inner
  else
    let callee ← primary nested path fuel
    let called ← call nested path fuel whole callee
    brackets path fuel called

/-- The branches of a union after its first. -/
def branches : (fuel : Nat) → m (List TypeExpr)
  | 0 => exhausted
  | fuel + 1 => do
    if ← step (eat .bar) then
      round fun ended => do
        let branch ← nested .branch false
        ended
        let others ← branches fuel
        return branch :: others
    else return []

/-- The clauses that make a type conditional, where they may stand. -/
def clauses (subject : TypeExpr) : m TypeExpr := do
  if TypeExpr.isOutermost path then return subject
  else if ← step (eatWord "is".toList) then
    let bound ← nested .bound true
    step (expect path .question)
    let consequent ← nested .consequent true
    step (expect path .colon)
    let alternative ← nested .alternative true
    return .conditional subject bound consequent alternative
  else return subject

/-- A type, given the reader of the types inside it. -/
def typeWith (fuel : Nat) (whole : Bool) : m TypeExpr := do
  let first ← branch nested path fuel whole
  if whole then
    if ← step (peek Mark.bar.text) then
      let others ← branches nested fuel
      clauses nested path (.union (first :: others))
    else clauses nested path first
  else return first

end

/-- A type. -/
def type : (fuel : Nat) → (path : List Rule) → (whole : Bool) → m TypeExpr
  | 0, _, _ => exhausted
  | fuel + 1, path, whole =>
    reading fun inside =>
      typeWith (fun rule whole => inside (type fuel (path ++ [rule]) whole)) path (fuel + 1) whole

/-- A type and the text after it. The text begins where the last token ends, but for spaces and
tabs. -/
def parsed (fuel : Nat) : m TypeExpr.Parsed := do
  let type ← type fuel [] true
  step do
    let (_, rest) ← cut (← get).stop (← read).text
    return ⟨type, rest.dropWhile fun c => c == ' ' || c == '\t'⟩

end Stepwise

/-- Reads the type at the front of `text` with a cursor. -/
def CursorM.parse (fuel : Nat) (location text : Text) : Except Halt TypeExpr.Parsed :=
  ((Stepwise.parsed fuel : CursorM TypeExpr.Parsed).run ⟨location, text⟩).run' ⟨0, 0⟩

end Docblock
