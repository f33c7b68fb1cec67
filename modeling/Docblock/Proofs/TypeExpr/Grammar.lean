import Docblock.Proofs.TypeExpr.Tokens
import Docblock.TypeExpr.Parser

/-!
# The grammar of types

`Reads p s r` says that the phrase `p` of the grammar stands at the front of the text `s` and that
`r` is what follows it. It is the reader of `Docblock.TypeExpr.Parser` without its failures, its
paths and its bounds on lengths: one constructor for each way in which a rule can succeed. A phrase
carries the tree it stands for, and where a rule continues something already read, such as the
parameters after a callee, also the tree it continues.

The path of rules matters to a successful reading only through the kind of place it leads to
(`TypePlace`): the top level of a tag, where a union may stand but no conditional; a place inside
another type, where both may; and the place of one branch, where neither may. The result of a
callable stands at the place of the callable.

`read_returns_iff` is the law: the reader returns a tree and a rest exactly when the grammar derives
them. Everything that is proved about successful readings is proved of derivations, by induction.

The grammar says nothing of texts on which the reader fails, so it has no place for errors; what
they point at is proved with the cursor (`Docblock.Proofs.TypeExpr.CursorReader`).
-/

namespace Docblock

/-- What a place of the grammar takes. -/
inductive TypePlace where
  /-- The top level of a tag: a union, but no conditional. -/
  | top
  /-- A place inside another type: a union or a conditional. -/
  | inner
  /-- One branch of a union. -/
  | branch
deriving DecidableEq

/-- The place to which a path leads, for a whole type or for one branch. -/
def TypePlace.at (path : List Rule) (whole : Bool) : TypePlace :=
  if whole then (if TypeExpr.isOutermost path then .top else .inner) else .branch

/-- A part of the grammar, with the trees it reads and continues. -/
inductive Phrase where
  | type (place : TypePlace) (t : TypeExpr)
  /-- A nullable type, or a primary with its parameters and square brackets. -/
  | branch (place : TypePlace) (t : TypeExpr)
  | primary (t : TypeExpr)
  /-- What follows the name of `t`. -/
  | named (name : Text) (t : TypeExpr)
  /-- The arguments that may follow a name. -/
  | generic (name : Text) (t : TypeExpr)
  /-- The parameters and the result that may follow `callee`. -/
  | call (place : TypePlace) (callee t : TypeExpr)
  /-- The square brackets that may follow `item`. -/
  | brackets (item t : TypeExpr)
  /-- The branches of a union after its first. -/
  | branches (ts : List TypeExpr)
  /-- The clauses that may follow `subject`. -/
  | clauses (place : TypePlace) (subject t : TypeExpr)
  | entry (e : ShapeEntry)
  | entries (es : List ShapeEntry)
  | arrayArguments (t : TypeExpr)
  | argument (t : TypeExpr)
  | arguments (ts : List TypeExpr)
  | parameter (p : Parameter)
  | parameters (ps : List Parameter)

/-- The name has no rule of its own before `s`: it is not `array` before a brace or an angle, nor
`list` before an angle. -/
def NoOwnRule (name s : Text) : Prop :=
  (name = SequenceKind.array.word → Mark.openBrace.Absent s ∧ Mark.openAngle.Absent s) ∧
    (name = SequenceKind.list.word → Mark.openAngle.Absent s)

/-- An argument of a generic type ends before `s`. -/
def EndsArgument (s : Text) : Prop := ¬ (Mark.comma.Absent s ∧ Mark.closeAngle.Absent s)

open TypeExpr in
/-- The phrase stands at the front of the first text, and the second follows it. -/
inductive Reads : Phrase → Text → Text → Prop
  | whole {place first branches t s r₁ r₂ r₃} : place ≠ .branch →
      Reads (.branch place first) s r₁ → Reads (.branches branches) r₁ r₂ →
      Reads (.clauses place (unionOf first branches) t) r₂ r₃ → Reads (.type place t) s r₃
  | single {t s r} : Reads (.branch .branch t) s r → Reads (.type .branch t) s r
  | nullable {place inner s r₁ r₂} : Mark.question.At s r₁ → Reads (.type .branch inner) r₁ r₂ →
      Reads (.branch place (.nullable inner)) s r₂
  | plain {place primary called t s r₁ r₂ r₃} : Reads (.primary primary) s r₁ →
      Reads (.call place primary called) r₁ r₂ → Reads (.brackets called t) r₂ r₃ →
      Reads (.branch place t) s r₃
  | ellipsis {s r} : Mark.ellipsis.At s r → Reads (.primary .ellipsis) s r
  | group {inner s r₁ r₂ r₃} : Mark.openParen.At s r₁ → Reads (.type .inner inner) r₁ r₂ →
      Mark.closeParen.At r₂ r₃ → Reads (.primary (.group inner)) s r₃
  | literal {quote body s r} : Token.LiteralAt quote body s r →
      Reads (.primary (.literal quote body)) s r
  | name {name t s r₁ r₂} : Token.NameAt name s r₁ → Reads (.named name t) r₁ r₂ →
      Reads (.primary t) s r₂
  | shape {es s r₁ r₂} : Mark.openBrace.At s r₁ → Reads (.entries es) r₁ r₂ →
      Reads (.named SequenceKind.array.word (.shape es)) s r₂
  | array {t s r₁ r₂} : Mark.openAngle.At s r₁ → Reads (.arrayArguments t) r₁ r₂ →
      Reads (.named SequenceKind.array.word t) s r₂
  | list {item s r₁ r₂ r₃} : Mark.openAngle.At s r₁ → Reads (.type .inner item) r₁ r₂ →
      Mark.closeAngle.At r₂ r₃ →
      Reads (.named SequenceKind.list.word (.sequence .list item)) s r₃
  | noMember {name t s r} : NoOwnRule name s → Reads (.generic name t) s r →
      Mark.doubleColon.Absent r → Reads (.named name t) s r
  | member {name owner member s r₁ r₂ r₃} : NoOwnRule name s → Reads (.generic name owner) s r₁ →
      Mark.doubleColon.At r₁ r₂ → Reads (.type .branch member) r₂ r₃ →
      Reads (.named name (.constant owner member)) s r₃
  | withArguments {name args s r₁ r₂} : Mark.openAngle.At s r₁ → Reads (.arguments args) r₁ r₂ →
      Reads (.generic name (.generic (.named name) args)) s r₂
  | withoutArguments {name s} : Mark.openAngle.Absent s → Reads (.generic name (.named name)) s s
  | called {place callee ps result s r₁ r₂ r₃ r₄} : Mark.openParen.At s r₁ →
      Reads (.parameters ps) r₁ r₂ → Mark.colon.At r₂ r₃ → Reads (.type place result) r₃ r₄ →
      Reads (.call place callee (.callable callee ps result)) s r₄
  | notCalled {place callee s} : Mark.openParen.Absent s → Reads (.call place callee callee) s s
  | bracketed {item t s r₁ r₂ r₃} : Mark.openBracket.At s r₁ → Mark.closeBracket.At r₁ r₂ →
      Reads (.brackets (.arrayOf item) t) r₂ r₃ → Reads (.brackets item t) s r₃
  | notBracketed {item s} : Mark.openBracket.Absent s → Reads (.brackets item item) s s
  | nextBranch {branch branches s r₁ r₂ r₃} : Mark.bar.At s r₁ →
      Reads (.type .branch branch) r₁ r₂ → Reads (.branches branches) r₂ r₃ →
      Reads (.branches (branch :: branches)) s r₃
  | noBranch {s} : Mark.bar.Absent s → Reads (.branches []) s s
  | conditional {subject bound consequent alternative s r₁ r₂ r₃ r₄ r₅ r₆} : Token.IsAt s r₁ →
      Reads (.type .inner bound) r₁ r₂ → Mark.question.At r₂ r₃ →
      Reads (.type .inner consequent) r₃ r₄ → Mark.colon.At r₄ r₅ →
      Reads (.type .inner alternative) r₅ r₆ →
      Reads (.clauses .inner subject (.conditional subject bound consequent alternative)) s r₆
  | unconditional {place subject s} : (place = .inner → ∀ r, ¬ Token.IsAt s r) →
      Reads (.clauses place subject subject) s s
  | optional {key value s r₁ r₂ r₃ r₄} : Reads (.type .inner key) s r₁ → Mark.question.At r₁ r₂ →
      Mark.colon.At r₂ r₃ → Reads (.type .inner value) r₃ r₄ →
      Reads (.entry (.keyed key true value)) s r₄
  | keyed {key value s r₁ r₂ r₃} : Reads (.type .inner key) s r₁ → Mark.colon.At r₁ r₂ →
      Reads (.type .inner value) r₂ r₃ → Reads (.entry (.keyed key false value)) s r₃
  | positional {value s r} : Reads (.type .inner value) s r → Mark.question.Absent r →
      Mark.colon.Absent r → Reads (.entry (.positional value)) s r
  | noEntry {s r} : Mark.closeBrace.At s r → Reads (.entries []) s r
  | lastEntry {e s r₁ r₂} : Reads (.entry e) s r₁ → Mark.closeBrace.At r₁ r₂ →
      Reads (.entries [e]) s r₂
  | nextEntry {e es s r₁ r₂ r₃} : Reads (.entry e) s r₁ → Mark.comma.At r₁ r₂ →
      Reads (.entries es) r₂ r₃ → Reads (.entries (e :: es)) s r₃
  | record {key value s r₁ r₂ r₃ r₄} : Reads (.type .inner key) s r₁ → Mark.comma.At r₁ r₂ →
      Reads (.type .inner value) r₂ r₃ → Mark.closeAngle.At r₃ r₄ →
      Reads (.arrayArguments (.record key value)) s r₄
  | sequence {item s r₁ r₂} : Reads (.type .inner item) s r₁ → Mark.closeAngle.At r₁ r₂ →
      Reads (.arrayArguments (.sequence .array item)) s r₂
  | unqualified {t s r} : Reads (.type .inner t) s r →
      (∀ name, t = .named name → EndsArgument r) → Reads (.argument t) s r
  | qualified {name target s r₁ r₂} : Reads (.type .inner (.named name)) s r₁ →
      ¬ EndsArgument r₁ → Reads (.type .inner target) r₁ r₂ →
      Reads (.argument (.qualified (.named name) target)) s r₂
  | lastArgument {t s r₁ r₂} : Reads (.argument t) s r₁ → Mark.closeAngle.At r₁ r₂ →
      Reads (.arguments [t]) s r₂
  | lastArgumentComma {t s r₁ r₂ r₃} : Reads (.argument t) s r₁ → Mark.comma.At r₁ r₂ →
      Mark.closeAngle.At r₂ r₃ → Reads (.arguments [t]) s r₃
  | nextArgument {t ts s r₁ r₂ r₃} : Reads (.argument t) s r₁ → Mark.comma.At r₁ r₂ →
      Reads (.arguments ts) r₂ r₃ → Reads (.arguments (t :: ts)) s r₃
  | namedParameter {type name s r₁ r₂} : Reads (.type .inner type) s r₁ →
      Token.ParameterNameAt name r₁ r₂ → Reads (.parameter (.named type name)) s r₂
  | unnamedParameter {type s r} : Reads (.type .inner type) s r →
      (∀ w u, ¬ Token.ParameterNameAt w r u) → Reads (.parameter (.unnamed type)) s r
  | noParameter {s r} : Mark.closeParen.At s r → Reads (.parameters []) s r
  | lastParameter {p s r₁ r₂} : Reads (.parameter p) s r₁ → Mark.closeParen.At r₁ r₂ →
      Reads (.parameters [p]) s r₂
  | nextParameter {p ps s r₁ r₂ r₃} : Reads (.parameter p) s r₁ → Mark.comma.At r₁ r₂ →
      Reads (.parameters ps) r₂ r₃ → Reads (.parameters (p :: ps)) s r₃

end Docblock
