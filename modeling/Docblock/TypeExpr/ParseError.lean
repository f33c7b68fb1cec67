import Docblock.Text.Offset
import Docblock.TypeExpr.Token

/-!
# Why a text is not a type

A failure is found at a place of the grammar and a place of the text. `ParseFailure` holds what the
reader knows there: the rules it is inside of, and the text that is left. `ParseError` is the form a
user sees, with the offset in bytes, the path of rules and an excerpt.

That the place of an error is in the text, on the border of a character and in front of a token, is
proved in `Docblock.Proofs.TypeExpr.CursorReader`. The path names the rules by fixed words, behind
the place that the text comes from.
-/

namespace Docblock

/-- The places of the grammar where a type stands inside another. -/
inductive Rule where
  | nullable
  | branch
  | bound
  | consequent
  | alternative
  | group
  | listItem
  | member
  | entry
  | entryValue
  | arrayArgument
  | arrayValue
  | argument
  | parameter
  | result
deriving DecidableEq

/-- The name of a rule in the path of an error. -/
def Rule.label : Rule → Text
  | .nullable => "maybe".toList
  | .branch => "union".toList
  | .bound => "conditional".toList
  | .consequent => "conditional-true".toList
  | .alternative => "conditional-false".toList
  | .group => "parentheses".toList
  | .listItem => "list".toList
  | .member => "static-access".toList
  | .entry => "array-entry".toList
  | .entryValue => "array-value".toList
  | .arrayArgument => "array-generic".toList
  | .arrayValue => "array-generic-value".toList
  | .argument => "generic".toList
  | .parameter => "parameters".toList
  | .result => "return-type".toList

/-- What a reader met. -/
inductive ParseCause where
  /-- No type begins here. -/
  | unexpected
  /-- The grammar leaves only this mark here. -/
  | expected (mark : Mark)
  /-- The quote that begins here is never closed. -/
  | unterminated
deriving DecidableEq

/-- A failure where it is found: its cause, the rules around it from the outermost to the innermost,
and the text left there. -/
structure ParseFailure where
  cause : ParseCause
  path : List Rule
  rest : Text
deriving DecidableEq

/-- A failure as it is reported. -/
structure ParseError where
  cause : ParseCause
  /-- Bytes before the place of the failure. -/
  offset : Nat
  path : Text
  excerpt : Text
deriving DecidableEq

/-- The number of characters an excerpt shows at most. -/
def ParseError.excerptLength : Nat := 25

/-- The beginning of a text as an error shows it. -/
def ParseError.excerptOf : Text → Text
  | [] => "<eol>".toList
  | rest => rest.take excerptLength

/-- The report of a failure in `text`, which stands at `location`. -/
def ParseFailure.report (location text : Text) (f : ParseFailure) : ParseError where
  cause := f.cause
  offset := Text.byteSize text - Text.byteSize f.rest
  path := ['.'].intercalate (location :: f.path.map Rule.label)
  excerpt := ParseError.excerptOf f.rest

/-- What an error says first. -/
def ParseCause.message : ParseCause → Text
  | .unexpected => "unexpected token".toList
  | .expected mark => "expected ".toList ++ mark.text
  | .unterminated => "unterminated string literal".toList

/-- The text of an error. -/
def ParseError.message (e : ParseError) : Text :=
  e.cause.message ++ " at offset ".toList ++ Text.ofNat e.offset ++ " at ".toList ++ e.path ++
    ": ".toList ++ e.excerpt

end Docblock
