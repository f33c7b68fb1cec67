import Docblock.Proofs.Except
import Docblock.Proofs.TypeExpr.Grammar

/-!
# The reader follows the grammar

The reader of types returns a tree and a rest exactly when the grammar derives them
(`read_returns_iff`).

Both directions follow the open recursion of the reader: each rule is sound, or complete, if the
reader of nested types that it is given is (`SoundBelow`, `CompleteBelow`), and `TypeExpr.read` ties
the knot by induction on the length of the text. For completeness, the grammar leaves out what a
rule rules out before it succeeds where the success itself rules it out: no type begins with a
closing mark, and no primary with a question mark (`Reads.begins`).

So the reader is deterministic and total on what the grammar derives, and later proofs about types
that were read are inductions over derivations, without a case in which something fails. The law
fixes what is read and what is left; it does not say what the reader answers where the grammar
derives nothing, but for the fact that it is an error.
-/

namespace Docblock

/-- A reader returns the value `a` and leaves the text `r`. -/
def Returns {ε α : Type} {P : Text → Prop} (x : Except ε (α × { r // P r })) (a : α) (r : Text) :
    Prop :=
  ∃ h, x = .ok (a, ⟨r, h⟩)

namespace TypeExpr

/-! ## Soundness -/

/-- A reader of nested types that returns only what the grammar derives. -/
def SoundBelow {n : Nat} (path : List Rule) (nested : Nested n) : Prop :=
  ∀ rule whole r h t r', nested rule whole r h = .ok (t, r') →
    Reads (.type (.at (path ++ [rule]) whole) t) r r'.1

/-- Inside another type every place takes a union or a conditional, but for the result of a
callable. -/
theorem place_at_nested (path : List Rule) {rule : Rule} (h : rule ≠ .result) :
    TypePlace.at (path ++ [rule]) true = .inner := by
  simp [TypePlace.at, isOutermost, h]

/-- The result of a callable stands where the callable does. -/
theorem place_at_result (path : List Rule) (whole : Bool) :
    TypePlace.at (path ++ [.result]) whole = TypePlace.at path whole := by
  simp [TypePlace.at, isOutermost]

section
variable {n : Nat} {nested : Nested n} {path : List Rule}

/-- What is read inside another type is derived for a place inside. -/
theorem SoundBelow.inner (hn : SoundBelow path nested) {rule : Rule} (hrule : rule ≠ .result)
    {r : Text} {h : r.length < n} {t : TypeExpr} {r' : Shorter r}
    (heq : nested rule true r h = .ok (t, r')) : Reads (.type .inner t) r r'.1 :=
  place_at_nested path hrule ▸ hn _ _ _ _ _ _ heq

/-- What is read as one branch is derived for the place of a branch. -/
theorem SoundBelow.branch (hn : SoundBelow path nested) {rule : Rule}
    {r : Text} {h : r.length < n} {t : TypeExpr} {r' : Shorter r}
    (heq : nested rule false r h = .ok (t, r')) : Reads (.type .branch t) r r'.1 :=
  hn _ _ _ _ _ _ heq

/-- A mark that was asked for stood there. -/
theorem at_of_expect {m : Mark} {s : Text} {r : Shorter s} (h : expect path m s = .ok r) :
    m.At s r.1 := by
  rw [expect] at h
  split at h
  · next r' hr =>
    cases h
    exact Token.mark?_eq_some_iff.1 hr
  · exact absurd h (by simp)

/-- The test for the end of an argument looks for a comma or an angle. -/
theorem endsArgument_iff {s : Text} : endsArgument s = true ↔ EndsArgument s := by
  rw [endsArgument, EndsArgument, ← Token.mark?_eq_none_iff, ← Token.mark?_eq_none_iff,
    Bool.or_eq_true, Option.isSome_iff_ne_none, Option.isSome_iff_ne_none,
    Classical.not_and_iff_not_or_not]

/-- An entry of a shape is derived: a value, or a key with a colon, optional or not. -/
theorem reads_of_readEntry (hn : SoundBelow path nested) {s : Text} {hs : s.length < n}
    {e : ShapeEntry} {r : Shorter s} (h : readEntry nested path s hs = .ok (e, r)) :
    Reads (.entry e) s r.1 := by
  unfold readEntry at h
  obtain ⟨⟨first, r₁, h₁⟩, hfirst, h⟩ := bind_eq_ok.1 h
  have hkey := hn.inner (by decide) hfirst
  dsimp only at h
  split at h
  · next r₂ h₂ hmark =>
    obtain ⟨⟨r₃, h₃⟩, hcolon, h⟩ := bind_eq_ok.1 h
    obtain ⟨⟨value, r₄, h₄⟩, hvalue, h⟩ := bind_eq_ok.1 h
    cases h
    exact .optional hkey (Token.mark?_eq_some_iff.1 hmark) (at_of_expect hcolon)
      (hn.inner (by decide) hvalue)
  · next hquestion =>
    split at h
    · next r₂ h₂ hmark =>
      obtain ⟨⟨value, r₃, h₃⟩, hvalue, h⟩ := bind_eq_ok.1 h
      cases h
      exact .keyed hkey (Token.mark?_eq_some_iff.1 hmark) (hn.inner (by decide) hvalue)
    · next hcolon =>
      cases h
      exact .positional hkey (Token.mark?_eq_none_iff.1 hquestion)
        (Token.mark?_eq_none_iff.1 hcolon)

/-- The entries of a shape are derived, one after the other up to the brace. The recursion is on the
text, which each entry and its comma shorten. -/
theorem reads_of_readEntries (hn : SoundBelow path nested) (s : Text) (hs : s.length < n)
    {es : List ShapeEntry} {r : Shorter s} (h : readEntries nested path s hs = .ok (es, r)) :
    Reads (.entries es) s r.1 := by
  rw [readEntries] at h
  split at h
  · next r' hmark =>
    cases h
    exact .noEntry (Token.mark?_eq_some_iff.1 hmark)
  · obtain ⟨⟨entry, r₁, h₁⟩, hentry, h⟩ := bind_eq_ok.1 h
    have hentry := reads_of_readEntry hn hentry
    dsimp only at h
    split at h
    · next r₂ h₂ hcomma =>
      obtain ⟨⟨entries, r₃, h₃⟩, hentries, h⟩ := bind_eq_ok.1 h
      cases h
      exact .nextEntry hentry (Token.mark?_eq_some_iff.1 hcomma)
        (reads_of_readEntries hn r₂ _ hentries)
    · obtain ⟨⟨r₂, h₂⟩, hbrace, h⟩ := bind_eq_ok.1 h
      cases h
      exact .lastEntry hentry (at_of_expect hbrace)
termination_by s.length

/-- One or two arguments of `array` are derived. -/
theorem reads_of_readArrayArguments (hn : SoundBelow path nested) {s : Text} {hs : s.length < n}
    {t : TypeExpr} {r : Shorter s} (h : readArrayArguments nested path s hs = .ok (t, r)) :
    Reads (.arrayArguments t) s r.1 := by
  unfold readArrayArguments at h
  obtain ⟨⟨first, r₁, h₁⟩, hfirst, h⟩ := bind_eq_ok.1 h
  have hfirst := hn.inner (by decide) hfirst
  dsimp only at h
  split at h
  · next r₂ h₂ hcomma =>
    obtain ⟨⟨value, r₃, h₃⟩, hvalue, h⟩ := bind_eq_ok.1 h
    obtain ⟨⟨r₄, h₄⟩, hangle, h⟩ := bind_eq_ok.1 h
    cases h
    exact .record hfirst (Token.mark?_eq_some_iff.1 hcomma) (hn.inner (by decide) hvalue)
      (at_of_expect hangle)
  · obtain ⟨⟨r₂, h₂⟩, hangle, h⟩ := bind_eq_ok.1 h
    cases h
    exact .sequence hfirst (at_of_expect hangle)

/-- An argument is derived, with a modifier in front of it or without. -/
theorem reads_of_readArgument (hn : SoundBelow path nested) {s : Text} {hs : s.length < n}
    {t : TypeExpr} {r : Shorter s} (h : readArgument nested s hs = .ok (t, r)) :
    Reads (.argument t) s r.1 := by
  unfold readArgument at h
  obtain ⟨⟨first, r₁, h₁⟩, hfirst, h⟩ := bind_eq_ok.1 h
  have hfirst := hn.inner (by decide) hfirst
  dsimp only at h
  split at h
  · next name =>
    split at h
    · next hend =>
      cases h
      exact .unqualified hfirst fun _ _ => endsArgument_iff.1 hend
    · next hend =>
      obtain ⟨⟨target, r₂, h₂⟩, htarget, h⟩ := bind_eq_ok.1 h
      cases h
      exact .qualified hfirst (mt endsArgument_iff.2 hend) (hn.inner (by decide) htarget)
  · next hother =>
    cases h
    exact .unqualified hfirst fun name hname => absurd hname (hother name)

/-- The arguments of a generic type are derived, one after the other up to the angle. -/
theorem reads_of_readArguments (hn : SoundBelow path nested) (s : Text) (hs : s.length < n)
    {ts : List TypeExpr} {r : Shorter s} (h : readArguments nested path s hs = .ok (ts, r)) :
    Reads (.arguments ts) s r.1 := by
  rw [readArguments] at h
  obtain ⟨⟨argument, r₁, h₁⟩, hargument, h⟩ := bind_eq_ok.1 h
  have hargument := reads_of_readArgument hn hargument
  dsimp only at h
  split at h
  · next r₂ h₂ hcomma =>
    have hcomma := Token.mark?_eq_some_iff.1 hcomma
    split at h
    · next r₃ h₃ hangle =>
      cases h
      exact .lastArgumentComma hargument hcomma (Token.mark?_eq_some_iff.1 hangle)
    · obtain ⟨⟨arguments, r₃, h₃⟩, harguments, h⟩ := bind_eq_ok.1 h
      cases h
      exact .nextArgument hargument hcomma (reads_of_readArguments hn r₂ _ harguments)
  · obtain ⟨⟨r₂, h₂⟩, hangle, h⟩ := bind_eq_ok.1 h
    cases h
    exact .lastArgument hargument (at_of_expect hangle)
termination_by s.length

/-- A parameter is derived, with a name or without. -/
theorem reads_of_readParameter (hn : SoundBelow path nested) {s : Text} {hs : s.length < n}
    {p : Parameter} {r : Shorter s} (h : readParameter nested s hs = .ok (p, r)) :
    Reads (.parameter p) s r.1 := by
  unfold readParameter at h
  obtain ⟨⟨type, r₁, h₁⟩, htype, h⟩ := bind_eq_ok.1 h
  have htype := hn.inner (by decide) htype
  dsimp only at h
  split at h
  · next name r₂ h₂ hname =>
    cases h
    exact .namedParameter htype (Token.parameterName?_eq_some_iff.1 hname)
  · next hname =>
    cases h
    exact .unnamedParameter htype (Token.parameterName?_eq_none_iff.1 hname)

/-- The parameters of a callable are derived, one after the other up to the parenthesis. -/
theorem reads_of_readParameters (hn : SoundBelow path nested) (s : Text) (hs : s.length < n)
    {ps : List Parameter} {r : Shorter s} (h : readParameters nested path s hs = .ok (ps, r)) :
    Reads (.parameters ps) s r.1 := by
  rw [readParameters] at h
  split at h
  · next r' hmark =>
    cases h
    exact .noParameter (Token.mark?_eq_some_iff.1 hmark)
  · obtain ⟨⟨parameter, r₁, h₁⟩, hparameter, h⟩ := bind_eq_ok.1 h
    have hparameter := reads_of_readParameter hn hparameter
    dsimp only at h
    split at h
    · next r₂ h₂ hcomma =>
      obtain ⟨⟨parameters, r₃, h₃⟩, hparameters, h⟩ := bind_eq_ok.1 h
      cases h
      exact .nextParameter hparameter (Token.mark?_eq_some_iff.1 hcomma)
        (reads_of_readParameters hn r₂ _ hparameters)
    · obtain ⟨⟨r₂, h₂⟩, hparen, h⟩ := bind_eq_ok.1 h
      cases h
      exact .lastParameter hparameter (at_of_expect hparen)
termination_by s.length

/-- Parameters and a result are derived where a parenthesis stands, and nothing elsewhere. -/
theorem reads_of_readCall (hn : SoundBelow path nested) {whole : Bool} {callee t : TypeExpr}
    {s : Text} {hs : s.length < n} {r : NoLonger s}
    (h : readCall nested path whole callee s hs = .ok (t, r)) :
    Reads (.call (.at path whole) callee t) s r.1 := by
  unfold readCall at h
  split at h
  · next r₁ h₁ hparen =>
    obtain ⟨⟨parameters, r₂, h₂⟩, hparameters, h⟩ := bind_eq_ok.1 h
    obtain ⟨⟨r₃, h₃⟩, hcolon, h⟩ := bind_eq_ok.1 h
    obtain ⟨⟨result, r₄, h₄⟩, hresult, h⟩ := bind_eq_ok.1 h
    cases h
    exact .called (Token.mark?_eq_some_iff.1 hparen) (reads_of_readParameters hn _ _ hparameters)
      (at_of_expect hcolon) (place_at_result path whole ▸ hn _ _ _ _ _ _ hresult)
  · next hparen =>
    cases h
    exact .notCalled (Token.mark?_eq_none_iff.1 hparen)

/-- Arguments are derived where an angle stands, and nothing elsewhere. -/
theorem reads_of_readGeneric (hn : SoundBelow path nested) {name : Text} {t : TypeExpr}
    {s : Text} {hs : s.length < n} {r : NoLonger s}
    (h : readGeneric nested path name s hs = .ok (t, r)) : Reads (.generic name t) s r.1 := by
  unfold readGeneric at h
  split at h
  · next r₁ h₁ hangle =>
    obtain ⟨⟨arguments, r₂, h₂⟩, harguments, h⟩ := bind_eq_ok.1 h
    cases h
    exact .withArguments (Token.mark?_eq_some_iff.1 hangle)
      (reads_of_readArguments hn _ _ harguments)
  · next hangle =>
    cases h
    exact .withoutArguments (Token.mark?_eq_none_iff.1 hangle)

/-- What follows a name without a rule of its own is derived: arguments, and perhaps a member. -/
theorem reads_of_readNameTail (hn : SoundBelow path nested) {name : Text} {t : TypeExpr}
    {s : Text} {hs : s.length < n} {r : NoLonger s} (hname : NoOwnRule name s)
    (h : readNameTail nested path name s hs = .ok (t, r)) : Reads (.named name t) s r.1 := by
  unfold readNameTail at h
  obtain ⟨⟨base, r₁, h₁⟩, hbase, h⟩ := bind_eq_ok.1 h
  have hbase := reads_of_readGeneric hn hbase
  dsimp only at h
  split at h
  · next r₂ h₂ hcolons =>
    obtain ⟨⟨member, r₃, h₃⟩, hmember, h⟩ := bind_eq_ok.1 h
    cases h
    exact .member hname hbase (Token.mark?_eq_some_iff.1 hcolons) (hn.branch hmember)
  · next hcolons =>
    cases h
    exact .noMember hname hbase (Token.mark?_eq_none_iff.1 hcolons)

/-- The two names with rules of their own are different. -/
theorem array_word_ne_list_word : SequenceKind.array.word ≠ SequenceKind.list.word := by decide

/-- What follows a name is derived, by the rule of the name or by the rule for all others. -/
theorem reads_of_readNamed (hn : SoundBelow path nested) {name : Text} {t : TypeExpr}
    {s : Text} {hs : s.length < n} {r : NoLonger s}
    (h : readNamed nested path name s hs = .ok (t, r)) : Reads (.named name t) s r.1 := by
  unfold readNamed at h
  split at h
  · next harray =>
    subst harray
    split at h
    · next r₁ h₁ hbrace =>
      obtain ⟨⟨entries, r₂, h₂⟩, hentries, h⟩ := bind_eq_ok.1 h
      cases h
      exact .shape (Token.mark?_eq_some_iff.1 hbrace) (reads_of_readEntries hn _ _ hentries)
    · next hbrace =>
      split at h
      · next r₁ h₁ hangle =>
        obtain ⟨⟨type, r₂, h₂⟩, htype, h⟩ := bind_eq_ok.1 h
        cases h
        exact .array (Token.mark?_eq_some_iff.1 hangle) (reads_of_readArrayArguments hn htype)
      · next hangle =>
        refine reads_of_readNameTail hn ⟨fun _ => ⟨?_, ?_⟩, ?_⟩ h
        · exact Token.mark?_eq_none_iff.1 hbrace
        · exact Token.mark?_eq_none_iff.1 hangle
        · exact fun hlist => absurd hlist array_word_ne_list_word
  · next harray =>
    split at h
    · next hlist =>
      subst hlist
      split at h
      · next r₁ h₁ hangle =>
        obtain ⟨⟨item, r₂, h₂⟩, hitem, h⟩ := bind_eq_ok.1 h
        obtain ⟨⟨r₃, h₃⟩, hclose, h⟩ := bind_eq_ok.1 h
        cases h
        exact .list (Token.mark?_eq_some_iff.1 hangle) (hn.inner (by decide) hitem)
          (at_of_expect hclose)
      · next hangle =>
        exact reads_of_readNameTail hn
          ⟨fun h => absurd h harray, fun _ => Token.mark?_eq_none_iff.1 hangle⟩ h
    · next hlist =>
      exact reads_of_readNameTail hn ⟨fun h => absurd h harray, fun h => absurd h hlist⟩ h

/-- A primary is derived by what it begins with. -/
theorem reads_of_readPrimary (hn : SoundBelow path nested) {t : TypeExpr} {s : Text}
    {hs : s.length ≤ n} {r : Shorter s} (h : readPrimary nested path s hs = .ok (t, r)) :
    Reads (.primary t) s r.1 := by
  unfold readPrimary at h
  split at h
  · next r' hellipsis =>
    cases h
    exact .ellipsis (Token.mark?_eq_some_iff.1 hellipsis)
  · split at h
    · next r₁ h₁ hparen =>
      obtain ⟨⟨inner, r₂, h₂⟩, hinner, h⟩ := bind_eq_ok.1 h
      obtain ⟨⟨r₃, h₃⟩, hclose, h⟩ := bind_eq_ok.1 h
      cases h
      exact .group (Token.mark?_eq_some_iff.1 hparen) (hn.inner (by decide) hinner)
        (at_of_expect hclose)
    · split at h
      · next quote hquote =>
        rw [readLiteral] at h
        split at h
        · next body r' hbody =>
          cases h
          exact .literal ((Token.literal?_eq_some_iff hquote).1 hbody)
        · exact absurd h (by simp)
      · split at h
        · next name r₁ h₁ hname =>
          obtain ⟨⟨type, r₂, h₂⟩, htype, h⟩ := bind_eq_ok.1 h
          cases h
          exact .name (Token.name?_eq_some_iff.1 hname) (reads_of_readNamed hn htype)
        · exact absurd h (by simp)

/-- Pairs of square brackets are derived, as many as there are. -/
theorem reads_of_readBrackets (item : TypeExpr) (s : Text) {t : TypeExpr} {r : NoLonger s}
    (h : readBrackets path item s = .ok (t, r)) : Reads (.brackets item t) s r.1 := by
  rw [readBrackets] at h
  split at h
  · next r₁ h₁ hopen =>
    obtain ⟨⟨r₂, h₂⟩, hclose, h⟩ := bind_eq_ok.1 h
    obtain ⟨⟨outer, r₃, h₃⟩, houter, h⟩ := bind_eq_ok.1 h
    cases h
    exact .bracketed (Token.mark?_eq_some_iff.1 hopen) (at_of_expect hclose)
      (reads_of_readBrackets (.arrayOf item) r₂ houter)
  · next hopen =>
    cases h
    exact .notBracketed (Token.mark?_eq_none_iff.1 hopen)
termination_by s.length

/-- A branch is derived: a nullable type, or a primary with what follows it. -/
theorem reads_of_readBranch (hn : SoundBelow path nested) {whole : Bool} {t : TypeExpr}
    {s : Text} {hs : s.length ≤ n} {r : Shorter s}
    (h : readBranch nested path whole s hs = .ok (t, r)) :
    Reads (.branch (.at path whole) t) s r.1 := by
  unfold readBranch at h
  split at h
  · next r₁ h₁ hquestion =>
    obtain ⟨⟨inner, r₂, h₂⟩, hinner, h⟩ := bind_eq_ok.1 h
    cases h
    exact .nullable (Token.mark?_eq_some_iff.1 hquestion) (hn.branch hinner)
  · obtain ⟨⟨primary, r₁, h₁⟩, hprimary, h⟩ := bind_eq_ok.1 h
    obtain ⟨⟨called, r₂, h₂⟩, hcalled, h⟩ := bind_eq_ok.1 h
    obtain ⟨⟨type, r₃, h₃⟩, htype, h⟩ := bind_eq_ok.1 h
    cases h
    exact .plain (reads_of_readPrimary hn hprimary) (reads_of_readCall hn hcalled)
      (reads_of_readBrackets _ _ htype)

/-- The further branches of a union are derived, as long as bars stand between. -/
theorem reads_of_readBranches (hn : SoundBelow path nested) (s : Text) (hs : s.length < n)
    {ts : List TypeExpr} {r : NoLonger s} (h : readBranches nested s hs = .ok (ts, r)) :
    Reads (.branches ts) s r.1 := by
  rw [readBranches] at h
  split at h
  · next r₁ h₁ hbar =>
    obtain ⟨⟨branch, r₂, h₂⟩, hbranch, h⟩ := bind_eq_ok.1 h
    obtain ⟨⟨branches, r₃, h₃⟩, hbranches, h⟩ := bind_eq_ok.1 h
    cases h
    exact .nextBranch (Token.mark?_eq_some_iff.1 hbar) (hn.branch hbranch)
      (reads_of_readBranches hn r₂ _ hbranches)
  · next hbar =>
    cases h
    exact .noBranch (Token.mark?_eq_none_iff.1 hbar)
termination_by s.length

/-- The clauses of a conditional are derived where the word `is` stands in a place that takes them.
-/
theorem reads_of_readClauses (hn : SoundBelow path nested) {subject t : TypeExpr}
    {s : Text} {hs : s.length < n} {r : NoLonger s}
    (h : readClauses nested path subject s hs = .ok (t, r)) :
    Reads (.clauses (.at path true) subject t) s r.1 := by
  unfold readClauses at h
  split at h
  · next hout =>
    cases h
    refine .unconditional fun hplace => ?_
    simp [TypePlace.at, hout] at hplace
  · next hout =>
    have hplace : TypePlace.at path true = .inner := by simp [TypePlace.at, hout]
    rw [hplace]
    split at h
    · next r₁ h₁ his =>
      obtain ⟨⟨bound, r₂, h₂⟩, hbound, h⟩ := bind_eq_ok.1 h
      obtain ⟨⟨r₃, h₃⟩, hquestion, h⟩ := bind_eq_ok.1 h
      obtain ⟨⟨consequent, r₄, h₄⟩, hconsequent, h⟩ := bind_eq_ok.1 h
      obtain ⟨⟨r₅, h₅⟩, hcolon, h⟩ := bind_eq_ok.1 h
      obtain ⟨⟨alternative, r₆, h₆⟩, halternative, h⟩ := bind_eq_ok.1 h
      cases h
      exact .conditional (Token.is?_eq_some_iff.1 his) (hn.inner (by decide) hbound)
        (at_of_expect hquestion) (hn.inner (by decide) hconsequent) (at_of_expect hcolon)
        (hn.inner (by decide) halternative)
    · next his =>
      cases h
      exact .unconditional fun _ => Token.is?_eq_none_iff.1 his

/-- A type is derived, if the types inside it are. -/
theorem reads_of_readWith (hn : SoundBelow path nested) {whole : Bool} {t : TypeExpr}
    {s : Text} {hs : s.length ≤ n} {r : Shorter s}
    (h : readWith nested path whole s hs = .ok (t, r)) :
    Reads (.type (.at path whole) t) s r.1 := by
  unfold readWith at h
  obtain ⟨⟨first, r₁, h₁⟩, hfirst, h'⟩ := bind_eq_ok.1 h
  have hbranch := reads_of_readBranch hn hfirst
  cases whole with
  | true =>
    obtain ⟨⟨branches, r₂, h₂⟩, hbranches, h'⟩ := bind_eq_ok.1 h'
    obtain ⟨⟨type, r₃, h₃⟩, htype, h'⟩ := bind_eq_ok.1 h'
    cases h'
    refine .whole ?_ hbranch (reads_of_readBranches hn _ _ hbranches)
      (reads_of_readClauses hn htype)
    simp only [TypePlace.at, if_true]
    split <;> decide
  | false =>
    cases h'
    exact .single hbranch

end

/-- What the reader returns, the grammar derives. -/
theorem reads_of_read (path : List Rule) (whole : Bool) (s : Text) {t : TypeExpr} {r : Shorter s}
    (h : read path whole s = .ok (t, r)) : Reads (.type (.at path whole) t) s r.1 := by
  rw [read] at h
  refine reads_of_readWith ?_ h
  intro rule whole' u hu t' r' h'
  exact reads_of_read (path ++ [rule]) whole' u h'
termination_by s.length

end TypeExpr

/-! ## Where a phrase begins -/

/-- After its layout the text begins with a character of the kind `p`. -/
def Begins (p : Char → Bool) (s : Text) : Prop := ∃ c ∈ (Token.skip s).head?, p c = true

/-- The characters with which a name can begin. -/
def opensName (c : Char) : Bool := c == '&' || c == '$' || Token.isNameChar c

/-- The characters with which a primary can begin. -/
def opensPrimary (c : Char) : Bool :=
  c == '.' || c == '(' || c == '\'' || c == '"' || opensName c

/-- The characters with which a type can begin. -/
def opensType (c : Char) : Bool := c == '?' || opensPrimary c

/-- A text that begins with a character of a kind begins with one of a wider kind. -/
theorem Begins.mono {p q : Char → Bool} {s : Text} (h : Begins p s)
    (hpq : ∀ c, p c = true → q c = true) : Begins q s := by
  obtain ⟨c, hc, hp⟩ := h
  exact ⟨c, hc, hpq c hp⟩

/-- A name is a primary. -/
theorem opensPrimary_of_opensName (c : Char) (h : opensName c = true) : opensPrimary c = true := by
  simp [opensPrimary, h]

/-- A primary is a type. -/
theorem opensType_of_opensPrimary (c : Char) (h : opensPrimary c = true) : opensType c = true := by
  simp [opensType, h]

/-- A mark whose first character is not of the kind with which the text begins is absent. -/
theorem Begins.absent {p : Char → Bool} {s : Text} (h : Begins p s) {m : Mark}
    (hm : ∀ c ∈ m.text.head?, p c = false) : m.Absent s := by
  obtain ⟨c, hc, hp⟩ := h
  refine Mark.absent_of_head? fun d hd hmem => ?_
  obtain rfl : c = d := Option.mem_unique hc hd
  simp [hm c hmem] at hp

/-- A text that begins otherwise does not begin with the word `is`. -/
theorem Begins.not_isAt {p : Char → Bool} {s : Text} (h : Begins p s) (hi : p 'i' = false)
    (r : Text) : ¬ Token.IsAt s r := by
  obtain ⟨c, hc, hp⟩ := h
  rintro ⟨hs, -⟩
  rw [hs] at hc
  cases hc
  simp [hi] at hp

/-- A name is not taken for a literal. -/
theorem Begins.quote?_eq_none {s : Text} (h : Begins opensName s) : Token.quote? s = none := by
  obtain ⟨c, hc, hp⟩ := h
  refine Token.quote?_eq_none_iff.2 fun quote hquote => ?_
  obtain rfl : c = quote.char := Option.mem_unique hc hquote
  revert hp
  cases quote <;> decide

/-- A text with a mark at the front begins as the mark does. -/
theorem Mark.At.begins {m : Mark} {s r : Text} (h : m.At s r) {p : Char → Bool}
    (hm : ∀ c ∈ m.text.head?, p c = true) : Begins p s := by
  have := m.text_length_pos
  cases htext : m.text with
  | nil => simp [htext] at this
  | cons c t =>
    refine ⟨c, ?_, hm c (by simp [htext])⟩
    rw [Mark.At, htext] at h
    simp [h]

/-- A text with a literal at the front begins with its quote. -/
theorem Token.LiteralAt.begins {quote : Quote} {body s r : Text}
    (h : Token.LiteralAt quote body s r) : Begins (· == quote.char) s :=
  ⟨quote.char, by simp [h.2], by simp⟩

/-- A text with a name at the front begins as names do. -/
theorem Token.NameAt.begins {w s r : Text} (h : Token.NameAt w s r) : Begins opensName s := by
  obtain ⟨hw, hs, -⟩ := h
  rcases hw with ⟨body, -, -, rfl⟩ | ⟨body, -, -, rfl⟩ | ⟨body, hne, hbody, hw⟩
  · exact ⟨'&', by simp [hs], by decide⟩
  · exact ⟨'$', by simp [hs], by decide⟩
  · cases body with
    | nil => exact absurd rfl hne
    | cons c body =>
      exact ⟨c, by simp [hs, hw], by simp [opensName, hbody c List.mem_cons_self]⟩

namespace Reads

/-- A primary begins with a character that opens one. -/
theorem begins_primary {t : TypeExpr} {s r : Text} (h : Reads (.primary t) s r) :
    Begins opensPrimary s := by
  cases h with
  | ellipsis hmark => exact hmark.begins (by decide)
  | group hmark _ _ => exact hmark.begins (by decide)
  | @literal quote _ _ _ hliteral =>
    refine hliteral.begins.mono fun c hc => ?_
    obtain rfl : c = quote.char := by simpa using hc
    cases quote <;> decide
  | name hname _ => exact hname.begins.mono opensPrimary_of_opensName

/-- A branch begins with a question mark or as a primary does. -/
theorem begins_branch {place : TypePlace} {t : TypeExpr} {s r : Text}
    (h : Reads (.branch place t) s r) : Begins opensType s := by
  cases h with
  | nullable hmark _ => exact hmark.begins (by decide)
  | plain hprimary _ _ => exact hprimary.begins_primary.mono opensType_of_opensPrimary

/-- A type begins with a character that opens types; so with no closing mark. -/
theorem begins {place : TypePlace} {t : TypeExpr} {s r : Text} (h : Reads (.type place t) s r) :
    Begins opensType s := by
  cases h with
  | whole _ hfirst _ _ => exact hfirst.begins_branch
  | single hbranch => exact hbranch.begins_branch

/-- An entry begins as a type does, so not with a closing brace. -/
theorem begins_entry {e : ShapeEntry} {s r : Text} (h : Reads (.entry e) s r) :
    Begins opensType s := by
  cases h with
  | optional hkey _ _ _ => exact hkey.begins
  | keyed hkey _ _ => exact hkey.begins
  | positional hvalue _ _ => exact hvalue.begins

/-- An argument begins as a type does. -/
theorem begins_argument {t : TypeExpr} {s r : Text} (h : Reads (.argument t) s r) :
    Begins opensType s := by
  cases h with
  | unqualified htype _ => exact htype.begins
  | qualified hname _ _ => exact hname.begins

/-- Arguments begin as a type does, so not with a closing angle. -/
theorem begins_arguments {ts : List TypeExpr} {s r : Text} (h : Reads (.arguments ts) s r) :
    Begins opensType s := by
  cases h with
  | lastArgument hargument _ => exact hargument.begins_argument
  | lastArgumentComma hargument _ _ => exact hargument.begins_argument
  | nextArgument hargument _ _ => exact hargument.begins_argument

/-- A parameter begins as a type does, so not with a closing parenthesis. -/
theorem begins_parameter {p : Parameter} {s r : Text} (h : Reads (.parameter p) s r) :
    Begins opensType s := by
  cases h with
  | namedParameter htype _ => exact htype.begins
  | unnamedParameter htype _ => exact htype.begins

end Reads

/-! ## Completeness -/

/-- Where a mark stands, no mark stands that begins with another character. -/
theorem Mark.At.excludes {m m' : Mark} {s r : Text} (h : m.At s r)
    (hne : m.text.head? ≠ m'.text.head?) : m'.Absent s := by
  have hbegins : Begins (fun c => m.text.head? == some c) s := h.begins fun c hc => by simp_all
  refine hbegins.absent fun c hc => ?_
  rw [Option.mem_def.1 hc] at hne
  simpa using hne

namespace TypeExpr

/-- A reader of nested types that returns all that the grammar derives. -/
def CompleteBelow {n : Nat} (path : List Rule) (nested : Nested n) : Prop :=
  ∀ rule whole s h t r, Reads (.type (.at (path ++ [rule]) whole) t) s r →
    Returns (nested rule whole s h) t r

section
variable {n : Nat} {nested : Nested n} {path : List Rule}

/-- A derivation inside another type is found by the reader there. -/
theorem CompleteBelow.inner (hn : CompleteBelow path nested) (rule : Rule) (hrule : rule ≠ .result)
    {s : Text} (hs : s.length < n) {t : TypeExpr} {r : Text} (h : Reads (.type .inner t) s r) :
    Returns (nested rule true s hs) t r := by
  rw [← place_at_nested path hrule] at h
  exact hn _ _ _ _ _ _ h

/-- A derivation of one branch is found by the reader there. -/
theorem CompleteBelow.branch (hn : CompleteBelow path nested) (rule : Rule) {s : Text}
    (hs : s.length < n) {t : TypeExpr} {r : Text} (h : Reads (.type .branch t) s r) :
    Returns (nested rule false s hs) t r :=
  hn _ _ _ _ _ _ h

/-- A mark that stands there is read when asked for. -/
theorem expect_of_at {m : Mark} {s r : Text} (h : m.At s r) :
    expect path m s = .ok ⟨r, h.length_lt⟩ := by
  simp [expect, h.mark?]

/-- A derived entry is read: the tests for a question mark and a colon are decided as the derivation
has them. -/
theorem returns_readEntry (hn : CompleteBelow path nested) {s : Text} (hs : s.length < n)
    {e : ShapeEntry} {r : Text} (h : Reads (.entry e) s r) :
    Returns (readEntry nested path s hs) e r := by
  cases h with
  | optional hkey hquestion hcolon hvalue =>
    obtain ⟨h₁, e₁⟩ := hn.inner .entry (by decide) hs hkey
    have := hquestion.length_lt
    have := hcolon.length_lt
    obtain ⟨h₂, e₂⟩ := hn.inner .entryValue (by decide) (by omega) hvalue
    refine ⟨by omega, ?_⟩
    simp only [readEntry, e₁, hquestion.mark?, expect_of_at hcolon, e₂, ok_bind]
    rfl
  | keyed hkey hcolon hvalue =>
    obtain ⟨h₁, e₁⟩ := hn.inner .entry (by decide) hs hkey
    have hquestion : Mark.question.Absent _ := hcolon.excludes (by decide)
    have := hcolon.length_lt
    obtain ⟨h₂, e₂⟩ := hn.inner .entryValue (by decide) (by omega) hvalue
    refine ⟨by omega, ?_⟩
    simp only [readEntry, e₁, hquestion.mark?, hcolon.mark?, e₂, ok_bind]
    rfl
  | positional hvalue hquestion hcolon =>
    obtain ⟨h₁, e₁⟩ := hn.inner .entry (by decide) hs hvalue
    refine ⟨h₁, ?_⟩
    simp only [readEntry, e₁, hquestion.mark?, hcolon.mark?, ok_bind]
    rfl

/-- Derived entries are read, and the brace ends them. -/
theorem returns_readEntries (hn : CompleteBelow path nested) (s : Text) (hs : s.length < n)
    {es : List ShapeEntry} {r : Text} (h : Reads (.entries es) s r) :
    Returns (readEntries nested path s hs) es r := by
  rw [readEntries]
  cases h with
  | noEntry hclose =>
    refine ⟨hclose.length_lt, ?_⟩
    simp only [hclose.mark?]
  | lastEntry hentry hclose =>
    have hbrace : Mark.closeBrace.Absent s := hentry.begins_entry.absent (by decide)
    obtain ⟨h₁, e₁⟩ := returns_readEntry hn hs hentry
    have hcomma : Mark.comma.Absent _ := hclose.excludes (by decide)
    have := hclose.length_lt
    refine ⟨by omega, ?_⟩
    simp only [hbrace.mark?, e₁, hcomma.mark?, expect_of_at hclose, ok_bind]
    rfl
  | @nextEntry _ _ _ r₁ r₂ _ hentry hcomma hentries =>
    have hbrace : Mark.closeBrace.Absent s := hentry.begins_entry.absent (by decide)
    obtain ⟨h₁, e₁⟩ := returns_readEntry hn hs hentry
    have := hcomma.length_lt
    obtain ⟨h₂, e₂⟩ := returns_readEntries hn r₂ (by omega) hentries
    refine ⟨by omega, ?_⟩
    simp only [hbrace.mark?, e₁, hcomma.mark?, e₂, ok_bind]
    rfl
termination_by s.length

/-- Derived arguments of `array` are read. -/
theorem returns_readArrayArguments (hn : CompleteBelow path nested) {s : Text} (hs : s.length < n)
    {t : TypeExpr} {r : Text} (h : Reads (.arrayArguments t) s r) :
    Returns (readArrayArguments nested path s hs) t r := by
  cases h with
  | record hkey hcomma hvalue hclose =>
    obtain ⟨h₁, e₁⟩ := hn.inner .arrayArgument (by decide) hs hkey
    have := hcomma.length_lt
    have := hclose.length_lt
    obtain ⟨h₂, e₂⟩ := hn.inner .arrayValue (by decide) (by omega) hvalue
    refine ⟨by omega, ?_⟩
    simp only [readArrayArguments, e₁, hcomma.mark?, e₂, expect_of_at hclose, ok_bind]
    rfl
  | sequence hitem hclose =>
    obtain ⟨h₁, e₁⟩ := hn.inner .arrayArgument (by decide) hs hitem
    have hcomma : Mark.comma.Absent _ := hclose.excludes (by decide)
    have := hclose.length_lt
    refine ⟨by omega, ?_⟩
    simp only [readArrayArguments, e₁, hcomma.mark?, expect_of_at hclose, ok_bind]
    rfl

/-- A derived argument is read, and a name in front is taken for a modifier just where the
derivation does. -/
theorem returns_readArgument (hn : CompleteBelow path nested) {s : Text} (hs : s.length < n)
    {t : TypeExpr} {r : Text} (h : Reads (.argument t) s r) :
    Returns (readArgument nested s hs) t r := by
  cases h with
  | unqualified htype hend =>
    obtain ⟨h₁, e₁⟩ := hn.inner .argument (by decide) hs htype
    refine ⟨h₁, ?_⟩
    simp only [readArgument, e₁, ok_bind]
    cases t with
    | named name => simp only [endsArgument_iff.2 (hend name rfl), if_true]; rfl
    | _ => rfl
  | qualified hname hend htarget =>
    obtain ⟨h₁, e₁⟩ := hn.inner .argument (by decide) hs hname
    obtain ⟨h₂, e₂⟩ := hn.inner .argument (by decide) (by omega) htarget
    refine ⟨by omega, ?_⟩
    simp only [readArgument, e₁, ok_bind, if_neg (mt endsArgument_iff.1 hend), e₂]
    rfl

/-- Derived arguments are read, also with a comma behind the last. -/
theorem returns_readArguments (hn : CompleteBelow path nested) (s : Text) (hs : s.length < n)
    {ts : List TypeExpr} {r : Text} (h : Reads (.arguments ts) s r) :
    Returns (readArguments nested path s hs) ts r := by
  rw [readArguments]
  cases h with
  | lastArgument hargument hclose =>
    obtain ⟨h₁, e₁⟩ := returns_readArgument hn hs hargument
    have hcomma : Mark.comma.Absent _ := hclose.excludes (by decide)
    have := hclose.length_lt
    refine ⟨by omega, ?_⟩
    simp only [e₁, hcomma.mark?, expect_of_at hclose, ok_bind]
    rfl
  | lastArgumentComma hargument hcomma hclose =>
    obtain ⟨h₁, e₁⟩ := returns_readArgument hn hs hargument
    have := hcomma.length_lt
    have := hclose.length_lt
    refine ⟨by omega, ?_⟩
    simp only [e₁, hcomma.mark?, hclose.mark?, ok_bind]
    rfl
  | @nextArgument _ _ _ r₁ r₂ _ hargument hcomma hnext =>
    obtain ⟨h₁, e₁⟩ := returns_readArgument hn hs hargument
    have hangle : Mark.closeAngle.Absent r₂ := hnext.begins_arguments.absent (by decide)
    have := hcomma.length_lt
    obtain ⟨h₂, e₂⟩ := returns_readArguments hn r₂ (by omega) hnext
    refine ⟨by omega, ?_⟩
    simp only [e₁, hcomma.mark?, hangle.mark?, e₂, ok_bind]
    rfl
termination_by s.length

/-- A derived parameter is read. -/
theorem returns_readParameter (hn : CompleteBelow path nested) {s : Text} (hs : s.length < n)
    {p : Parameter} {r : Text} (h : Reads (.parameter p) s r) :
    Returns (readParameter nested s hs) p r := by
  cases h with
  | namedParameter htype hname =>
    obtain ⟨h₁, e₁⟩ := hn.inner .parameter (by decide) hs htype
    have := hname.length_lt
    refine ⟨by omega, ?_⟩
    simp only [readParameter, e₁, hname.parameterName?, ok_bind]
    rfl
  | unnamedParameter htype hname =>
    obtain ⟨h₁, e₁⟩ := hn.inner .parameter (by decide) hs htype
    refine ⟨h₁, ?_⟩
    simp only [readParameter, e₁, Token.parameterName?_eq_none_iff.2 hname, ok_bind]
    rfl

/-- Derived parameters are read, and the parenthesis ends them. -/
theorem returns_readParameters (hn : CompleteBelow path nested) (s : Text) (hs : s.length < n)
    {ps : List Parameter} {r : Text} (h : Reads (.parameters ps) s r) :
    Returns (readParameters nested path s hs) ps r := by
  rw [readParameters]
  cases h with
  | noParameter hclose =>
    refine ⟨hclose.length_lt, ?_⟩
    simp only [hclose.mark?]
  | lastParameter hparameter hclose =>
    have hparen : Mark.closeParen.Absent s := hparameter.begins_parameter.absent (by decide)
    obtain ⟨h₁, e₁⟩ := returns_readParameter hn hs hparameter
    have hcomma : Mark.comma.Absent _ := hclose.excludes (by decide)
    have := hclose.length_lt
    refine ⟨by omega, ?_⟩
    simp only [hparen.mark?, e₁, hcomma.mark?, expect_of_at hclose, ok_bind]
    rfl
  | @nextParameter _ _ _ r₁ r₂ _ hparameter hcomma hparameters =>
    have hparen : Mark.closeParen.Absent s := hparameter.begins_parameter.absent (by decide)
    obtain ⟨h₁, e₁⟩ := returns_readParameter hn hs hparameter
    have := hcomma.length_lt
    obtain ⟨h₂, e₂⟩ := returns_readParameters hn r₂ (by omega) hparameters
    refine ⟨by omega, ?_⟩
    simp only [hparen.mark?, e₁, hcomma.mark?, e₂, ok_bind]
    rfl
termination_by s.length

/-- Derived parameters and their result are read. -/
theorem returns_readCall (hn : CompleteBelow path nested) {whole : Bool} {callee t : TypeExpr}
    {s : Text} (hs : s.length < n) {r : Text} (h : Reads (.call (.at path whole) callee t) s r) :
    Returns (readCall nested path whole callee s hs) t r := by
  cases h with
  | called hopen hparameters hcolon hresult =>
    have := hopen.length_lt
    have := hcolon.length_lt
    obtain ⟨h₁, e₁⟩ := returns_readParameters hn _ (by omega) hparameters
    rw [← place_at_result path whole] at hresult
    obtain ⟨h₂, e₂⟩ := hn .result whole _ (by omega) _ _ hresult
    refine ⟨by omega, ?_⟩
    simp only [readCall, hopen.mark?, e₁, expect_of_at hcolon, e₂, ok_bind]
    rfl
  | notCalled hopen =>
    refine ⟨Nat.le_refl _, ?_⟩
    simp only [readCall, hopen.mark?]
    rfl

/-- Derived arguments behind a name are read. -/
theorem returns_readGeneric (hn : CompleteBelow path nested) {name : Text} {t : TypeExpr}
    {s : Text} (hs : s.length < n) {r : Text} (h : Reads (.generic name t) s r) :
    Returns (readGeneric nested path name s hs) t r := by
  cases h with
  | withArguments hopen harguments =>
    have := hopen.length_lt
    obtain ⟨h₁, e₁⟩ := returns_readArguments hn _ (by omega) harguments
    refine ⟨by omega, ?_⟩
    simp only [readGeneric, hopen.mark?, e₁, ok_bind]
    rfl
  | withoutArguments hopen =>
    refine ⟨Nat.le_refl _, ?_⟩
    simp only [readGeneric, hopen.mark?]
    rfl

/-- A name without a rule of its own is read by the rule for all others. -/
theorem readNamed_of_noOwnRule {name s : Text} {hs : s.length < n} (h : NoOwnRule name s) :
    readNamed nested path name s hs = readNameTail nested path name s hs := by
  obtain ⟨harray, hlist⟩ := h
  rw [readNamed]
  split
  · next h => simp [(harray h).1.mark?, (harray h).2.mark?]
  · split
    · next h => simp [(hlist h).mark?]
    · rfl

/-- What is derived behind a name is read. -/
theorem returns_readNamed (hn : CompleteBelow path nested) {name : Text} {t : TypeExpr}
    {s : Text} (hs : s.length < n) {r : Text} (h : Reads (.named name t) s r) :
    Returns (readNamed nested path name s hs) t r := by
  cases h with
  | shape hopen hentries =>
    have := hopen.length_lt
    obtain ⟨h₁, e₁⟩ := returns_readEntries hn _ (by omega) hentries
    refine ⟨by omega, ?_⟩
    simp only [readNamed, if_true, hopen.mark?, e₁, ok_bind]
    rfl
  | array hopen harguments =>
    -- the reader tries a brace first, and no text begins with both marks
    have hbrace : Mark.openBrace.Absent s := hopen.excludes (by decide)
    have := hopen.length_lt
    obtain ⟨h₁, e₁⟩ := returns_readArrayArguments hn (by omega) harguments
    refine ⟨by omega, ?_⟩
    simp only [readNamed, if_true, hbrace.mark?, hopen.mark?, e₁, ok_bind]
    rfl
  | list hopen hitem hclose =>
    have := hopen.length_lt
    have := hclose.length_lt
    obtain ⟨h₁, e₁⟩ := hn.inner .listItem (by decide) (by omega) hitem
    refine ⟨by omega, ?_⟩
    simp only [readNamed, array_word_ne_list_word.symm, if_false, if_true, hopen.mark?, e₁,
      expect_of_at hclose, ok_bind]
    rfl
  | noMember hname hgeneric hcolons =>
    obtain ⟨h₁, e₁⟩ := returns_readGeneric hn hs hgeneric
    refine ⟨h₁, ?_⟩
    simp only [readNamed_of_noOwnRule hname, readNameTail, e₁, ok_bind, hcolons.mark?]
    rfl
  | member hname hgeneric hcolons hmember =>
    obtain ⟨h₁, e₁⟩ := returns_readGeneric hn hs hgeneric
    have := hcolons.length_lt
    obtain ⟨h₂, e₂⟩ := hn.branch .member (by omega) hmember
    refine ⟨by omega, ?_⟩
    simp only [readNamed_of_noOwnRule hname, readNameTail, e₁, ok_bind, hcolons.mark?, e₂]
    rfl

/-- A derived primary is read: its first character leads to the one rule that fits. -/
theorem returns_readPrimary (hn : CompleteBelow path nested) {t : TypeExpr} {s : Text}
    (hs : s.length ≤ n) {r : Text} (h : Reads (.primary t) s r) :
    Returns (readPrimary nested path s hs) t r := by
  cases h with
  | ellipsis hmark => exact ⟨hmark.length_lt, by simp only [readPrimary, hmark.mark?]⟩
  | group hopen hinner hclose =>
    have hellipsis : Mark.ellipsis.Absent s := hopen.excludes (by decide)
    have := hopen.length_lt
    have := hclose.length_lt
    obtain ⟨h₁, e₁⟩ := hn.inner .group (by decide) (by omega) hinner
    refine ⟨by omega, ?_⟩
    simp only [readPrimary, hellipsis.mark?, hopen.mark?, e₁, expect_of_at hclose, ok_bind]
    rfl
  | @literal quote body _ _ hliteral =>
    have hellipsis : Mark.ellipsis.Absent s := 
      hliteral.begins.absent (by cases quote <;> decide)
    have hparen : Mark.openParen.Absent s :=
      hliteral.begins.absent (by cases quote <;> decide)
    refine ⟨hliteral.length_lt, ?_⟩
    simp only [readPrimary, hellipsis.mark?, hparen.mark?, hliteral.quote?, readLiteral,
      hliteral.literal?]
  | name hname hnamed =>
    have hellipsis : Mark.ellipsis.Absent s := hname.begins.absent (by decide)
    have hparen : Mark.openParen.Absent s := hname.begins.absent (by decide)
    have := hname.length_lt
    obtain ⟨h₁, e₁⟩ := returns_readNamed hn (by omega) hnamed
    refine ⟨by omega, ?_⟩
    simp only [readPrimary, hellipsis.mark?, hparen.mark?, hname.begins.quote?_eq_none,
      hname.name?, e₁, ok_bind]
    rfl

/-- Derived pairs of square brackets are read. -/
theorem returns_readBrackets (path : List Rule) (item : TypeExpr) (s : Text) {t : TypeExpr}
    {r : Text} (h : Reads (.brackets item t) s r) : Returns (readBrackets path item s) t r := by
  rw [readBrackets]
  cases h with
  | @bracketed _ _ _ r₁ r₂ _ hopen hclose hbrackets =>
    have := hopen.length_lt
    have := hclose.length_lt
    obtain ⟨h₁, e₁⟩ := returns_readBrackets path (.arrayOf item) r₂ hbrackets
    refine ⟨by omega, ?_⟩
    simp only [hopen.mark?, expect_of_at hclose, e₁, ok_bind]
    rfl
  | notBracketed hopen =>
    refine ⟨Nat.le_refl _, ?_⟩
    simp only [hopen.mark?]
    rfl
termination_by s.length

/-- A derived branch is read. -/
theorem returns_readBranch (hn : CompleteBelow path nested) {whole : Bool} {t : TypeExpr}
    {s : Text} (hs : s.length ≤ n) {r : Text} (h : Reads (.branch (.at path whole) t) s r) :
    Returns (readBranch nested path whole s hs) t r := by
  cases h with
  | nullable hmark hinner =>
    have := hmark.length_lt
    obtain ⟨h₁, e₁⟩ := hn.branch .nullable (by omega) hinner
    refine ⟨by omega, ?_⟩
    simp only [readBranch, hmark.mark?, e₁, ok_bind]
    rfl
  | plain hprimary hcall hbrackets =>
    have hquestion : Mark.question.Absent s := hprimary.begins_primary.absent (by decide)
    obtain ⟨h₁, e₁⟩ := returns_readPrimary hn hs hprimary
    obtain ⟨h₂, e₂⟩ := returns_readCall hn (by omega) hcall
    obtain ⟨h₃, e₃⟩ := returns_readBrackets path _ _ hbrackets
    refine ⟨by omega, ?_⟩
    simp only [readBranch, hquestion.mark?, e₁, e₂, e₃, ok_bind]
    rfl

/-- Derived branches are read, as long as bars stand between. -/
theorem returns_readBranches (hn : CompleteBelow path nested) (s : Text) (hs : s.length < n)
    {ts : List TypeExpr} {r : Text} (h : Reads (.branches ts) s r) :
    Returns (readBranches nested s hs) ts r := by
  rw [readBranches]
  cases h with
  | @nextBranch _ _ _ r₁ r₂ _ hbar hbranch hbranches =>
    have := hbar.length_lt
    obtain ⟨h₁, e₁⟩ := hn.branch .branch (by omega) hbranch
    obtain ⟨h₂, e₂⟩ := returns_readBranches hn r₂ (by omega) hbranches
    refine ⟨by omega, ?_⟩
    simp only [hbar.mark?, e₁, e₂, ok_bind]
    rfl
  | noBranch hbar =>
    refine ⟨Nat.le_refl _, ?_⟩
    simp only [hbar.mark?]
    rfl
termination_by s.length

/-- Derived clauses are read, and none elsewhere. -/
theorem returns_readClauses (hn : CompleteBelow path nested) {subject t : TypeExpr} {s : Text}
    (hs : s.length < n) {r : Text} (h : Reads (.clauses (.at path true) subject t) s r) :
    Returns (readClauses nested path subject s hs) t r := by
  generalize hplace : TypePlace.at path true = place at h
  -- clauses are read everywhere but at the outermost type
  have hout : isOutermost path = false ↔ place = .inner := by
    rw [← hplace, TypePlace.at]
    cases isOutermost path <;> simp
  cases h with
  | conditional his hbound hquestion hconsequent hcolon halternative =>
    have := his.length_lt
    have := hquestion.length_lt
    have := hcolon.length_lt
    obtain ⟨h₁, e₁⟩ := hn.inner .bound (by decide) (by omega) hbound
    obtain ⟨h₂, e₂⟩ := hn.inner .consequent (by decide) (by omega) hconsequent
    obtain ⟨h₃, e₃⟩ := hn.inner .alternative (by decide) (by omega) halternative
    refine ⟨by omega, ?_⟩
    simp only [readClauses, hout.2 rfl, Bool.false_eq_true, if_false, his.is?, e₁,
      expect_of_at hquestion, e₂, expect_of_at hcolon, e₃, ok_bind]
    rfl
  | unconditional hnot =>
    refine ⟨Nat.le_refl _, ?_⟩
    rw [readClauses]
    split
    · rfl
    · next hinner =>
      have his := Token.is?_eq_none_iff.2 (hnot (hout.1 (eq_false_of_ne_true hinner)))
      simp only [his]
      rfl

/-- A derived type is read, if the types inside it are. -/
theorem returns_readWith (hn : CompleteBelow path nested) {whole : Bool} {t : TypeExpr} {s : Text}
    (hs : s.length ≤ n) {r : Text} (h : Reads (.type (.at path whole) t) s r) :
    Returns (readWith nested path whole s hs) t r := by
  generalize hplace : TypePlace.at path whole = place at h
  have hwhole : whole = true ↔ place ≠ .branch := by
    rw [← hplace, TypePlace.at]
    cases whole <;> cases isOutermost path <;> simp
  cases h with
  | whole hne hfirst hbranches hclauses =>
    obtain rfl := hwhole.2 hne
    subst hplace
    obtain ⟨h₁, e₁⟩ := returns_readBranch hn hs hfirst
    obtain ⟨h₂, e₂⟩ := returns_readBranches hn _ (by omega) hbranches
    obtain ⟨h₃, e₃⟩ := returns_readClauses hn (by omega) hclauses
    refine ⟨by omega, ?_⟩
    simp only [readWith, e₁, e₂, e₃, ok_bind, if_true]
    rfl
  | single hbranch =>
    obtain rfl : whole = false := eq_false_of_ne_true fun h => hwhole.1 h rfl
    rw [← hplace] at hbranch
    obtain ⟨h₁, e₁⟩ := returns_readBranch hn hs hbranch
    refine ⟨h₁, ?_⟩
    simp only [readWith, e₁, ok_bind, Bool.false_eq_true, if_false]
    rfl

end

/-- What the grammar derives, the reader returns. -/
theorem returns_read (path : List Rule) (whole : Bool) (s : Text) {t : TypeExpr} {r : Text}
    (h : Reads (.type (.at path whole) t) s r) : Returns (read path whole s) t r := by
  rw [read]
  refine returns_readWith ?_ _ h
  intro rule whole' u hu t' r' h'
  exact returns_read (path ++ [rule]) whole' u h'
termination_by s.length

end TypeExpr

/-- The reader returns a tree and a rest exactly when the grammar derives them. -/
theorem read_returns_iff {path : List Rule} {whole : Bool} {s : Text} {t : TypeExpr} {r : Text} :
    Returns (TypeExpr.read path whole s) t r ↔ Reads (.type (.at path whole) t) s r := by
  constructor
  · rintro ⟨h, heq⟩
    exact TypeExpr.reads_of_read path whole s heq
  · intro h
    exact TypeExpr.returns_read path whole s h

/-- A text parses to a type and a rest exactly when the type stands at its front, and the rest is
what follows less its spaces and tabs. -/
theorem parse_eq_ok_iff {location text : Text} {parsed : TypeExpr.Parsed} :
    TypeExpr.parse location text = .ok parsed ↔
      ∃ r, Reads (.type .top parsed.type) text r ∧
        parsed.rest = r.dropWhile fun c => c == ' ' || c == '\t' := by
  have hread : ∀ {t r}, Returns (TypeExpr.read [] true text) t r ↔ Reads (.type .top t) text r :=
    read_returns_iff
  obtain ⟨t, rest⟩ := parsed
  rw [TypeExpr.parse]
  constructor
  · intro h
    split at h
    · next t' r' heq =>
      cases h
      exact ⟨r'.1, hread.1 ⟨r'.2, heq⟩, rfl⟩
    · exact absurd h (by simp)
  · rintro ⟨r, hr, hrest⟩
    obtain ⟨h, heq⟩ := hread.2 hr
    simp only at hrest
    rw [heq, hrest]

end Docblock
