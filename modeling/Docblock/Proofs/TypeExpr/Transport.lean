import Docblock.Proofs.TypeExpr.Shape

/-!
# What is read off texts with the same tokens

A grammar sees of a text only the tokens it begins with, and what follows these. So if related texts
begin with the same tokens, and what follows is related again (`SameTokens`), the same can be read
off both (`Reads.transport`). What rules look for and do not find is kept by the relation too: it
works both ways (`SameMarks`).

The relation is a parameter, and the grammar is gone through once for all of them.
`Docblock.Proofs.TypeExpr.Relayout` takes texts that differ in a run of layout.
`Docblock.Proofs.TypeExpr.Respacing` takes texts that differ in blank lines, where literals are not
the same: so it has only the part about marks and names from here, and goes through the grammar with
a weaker conclusion.

What is read is the same tree, and the rests are related again. Nothing is said of errors but that
there are some for both texts or for neither: where an error is and what it quotes depends on the
layout.
-/

namespace Docblock

/-- Related texts begin with the same marks and names, and what follows is related. -/
structure SameMarks (R : Text → Text → Prop) : Prop where
  symm : ∀ {s s'}, R s s' → R s' s
  mark : ∀ {m : Mark} {s s' r}, R s s' → m.At s r → ∃ r', m.At s' r' ∧ R r r'
  name : ∀ {w s s' r}, R s s' → Token.NameAt w s r → ∃ r', Token.NameAt w s' r' ∧ R r r'
  parameterName : ∀ {w s s' r}, R s s' → Token.ParameterNameAt w s r →
    ∃ r', Token.ParameterNameAt w s' r' ∧ R r r'

/-- Related texts begin with the same tokens, and what follows is related. -/
structure SameTokens (R : Text → Text → Prop) : Prop extends SameMarks R where
  literal : ∀ {quote body s s' r}, R s s' → Token.LiteralAt quote body s r →
    ∃ r', Token.LiteralAt quote body s' r' ∧ R r r'

namespace SameMarks

variable {R : Text → Text → Prop} {s s' : Text}

/-- A mark that does not stand in the one text does not stand in the other, or it would stand in the
first. -/
theorem absent (hR : SameMarks R) (hs : R s s') {m : Mark} (h : m.Absent s) : m.Absent s' := by
  rintro ⟨r', hr'⟩
  obtain ⟨r, hat, -⟩ := hR.mark (hR.symm hs) hr'.symm
  exact h ⟨r, hat.symm⟩

/-- A name has a rule of its own in both texts or in neither. -/
theorem noOwnRule (hR : SameMarks R) (hs : R s s') {name : Text} (h : NoOwnRule name s) :
    NoOwnRule name s' := by
  obtain ⟨harray, hlist⟩ := h
  exact ⟨fun hname => ⟨hR.absent hs (harray hname).1, hR.absent hs (harray hname).2⟩,
    fun hname => hR.absent hs (hlist hname)⟩

/-- An argument ends in both texts or in neither. -/
theorem endsArgument (hR : SameMarks R) (hs : R s s') : EndsArgument s ↔ EndsArgument s' := by
  have habsent (m : Mark) : m.Absent s ↔ m.Absent s' :=
    ⟨hR.absent hs, hR.absent (hR.symm hs)⟩
  rw [EndsArgument, EndsArgument, habsent, habsent]

/-- The word of a conditional type stands in neither text, if it stands not in the one. -/
theorem not_isAt (hR : SameMarks R) (hs : R s s') (h : ∀ r, ¬ Token.IsAt s r) :
    ∀ r, ¬ Token.IsAt s' r := by
  intro r' hat
  obtain ⟨r, hat', -⟩ := hR.name (hR.symm hs) (Token.isAt_iff_nameAt.1 hat)
  exact h r (Token.isAt_iff_nameAt.2 hat')

end SameMarks

/-- The same is read off texts with the same tokens. -/
theorem Reads.transport {R : Text → Text → Prop} (hR : SameTokens R) {p : Phrase} {s r : Text}
    (h : Reads p s r) {s' : Text} (hs : R s s') : ∃ r', Reads p s' r' ∧ R r r' := by
  induction h generalizing s' with
  | whole hplace _ _ _ ih₁ ih₂ ih₃ =>
    obtain ⟨r₁, hfirst, hr₁⟩ := ih₁ hs
    obtain ⟨r₂, hbranches, hr₂⟩ := ih₂ hr₁
    obtain ⟨r₃, hclauses, hr₃⟩ := ih₃ hr₂
    exact ⟨r₃, .whole hplace hfirst hbranches hclauses, hr₃⟩
  | single _ ih =>
    obtain ⟨r, hbranch, hr⟩ := ih hs
    exact ⟨r, .single hbranch, hr⟩
  | nullable hquestion _ ih =>
    obtain ⟨r₁, hquestion', hr₁⟩ := hR.mark hs hquestion
    obtain ⟨r₂, hinner, hr₂⟩ := ih hr₁
    exact ⟨r₂, .nullable hquestion' hinner, hr₂⟩
  | plain _ _ _ ih₁ ih₂ ih₃ =>
    obtain ⟨r₁, hprimary, hr₁⟩ := ih₁ hs
    obtain ⟨r₂, hcall, hr₂⟩ := ih₂ hr₁
    obtain ⟨r₃, hbrackets, hr₃⟩ := ih₃ hr₂
    exact ⟨r₃, .plain hprimary hcall hbrackets, hr₃⟩
  | ellipsis hmark =>
    obtain ⟨r, hmark', hr⟩ := hR.mark hs hmark
    exact ⟨r, .ellipsis hmark', hr⟩
  | group hopen _ hclose ih =>
    obtain ⟨r₁, hopen', hr₁⟩ := hR.mark hs hopen
    obtain ⟨r₂, hinner, hr₂⟩ := ih hr₁
    obtain ⟨r₃, hclose', hr₃⟩ := hR.mark hr₂ hclose
    exact ⟨r₃, .group hopen' hinner hclose', hr₃⟩
  | literal hat =>
    obtain ⟨r, hat', hr⟩ := hR.literal hs hat
    exact ⟨r, .literal hat', hr⟩
  | name hat _ ih =>
    obtain ⟨r₁, hat', hr₁⟩ := hR.name hs hat
    obtain ⟨r₂, hnamed, hr₂⟩ := ih hr₁
    exact ⟨r₂, .name hat' hnamed, hr₂⟩
  | shape hopen _ ih =>
    obtain ⟨r₁, hopen', hr₁⟩ := hR.mark hs hopen
    obtain ⟨r₂, hentries, hr₂⟩ := ih hr₁
    exact ⟨r₂, .shape hopen' hentries, hr₂⟩
  | array hopen _ ih =>
    obtain ⟨r₁, hopen', hr₁⟩ := hR.mark hs hopen
    obtain ⟨r₂, harguments, hr₂⟩ := ih hr₁
    exact ⟨r₂, .array hopen' harguments, hr₂⟩
  | list hopen _ hclose ih =>
    obtain ⟨r₁, hopen', hr₁⟩ := hR.mark hs hopen
    obtain ⟨r₂, hitem, hr₂⟩ := ih hr₁
    obtain ⟨r₃, hclose', hr₃⟩ := hR.mark hr₂ hclose
    exact ⟨r₃, .list hopen' hitem hclose', hr₃⟩
  | noMember hrule _ hcolons ih =>
    obtain ⟨r, hgeneric, hr⟩ := ih hs
    exact ⟨r, .noMember (hR.noOwnRule hs hrule) hgeneric (hR.absent hr hcolons), hr⟩
  | member hrule _ hcolons _ ih₁ ih₂ =>
    obtain ⟨r₁, howner, hr₁⟩ := ih₁ hs
    obtain ⟨r₂, hcolons', hr₂⟩ := hR.mark hr₁ hcolons
    obtain ⟨r₃, hmember, hr₃⟩ := ih₂ hr₂
    exact ⟨r₃, .member (hR.noOwnRule hs hrule) howner hcolons' hmember, hr₃⟩
  | withArguments hopen _ ih =>
    obtain ⟨r₁, hopen', hr₁⟩ := hR.mark hs hopen
    obtain ⟨r₂, harguments, hr₂⟩ := ih hr₁
    exact ⟨r₂, .withArguments hopen' harguments, hr₂⟩
  -- where nothing is read, what matters is that the mark is absent, and nothing is passed
  | withoutArguments hopen => exact ⟨s', .withoutArguments (hR.absent hs hopen), hs⟩
  | called hopen _ hcolon _ ih₁ ih₂ =>
    obtain ⟨r₁, hopen', hr₁⟩ := hR.mark hs hopen
    obtain ⟨r₂, hparameters, hr₂⟩ := ih₁ hr₁
    obtain ⟨r₃, hcolon', hr₃⟩ := hR.mark hr₂ hcolon
    obtain ⟨r₄, hresult, hr₄⟩ := ih₂ hr₃
    exact ⟨r₄, .called hopen' hparameters hcolon' hresult, hr₄⟩
  | notCalled hopen => exact ⟨s', .notCalled (hR.absent hs hopen), hs⟩
  | bracketed hopen hclose _ ih =>
    obtain ⟨r₁, hopen', hr₁⟩ := hR.mark hs hopen
    obtain ⟨r₂, hclose', hr₂⟩ := hR.mark hr₁ hclose
    obtain ⟨r₃, hbrackets, hr₃⟩ := ih hr₂
    exact ⟨r₃, .bracketed hopen' hclose' hbrackets, hr₃⟩
  | notBracketed hopen => exact ⟨s', .notBracketed (hR.absent hs hopen), hs⟩
  | nextBranch hbar _ _ ih₁ ih₂ =>
    obtain ⟨r₁, hbar', hr₁⟩ := hR.mark hs hbar
    obtain ⟨r₂, hbranch, hr₂⟩ := ih₁ hr₁
    obtain ⟨r₃, hbranches, hr₃⟩ := ih₂ hr₂
    exact ⟨r₃, .nextBranch hbar' hbranch hbranches, hr₃⟩
  | noBranch hbar => exact ⟨s', .noBranch (hR.absent hs hbar), hs⟩
  | conditional his _ hquestion _ hcolon _ ih₁ ih₂ ih₃ =>
    obtain ⟨r₁, his', hr₁⟩ := hR.name hs (Token.isAt_iff_nameAt.1 his)
    obtain ⟨r₂, hbound, hr₂⟩ := ih₁ hr₁
    obtain ⟨r₃, hquestion', hr₃⟩ := hR.mark hr₂ hquestion
    obtain ⟨r₄, hconsequent, hr₄⟩ := ih₂ hr₃
    obtain ⟨r₅, hcolon', hr₅⟩ := hR.mark hr₄ hcolon
    obtain ⟨r₆, halternative, hr₆⟩ := ih₃ hr₅
    exact ⟨r₆, .conditional (Token.isAt_iff_nameAt.2 his') hbound hquestion' hconsequent hcolon'
      halternative, hr₆⟩
  | unconditional his =>
    exact ⟨s', .unconditional fun hplace => hR.not_isAt hs (his hplace), hs⟩
  | optional _ hquestion hcolon _ ih₁ ih₂ =>
    obtain ⟨r₁, hkey, hr₁⟩ := ih₁ hs
    obtain ⟨r₂, hquestion', hr₂⟩ := hR.mark hr₁ hquestion
    obtain ⟨r₃, hcolon', hr₃⟩ := hR.mark hr₂ hcolon
    obtain ⟨r₄, hvalue, hr₄⟩ := ih₂ hr₃
    exact ⟨r₄, .optional hkey hquestion' hcolon' hvalue, hr₄⟩
  | keyed _ hcolon _ ih₁ ih₂ =>
    obtain ⟨r₁, hkey, hr₁⟩ := ih₁ hs
    obtain ⟨r₂, hcolon', hr₂⟩ := hR.mark hr₁ hcolon
    obtain ⟨r₃, hvalue, hr₃⟩ := ih₂ hr₂
    exact ⟨r₃, .keyed hkey hcolon' hvalue, hr₃⟩
  | positional _ hquestion hcolon ih =>
    obtain ⟨r, hvalue, hr⟩ := ih hs
    exact ⟨r, .positional hvalue (hR.absent hr hquestion) (hR.absent hr hcolon), hr⟩
  | noEntry hclose =>
    obtain ⟨r, hclose', hr⟩ := hR.mark hs hclose
    exact ⟨r, .noEntry hclose', hr⟩
  | lastEntry _ hclose ih =>
    obtain ⟨r₁, hentry, hr₁⟩ := ih hs
    obtain ⟨r₂, hclose', hr₂⟩ := hR.mark hr₁ hclose
    exact ⟨r₂, .lastEntry hentry hclose', hr₂⟩
  | nextEntry _ hcomma _ ih₁ ih₂ =>
    obtain ⟨r₁, hentry, hr₁⟩ := ih₁ hs
    obtain ⟨r₂, hcomma', hr₂⟩ := hR.mark hr₁ hcomma
    obtain ⟨r₃, hentries, hr₃⟩ := ih₂ hr₂
    exact ⟨r₃, .nextEntry hentry hcomma' hentries, hr₃⟩
  | record _ hcomma _ hclose ih₁ ih₂ =>
    obtain ⟨r₁, hkey, hr₁⟩ := ih₁ hs
    obtain ⟨r₂, hcomma', hr₂⟩ := hR.mark hr₁ hcomma
    obtain ⟨r₃, hvalue, hr₃⟩ := ih₂ hr₂
    obtain ⟨r₄, hclose', hr₄⟩ := hR.mark hr₃ hclose
    exact ⟨r₄, .record hkey hcomma' hvalue hclose', hr₄⟩
  | sequence _ hclose ih =>
    obtain ⟨r₁, hitem, hr₁⟩ := ih hs
    obtain ⟨r₂, hclose', hr₂⟩ := hR.mark hr₁ hclose
    exact ⟨r₂, .sequence hitem hclose', hr₂⟩
  | unqualified _ hends ih =>
    obtain ⟨r, htype, hr⟩ := ih hs
    exact ⟨r, .unqualified htype fun name hname => (hR.endsArgument hr).1 (hends name hname), hr⟩
  | qualified _ hends _ ih₁ ih₂ =>
    obtain ⟨r₁, hmodifier, hr₁⟩ := ih₁ hs
    obtain ⟨r₂, htarget, hr₂⟩ := ih₂ hr₁
    exact ⟨r₂, .qualified hmodifier (mt (hR.endsArgument hr₁).2 hends) htarget, hr₂⟩
  | lastArgument _ hclose ih =>
    obtain ⟨r₁, hargument, hr₁⟩ := ih hs
    obtain ⟨r₂, hclose', hr₂⟩ := hR.mark hr₁ hclose
    exact ⟨r₂, .lastArgument hargument hclose', hr₂⟩
  | lastArgumentComma _ hcomma hclose ih =>
    obtain ⟨r₁, hargument, hr₁⟩ := ih hs
    obtain ⟨r₂, hcomma', hr₂⟩ := hR.mark hr₁ hcomma
    obtain ⟨r₃, hclose', hr₃⟩ := hR.mark hr₂ hclose
    exact ⟨r₃, .lastArgumentComma hargument hcomma' hclose', hr₃⟩
  | nextArgument _ hcomma _ ih₁ ih₂ =>
    obtain ⟨r₁, hargument, hr₁⟩ := ih₁ hs
    obtain ⟨r₂, hcomma', hr₂⟩ := hR.mark hr₁ hcomma
    obtain ⟨r₃, harguments, hr₃⟩ := ih₂ hr₂
    exact ⟨r₃, .nextArgument hargument hcomma' harguments, hr₃⟩
  | namedParameter _ hat ih =>
    obtain ⟨r₁, htype, hr₁⟩ := ih hs
    obtain ⟨r₂, hat', hr₂⟩ := hR.parameterName hr₁ hat
    exact ⟨r₂, .namedParameter htype hat', hr₂⟩
  -- the relation is used backwards: a name in the other text would be one here
  | unnamedParameter _ hnone ih =>
    obtain ⟨r, htype, hr⟩ := ih hs
    refine ⟨r, .unnamedParameter htype fun w u hat => ?_, hr⟩
    obtain ⟨u', hat', -⟩ := hR.parameterName (hR.symm hr) hat
    exact hnone w u' hat'
  | noParameter hclose =>
    obtain ⟨r, hclose', hr⟩ := hR.mark hs hclose
    exact ⟨r, .noParameter hclose', hr⟩
  | lastParameter _ hclose ih =>
    obtain ⟨r₁, hparameter, hr₁⟩ := ih hs
    obtain ⟨r₂, hclose', hr₂⟩ := hR.mark hr₁ hclose
    exact ⟨r₂, .lastParameter hparameter hclose', hr₂⟩
  | nextParameter _ hcomma _ ih₁ ih₂ =>
    obtain ⟨r₁, hparameter, hr₁⟩ := ih₁ hs
    obtain ⟨r₂, hcomma', hr₂⟩ := hR.mark hr₁ hcomma
    obtain ⟨r₃, hparameters, hr₃⟩ := ih₂ hr₂
    exact ⟨r₃, .nextParameter hparameter hcomma' hparameters, hr₃⟩

end Docblock
