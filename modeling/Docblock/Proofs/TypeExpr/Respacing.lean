import Docblock.Proofs.TypeExpr.Leaves
import Docblock.Proofs.TypeExpr.Transport

/-!
# Blank lines within a type

Whether a type can be read off a text does not depend on the number of line feeds in a row: outside
of literals they are layout, and a literal takes any of them into its body. `Alike s s'` says that
two texts are the same but for this; what is read off the one can be read off the other, with other
bodies of literals at most (`Reads.again`).

Two readings differ in bodies of literals, so they are not of one tree. What has to be kept of a
tree is only what the rules ask about it: whether it is a bare name, which decides whether an
argument may qualify a type, and whether there are branches at all (`Phrase.Again`).

The result is used where no type can be read (`TypeExpr.parse_error_of_alike`): a tag whose type
cannot be read is written with fewer blank lines, and its type cannot be read then either. That the
tree is the same for any other layout, where there is one, is proved in
`Docblock.Proofs.TypeExpr.Relayout`.
-/

namespace Docblock

namespace Text

/-- The text with each run of line feeds made one line feed. -/
def squeeze : Text → Text
  | [] => []
  | c :: r => if c = '\n' ∧ r.head? = some '\n' then squeeze r else c :: squeeze r

/-- The texts are the same but for the length of their runs of line feeds. -/
def Alike (s s' : Text) : Prop := squeeze s = squeeze s'

/-- Neither of two texts that are alike comes first. -/
theorem Alike.symm {s s' : Text} (h : Alike s s') : Alike s' s := Eq.symm h

/-- A character that is no line feed stays. -/
theorem squeeze_cons {c : Char} (hc : c ≠ '\n') (r : Text) : squeeze (c :: r) = c :: squeeze r := by
  simp [squeeze, hc]

/-- Of a run of line feeds the first one stays. -/
theorem squeeze_lf_cons (r : Text) :
    squeeze ('\n' :: r) = '\n' :: squeeze (r.dropWhile (· == '\n')) := by
  induction r with
  | nil => simp [squeeze]
  | cons c r ih =>
    by_cases hc : c = '\n'
    · subst hc
      rw [squeeze, if_pos (by simp), ih]
      simp
    · simp [squeeze, hc]

/-- A text begins as it did. -/
@[simp] theorem head?_squeeze (s : Text) : (squeeze s).head? = s.head? := by
  cases s with
  | nil => rfl
  | cons c r =>
    by_cases hc : c = '\n'
    · subst hc
      rw [squeeze_lf_cons]
      rfl
    · rw [squeeze_cons hc]
      rfl

/-- A part without line feeds stays. -/
theorem squeeze_append {w : Text} (hw : '\n' ∉ w) (r : Text) :
    squeeze (w ++ r) = w ++ squeeze r := by
  induction w with
  | nil => rfl
  | cons c w ih =>
    simp only [List.mem_cons, not_or] at hw
    rw [List.cons_append, squeeze_cons (Ne.symm hw.1), ih hw.2, List.cons_append]

/-- What a text without line feeds is squeezed to stands in it as it is. -/
theorem Alike.exists_append {w r s' : Text} (h : Alike (w ++ r) s') (hw : '\n' ∉ w) :
    ∃ r', s' = w ++ r' ∧ Alike r r' := by
  rw [Alike, squeeze_append hw] at h
  induction w generalizing s' with
  | nil => exact ⟨s', rfl, h⟩
  | cons c w ih =>
    simp only [List.mem_cons, not_or] at hw
    have hhead : s'.head? = some c := by rw [← head?_squeeze, ← h]; rfl
    obtain ⟨r', rfl⟩ := List.head?_eq_some_iff.1 hhead
    rw [squeeze_cons (Ne.symm hw.1)] at h
    obtain ⟨r'', rfl, hr⟩ := ih (List.cons.inj h).2 hw.2
    exact ⟨r'', rfl, hr⟩

/-- A character that is no line feed stands in both texts. -/
theorem Alike.exists_append_singleton {c : Char} {r s' : Text} (h : Alike (c :: r) s')
    (hc : c ≠ '\n') : ∃ r', s' = c :: r' ∧ Alike r r' := by
  have hlf : '\n' ∉ [c] := by simpa using Ne.symm hc
  exact h.exists_append hlf

/-- Texts that are alike begin with the same character. -/
theorem Alike.head? {s s' : Text} (h : Alike s s') : s'.head? = s.head? := by
  rw [← head?_squeeze s, h, head?_squeeze]

/-- Line feeds are layout, so what follows the layout is the same. -/
theorem skip_squeeze (s : Text) : Token.skip (squeeze s) = squeeze (Token.skip s) := by
  induction s with
  | nil => rfl
  | cons c r ih =>
    cases hc : Token.isLayout c with
    | true =>
      have hskip : Token.skip (c :: r) = Token.skip r := by simp [Token.skip, hc]
      rw [hskip, ← ih, squeeze]
      split
      · rfl
      · simp [Token.skip, hc]
    | false =>
      have hlf : c ≠ '\n' := by
        rintro rfl
        simp [Token.isLayout] at hc
      have hskip (k : Text) : Token.skip (c :: k) = c :: k := by simp [Token.skip, hc]
      rw [squeeze_cons hlf, hskip, hskip, squeeze_cons hlf]

/-- Behind their layout texts that are alike are alike. -/
theorem Alike.skip {s s' : Text} (h : Alike s s') : Alike (Token.skip s) (Token.skip s') := by
  rw [Alike, ← skip_squeeze, ← skip_squeeze, h]

/-- What stands behind the layout of one text stands behind that of the other, if it is in one
line. -/
theorem Alike.exists_skip_append {s s' w r : Text} (h : Alike s s') (hskip : Token.skip s = w ++ r)
    (hw : '\n' ∉ w) : ∃ r', Token.skip s' = w ++ r' ∧ Alike r r' := by
  have halike := h.skip
  rw [hskip] at halike
  exact halike.exists_append hw

end Text

open Text

/-! ## Tokens -/

/-- No mark holds a line feed. -/
theorem Mark.lf_not_mem_text (m : Mark) : '\n' ∉ m.text := by
  cases m <;> decide

/-- A mark stands in both texts. -/
theorem Text.Alike.at {m : Mark} {s s' r : Text} (h : Alike s s') (hat : m.At s r) :
    ∃ r', m.At s' r' ∧ Alike r r' :=
  h.exists_skip_append hat m.lf_not_mem_text

/-- A word ends in both texts. -/
theorem Text.Alike.endsWord {p : Char → Bool} {r r' : Text} (h : Alike r r')
    (hr : Token.EndsWord p r) : Token.EndsWord p r' := by
  rwa [Token.EndsWord, h.head?]

/-- A name stands in both texts. -/
theorem Text.Alike.nameAt {w s s' r : Text} (h : Alike s s') (hat : Token.NameAt w s r) :
    ∃ r', Token.NameAt w s' r' ∧ Alike r r' := by
  obtain ⟨hname, hskip, hend⟩ := hat
  obtain ⟨r', hskip', hr⟩ := h.exists_skip_append hskip (hname.not_mem (by decide) (by decide))
  exact ⟨r', ⟨hname, hskip', hr.endsWord hend⟩, hr⟩

/-- The name of a parameter stands in both texts. -/
theorem Text.Alike.parameterNameAt {w s s' r : Text} (h : Alike s s')
    (hat : Token.ParameterNameAt w s r) : ∃ r', Token.ParameterNameAt w s' r' ∧ Alike r r' := by
  obtain ⟨hname, hskip, hend⟩ := hat
  obtain ⟨r', hskip', hr⟩ := h.exists_skip_append hskip (hname.not_mem (by decide) (by decide))
  exact ⟨r', ⟨hname, hskip', hr.endsWord hend⟩, hr⟩

/-- Texts that are alike begin with the same marks and names. -/
theorem sameMarks_alike : SameMarks Text.Alike where
  symm := Text.Alike.symm
  mark := Text.Alike.at
  name := Text.Alike.nameAt
  parameterName := Text.Alike.parameterNameAt

/-- The body of a literal may begin with any number of line feeds. -/
theorem Token.IsBody.lf_append {quote : Char} {body : Text} (h : Token.IsBody quote body)
    (hquote : quote ≠ '\n') (n : Nat) :
    Token.IsBody quote (List.replicate n '\n' ++ body) := by
  induction n with
  | zero => exact h
  | succ n ih =>
    rw [List.replicate_succ, List.cons_append, Token.IsBody]
    · exact ⟨by decide, Ne.symm hquote, ih⟩
    · simp

/-- The text without the line feeds at its front. -/
def afterFeeds (s : Text) : Text := s.dropWhile (· == '\n')

/-- A text is line feeds and what stands behind them. -/
theorem exists_replicate_lf (s : Text) : ∃ n, s = List.replicate n '\n' ++ afterFeeds s := by
  refine ⟨(s.takeWhile (· == '\n')).length, ?_⟩
  have htake : s.takeWhile (· == '\n') = List.replicate (s.takeWhile (· == '\n')).length '\n' :=
    List.eq_replicate_of_mem fun c hc => by simpa using List.mem_takeWhile_imp hc
  have hsplit : s.takeWhile (· == '\n') ++ afterFeeds s = s := List.takeWhile_append_dropWhile
  rw [← htake, hsplit]

/-- One line feed more or less in front makes no difference. -/
theorem afterFeeds_lf_cons (s : Text) : afterFeeds ('\n' :: s) = afterFeeds s := by
  simp [afterFeeds]

/-- Where no line feed stands there is none to pass. -/
theorem afterFeeds_cons {c : Char} (hc : c ≠ '\n') (s : Text) : afterFeeds (c :: s) = c :: s := by
  simp [afterFeeds, hc]

/-- Behind a character that both begin with, two texts are alike up to line feeds. -/
theorem Text.Alike.tail {c : Char} {r r' : Text} (h : Alike (c :: r) (c :: r')) :
    Alike (afterFeeds r) (afterFeeds r') := by
  by_cases hc : c = '\n'
  · subst hc
    rw [Alike, squeeze_lf_cons, squeeze_lf_cons] at h
    exact (List.cons.inj h).2
  · rw [Alike, squeeze_cons hc, squeeze_cons hc] at h
    have hr : Alike r r' := (List.cons.inj h).2
    cases r with
    | nil =>
      obtain rfl : r' = [] := List.head?_eq_none_iff.1 hr.head?
      rfl
    | cons d r =>
      obtain ⟨u, rfl⟩ := List.head?_eq_some_iff.1 hr.head?
      by_cases hd : d = '\n'
      · subst hd
        rw [Alike, squeeze_lf_cons, squeeze_lf_cons] at hr
        rw [afterFeeds_lf_cons, afterFeeds_lf_cons]
        exact (List.cons.inj hr).2
      · rwa [afterFeeds_cons hd, afterFeeds_cons hd]

/-- The first character stands in both texts, and up to line feeds what follows is alike. -/
theorem Text.Alike.exists_cons {c : Char} {r s' : Text} (h : Alike (c :: r) s') :
    ∃ r', s' = c :: r' ∧ Alike (afterFeeds r) (afterFeeds r') := by
  obtain ⟨r', rfl⟩ := List.head?_eq_some_iff.1 h.head?
  exact ⟨r', rfl, h.tail⟩

/-- A body and its closing quote stand in a text that is alike, up to the line feeds at the front of
either. -/
theorem Token.IsBody.again {quote : Char} (hquote : quote ≠ '\n') {body : Text}
    (h : Token.IsBody quote body) {r s' : Text}
    (hs : Alike (afterFeeds (body ++ quote :: r)) (afterFeeds s')) :
    ∃ body' r', Token.IsBody quote body' ∧ s' = body' ++ quote :: r' ∧ Alike r r' := by
  obtain ⟨n, hn⟩ := exists_replicate_lf s'
  fun_induction Token.IsBody quote body generalizing s' n with
  | case1 =>
    rw [List.nil_append, afterFeeds_cons hquote] at hs
    obtain ⟨r', hr', halike⟩ := hs.exists_append_singleton hquote
    have hnil : Token.IsBody quote [] := trivial
    exact ⟨_, r', hnil.lf_append hquote n, by rw [hn, hr', List.append_nil], halike⟩
  -- A line feed behind a backslash belongs to the pair, so only what follows it may be squeezed.
  | case2 c body ih =>
    have hslash : '\\' ≠ '\n' := by decide
    rw [List.cons_append, afterFeeds_cons hslash] at hs
    obtain ⟨u, hu, hrest⟩ := hs.exists_append_singleton hslash
    obtain ⟨v, rfl, htail⟩ := hrest.exists_cons
    obtain ⟨m, hm⟩ := exists_replicate_lf v
    obtain ⟨body', r', hbody', rfl, halike⟩ := ih h htail m hm
    have hescaped : Token.IsBody quote ('\\' :: c :: body') := hbody'
    exact ⟨_, r', hescaped.lf_append hquote n, by rw [hn, hu]; simp, halike⟩
  | case3 c body hc ih =>
    obtain ⟨hne, hnot, hbody⟩ := h
    rw [List.cons_append] at hs
    by_cases hlf : c = '\n'
    · subst hlf
      rw [afterFeeds_lf_cons] at hs
      exact ih hbody hs n hn
    · rw [afterFeeds_cons hlf] at hs
      obtain ⟨u, hu, htail⟩ := hs.exists_cons
      obtain ⟨m, hm⟩ := exists_replicate_lf u
      obtain ⟨body', r', hbody', rfl, halike⟩ := ih hbody htail m hm
      have hcons : Token.IsBody quote (c :: body') := by
        rw [Token.IsBody]
        · exact ⟨hne, hnot, hbody'⟩
        · rintro d k rfl -
          exact hne rfl
      exact ⟨_, r', hcons.lf_append hquote n, by rw [hn, hu]; simp, halike⟩

/-- A literal stands in both texts, with bodies that may differ in line feeds. -/
theorem Text.Alike.literalAt {quote : Quote} {body s s' r : Text} (h : Alike s s')
    (hat : Token.LiteralAt quote body s r) :
    ∃ body' r', Token.LiteralAt quote body' s' r' ∧ Alike r r' := by
  have hquote : quote.char ≠ '\n' := by cases quote <;> decide
  obtain ⟨hbody, hskip⟩ := hat
  have halike := h.skip
  rw [hskip] at halike
  obtain ⟨u, hu, htail⟩ := halike.exists_cons
  obtain ⟨body', r', hbody', rfl, hr⟩ := hbody.again hquote htail
  exact ⟨body', r', ⟨hbody', hu⟩, hr⟩

/-! ## Readings -/

/-- Whether a tree is a bare name. Only this decides on what may follow an argument. -/
def TypeExpr.isNamed : TypeExpr → Bool
  | .named _ => true
  | _ => false

/-- A tree can be read off `s'` as part of a phrase, a bare name if `t` is one, and what is left is
alike to `r`. -/
def Rereads (phrase : TypeExpr → Phrase) (t : TypeExpr) (s' r : Text) : Prop :=
  ∃ t' r', t'.isNamed = t.isNamed ∧ Alike r r' ∧ Reads (phrase t') s' r'

/-- A phrase of the same kind can be read off `s'`, and what is left is alike to `r`. -/
def Phrase.Again (s' r : Text) : Phrase → Prop
  | .type place t => Rereads (.type place) t s' r
  | .branch place t => Rereads (.branch place) t s' r
  | .primary t => Rereads .primary t s' r
  | .named name t => Rereads (.named name) t s' r
  | .generic name t => Rereads (.generic name) t s' r
  | .call place callee t =>
      ∀ callee', callee'.isNamed = callee.isNamed → Rereads (.call place callee') t s' r
  | .brackets item t => ∀ item', item'.isNamed = item.isNamed → Rereads (.brackets item') t s' r
  | .branches ts => ∃ ts' r', (ts' = [] ↔ ts = []) ∧ Alike r r' ∧ Reads (.branches ts') s' r'
  | .clauses place subject t =>
      ∀ subject', subject'.isNamed = subject.isNamed → Rereads (.clauses place subject') t s' r
  | .entry _ => ∃ e' r', Alike r r' ∧ Reads (.entry e') s' r'
  | .entries _ => ∃ es' r', Alike r r' ∧ Reads (.entries es') s' r'
  | .arrayArguments t => Rereads .arrayArguments t s' r
  | .argument _ => ∃ t' r', Alike r r' ∧ Reads (.argument t') s' r'
  | .arguments _ => ∃ ts' r', Alike r r' ∧ Reads (.arguments ts') s' r'
  | .parameter _ => ∃ p' r', Alike r r' ∧ Reads (.parameter p') s' r'
  | .parameters _ => ∃ ps' r', Alike r r' ∧ Reads (.parameters ps') s' r'

/-- A union is a bare name if it has one branch, and that is one. -/
theorem isNamed_unionOf {first first' : TypeExpr} {branches branches' : List TypeExpr}
    (hfirst : first'.isNamed = first.isNamed) (hbranches : branches' = [] ↔ branches = []) :
    (TypeExpr.unionOf first' branches').isNamed = (TypeExpr.unionOf first branches).isNamed := by
  cases branches <;> cases branches' <;> simp_all [TypeExpr.unionOf, TypeExpr.isNamed]

/-- What can be read off a text can be read off every text that is alike. -/
theorem Reads.again {p : Phrase} {s r : Text} (h : Reads p s r) {s' : Text} (hs : Alike s s') :
    p.Again s' r := by
  induction h generalizing s' with
  | whole hplace _ _ _ ih₁ ih₂ ih₃ =>
    obtain ⟨first, r₁, hfirst, hr₁, hreads₁⟩ := ih₁ hs
    obtain ⟨branches, r₂, hbranches, hr₂, hreads₂⟩ := ih₂ hr₁
    obtain ⟨t, r₃, ht, hr₃, hreads₃⟩ := ih₃ hr₂ _ (isNamed_unionOf hfirst hbranches)
    exact ⟨t, r₃, ht, hr₃, .whole hplace hreads₁ hreads₂ hreads₃⟩
  | single _ ih =>
    obtain ⟨t, r, ht, hr, hreads⟩ := ih hs
    exact ⟨t, r, ht, hr, .single hreads⟩
  | nullable hquestion _ ih =>
    obtain ⟨r₁, hquestion', hr₁⟩ := hs.at hquestion
    obtain ⟨inner, r₂, -, hr₂, hreads⟩ := ih hr₁
    exact ⟨.nullable inner, r₂, rfl, hr₂, .nullable hquestion' hreads⟩
  | plain _ _ _ ih₁ ih₂ ih₃ =>
    obtain ⟨primary, r₁, hprimary, hr₁, hreads₁⟩ := ih₁ hs
    obtain ⟨called, r₂, hcalled, hr₂, hreads₂⟩ := ih₂ hr₁ primary hprimary
    obtain ⟨t, r₃, ht, hr₃, hreads₃⟩ := ih₃ hr₂ called hcalled
    exact ⟨t, r₃, ht, hr₃, .plain hreads₁ hreads₂ hreads₃⟩
  | ellipsis hmark =>
    obtain ⟨r, hmark', hr⟩ := hs.at hmark
    exact ⟨.ellipsis, r, rfl, hr, .ellipsis hmark'⟩
  | group hopen _ hclose ih =>
    obtain ⟨r₁, hopen', hr₁⟩ := hs.at hopen
    obtain ⟨inner, r₂, -, hr₂, hreads⟩ := ih hr₁
    obtain ⟨r₃, hclose', hr₃⟩ := hr₂.at hclose
    exact ⟨.group inner, r₃, rfl, hr₃, .group hopen' hreads hclose'⟩
  | literal hat =>
    obtain ⟨body, r, hat', hr⟩ := hs.literalAt hat
    exact ⟨.literal _ body, r, rfl, hr, .literal hat'⟩
  | name hat _ ih =>
    obtain ⟨r₁, hat', hr₁⟩ := hs.nameAt hat
    obtain ⟨t, r₂, ht, hr₂, hreads⟩ := ih hr₁
    exact ⟨t, r₂, ht, hr₂, .name hat' hreads⟩
  | shape hopen _ ih =>
    obtain ⟨r₁, hopen', hr₁⟩ := hs.at hopen
    obtain ⟨es, r₂, hr₂, hreads⟩ := ih hr₁
    exact ⟨.shape es, r₂, rfl, hr₂, .shape hopen' hreads⟩
  | array hopen _ ih =>
    obtain ⟨r₁, hopen', hr₁⟩ := hs.at hopen
    obtain ⟨t, r₂, ht, hr₂, hreads⟩ := ih hr₁
    exact ⟨t, r₂, ht, hr₂, .array hopen' hreads⟩
  | list hopen _ hclose ih =>
    obtain ⟨r₁, hopen', hr₁⟩ := hs.at hopen
    obtain ⟨item, r₂, -, hr₂, hreads⟩ := ih hr₁
    obtain ⟨r₃, hclose', hr₃⟩ := hr₂.at hclose
    exact ⟨.sequence .list item, r₃, rfl, hr₃, .list hopen' hreads hclose'⟩
  | noMember hrule _ hcolons ih =>
    obtain ⟨t, r, ht, hr, hreads⟩ := ih hs
    exact ⟨t, r, ht, hr, .noMember (sameMarks_alike.noOwnRule hs hrule) hreads
      (sameMarks_alike.absent hr hcolons)⟩
  | member hrule _ hcolons _ ih₁ ih₂ =>
    obtain ⟨owner, r₁, -, hr₁, hreads₁⟩ := ih₁ hs
    obtain ⟨r₂, hcolons', hr₂⟩ := hr₁.at hcolons
    obtain ⟨member, r₃, -, hr₃, hreads₂⟩ := ih₂ hr₂
    exact ⟨.constant owner member, r₃, rfl, hr₃,
      .member (sameMarks_alike.noOwnRule hs hrule) hreads₁ hcolons' hreads₂⟩
  | withArguments hopen _ ih =>
    obtain ⟨r₁, hopen', hr₁⟩ := hs.at hopen
    obtain ⟨args, r₂, hr₂, hreads⟩ := ih hr₁
    exact ⟨.generic _ args, r₂, rfl, hr₂, .withArguments hopen' hreads⟩
  | withoutArguments hopen =>
    exact ⟨.named _, s', rfl, hs, .withoutArguments (sameMarks_alike.absent hs hopen)⟩
  | called hopen _ hcolon _ ih₁ ih₂ =>
    intro callee _
    obtain ⟨r₁, hopen', hr₁⟩ := hs.at hopen
    obtain ⟨ps, r₂, hr₂, hreads₁⟩ := ih₁ hr₁
    obtain ⟨r₃, hcolon', hr₃⟩ := hr₂.at hcolon
    obtain ⟨result, r₄, -, hr₄, hreads₂⟩ := ih₂ hr₃
    exact ⟨.callable callee ps result, r₄, rfl, hr₄, .called hopen' hreads₁ hcolon' hreads₂⟩
  | notCalled hopen =>
    exact fun callee hcallee =>
      ⟨callee, s', hcallee, hs, .notCalled (sameMarks_alike.absent hs hopen)⟩
  | bracketed hopen hclose _ ih =>
    intro item _
    obtain ⟨r₁, hopen', hr₁⟩ := hs.at hopen
    obtain ⟨r₂, hclose', hr₂⟩ := hr₁.at hclose
    obtain ⟨t, r₃, ht, hr₃, hreads⟩ := ih hr₂ (.arrayOf item) rfl
    exact ⟨t, r₃, ht, hr₃, .bracketed hopen' hclose' hreads⟩
  | notBracketed hopen =>
    exact fun item hitem =>
      ⟨item, s', hitem, hs, .notBracketed (sameMarks_alike.absent hs hopen)⟩
  | nextBranch hbar _ _ ih₁ ih₂ =>
    obtain ⟨r₁, hbar', hr₁⟩ := hs.at hbar
    obtain ⟨branch, r₂, -, hr₂, hreads₁⟩ := ih₁ hr₁
    obtain ⟨branches, r₃, -, hr₃, hreads₂⟩ := ih₂ hr₂
    exact ⟨branch :: branches, r₃, by simp, hr₃, .nextBranch hbar' hreads₁ hreads₂⟩
  | noBranch hbar => exact ⟨[], s', Iff.rfl, hs, .noBranch (sameMarks_alike.absent hs hbar)⟩
  | conditional his _ hquestion _ hcolon _ ih₁ ih₂ ih₃ =>
    intro subject _
    obtain ⟨r₁, his', hr₁⟩ := hs.nameAt (Token.isAt_iff_nameAt.1 his)
    obtain ⟨bound, r₂, -, hr₂, hreads₁⟩ := ih₁ hr₁
    obtain ⟨r₃, hquestion', hr₃⟩ := hr₂.at hquestion
    obtain ⟨consequent, r₄, -, hr₄, hreads₂⟩ := ih₂ hr₃
    obtain ⟨r₅, hcolon', hr₅⟩ := hr₄.at hcolon
    obtain ⟨alternative, r₆, -, hr₆, hreads₃⟩ := ih₃ hr₅
    exact ⟨.conditional subject bound consequent alternative, r₆, rfl, hr₆,
      .conditional (Token.isAt_iff_nameAt.2 his') hreads₁ hquestion' hreads₂ hcolon' hreads₃⟩
  | unconditional his =>
    exact fun subject hsubject =>
      ⟨subject, s', hsubject, hs,
        .unconditional fun hplace => sameMarks_alike.not_isAt hs (his hplace)⟩
  | optional _ hquestion hcolon _ ih₁ ih₂ =>
    obtain ⟨key, r₁, -, hr₁, hreads₁⟩ := ih₁ hs
    obtain ⟨r₂, hquestion', hr₂⟩ := hr₁.at hquestion
    obtain ⟨r₃, hcolon', hr₃⟩ := hr₂.at hcolon
    obtain ⟨value, r₄, -, hr₄, hreads₂⟩ := ih₂ hr₃
    exact ⟨.keyed key true value, r₄, hr₄, .optional hreads₁ hquestion' hcolon' hreads₂⟩
  | keyed _ hcolon _ ih₁ ih₂ =>
    obtain ⟨key, r₁, -, hr₁, hreads₁⟩ := ih₁ hs
    obtain ⟨r₂, hcolon', hr₂⟩ := hr₁.at hcolon
    obtain ⟨value, r₃, -, hr₃, hreads₂⟩ := ih₂ hr₂
    exact ⟨.keyed key false value, r₃, hr₃, .keyed hreads₁ hcolon' hreads₂⟩
  | positional _ hquestion hcolon ih =>
    obtain ⟨value, r, -, hr, hreads⟩ := ih hs
    exact ⟨.positional value, r, hr, .positional hreads (sameMarks_alike.absent hr hquestion)
      (sameMarks_alike.absent hr hcolon)⟩
  | noEntry hclose =>
    obtain ⟨r, hclose', hr⟩ := hs.at hclose
    exact ⟨[], r, hr, .noEntry hclose'⟩
  | lastEntry _ hclose ih =>
    obtain ⟨e, r₁, hr₁, hreads⟩ := ih hs
    obtain ⟨r₂, hclose', hr₂⟩ := hr₁.at hclose
    exact ⟨[e], r₂, hr₂, .lastEntry hreads hclose'⟩
  | nextEntry _ hcomma _ ih₁ ih₂ =>
    obtain ⟨e, r₁, hr₁, hreads₁⟩ := ih₁ hs
    obtain ⟨r₂, hcomma', hr₂⟩ := hr₁.at hcomma
    obtain ⟨es, r₃, hr₃, hreads₂⟩ := ih₂ hr₂
    exact ⟨e :: es, r₃, hr₃, .nextEntry hreads₁ hcomma' hreads₂⟩
  | record _ hcomma _ hclose ih₁ ih₂ =>
    obtain ⟨key, r₁, -, hr₁, hreads₁⟩ := ih₁ hs
    obtain ⟨r₂, hcomma', hr₂⟩ := hr₁.at hcomma
    obtain ⟨value, r₃, -, hr₃, hreads₂⟩ := ih₂ hr₂
    obtain ⟨r₄, hclose', hr₄⟩ := hr₃.at hclose
    exact ⟨.record key value, r₄, rfl, hr₄, .record hreads₁ hcomma' hreads₂ hclose'⟩
  | sequence _ hclose ih =>
    obtain ⟨item, r₁, -, hr₁, hreads⟩ := ih hs
    obtain ⟨r₂, hclose', hr₂⟩ := hr₁.at hclose
    exact ⟨.sequence .array item, r₂, rfl, hr₂, .sequence hreads hclose'⟩
  | @unqualified t s r _ hends ih =>
    -- whether the argument may end here is asked of bare names alone, which is why readings keep
    -- them
    obtain ⟨t', r', ht, hr, hreads⟩ := ih hs
    refine ⟨t', r', hr, .unqualified hreads ?_⟩
    rintro name rfl
    rw [← sameMarks_alike.endsArgument hr]
    cases t with
    | named name' => exact hends name' rfl
    | _ => simp [TypeExpr.isNamed] at ht
  | qualified _ hends _ ih₁ ih₂ =>
    obtain ⟨modifier, r₁, hmodifier, hr₁, hreads₁⟩ := ih₁ hs
    obtain ⟨target, r₂, -, hr₂, hreads₂⟩ := ih₂ hr₁
    cases modifier with
    | named name =>
      have hends' := mt (sameMarks_alike.endsArgument hr₁).2 hends
      exact ⟨_, r₂, hr₂, .qualified hreads₁ hends' hreads₂⟩
    | _ => simp [TypeExpr.isNamed] at hmodifier
  | lastArgument _ hclose ih =>
    obtain ⟨t, r₁, hr₁, hreads⟩ := ih hs
    obtain ⟨r₂, hclose', hr₂⟩ := hr₁.at hclose
    exact ⟨[t], r₂, hr₂, .lastArgument hreads hclose'⟩
  | lastArgumentComma _ hcomma hclose ih =>
    obtain ⟨t, r₁, hr₁, hreads⟩ := ih hs
    obtain ⟨r₂, hcomma', hr₂⟩ := hr₁.at hcomma
    obtain ⟨r₃, hclose', hr₃⟩ := hr₂.at hclose
    exact ⟨[t], r₃, hr₃, .lastArgumentComma hreads hcomma' hclose'⟩
  | nextArgument _ hcomma _ ih₁ ih₂ =>
    obtain ⟨t, r₁, hr₁, hreads₁⟩ := ih₁ hs
    obtain ⟨r₂, hcomma', hr₂⟩ := hr₁.at hcomma
    obtain ⟨ts, r₃, hr₃, hreads₂⟩ := ih₂ hr₂
    exact ⟨t :: ts, r₃, hr₃, .nextArgument hreads₁ hcomma' hreads₂⟩
  | namedParameter _ hat ih =>
    obtain ⟨type, r₁, -, hr₁, hreads⟩ := ih hs
    obtain ⟨r₂, hat', hr₂⟩ := hr₁.parameterNameAt hat
    exact ⟨_, r₂, hr₂, .namedParameter hreads hat'⟩
  | unnamedParameter _ hnone ih =>
    obtain ⟨type, r, -, hr, hreads⟩ := ih hs
    refine ⟨_, r, hr, .unnamedParameter hreads fun w u hat => ?_⟩
    obtain ⟨u', hat', -⟩ := hr.symm.parameterNameAt hat
    exact hnone w u' hat'
  | noParameter hclose =>
    obtain ⟨r, hclose', hr⟩ := hs.at hclose
    exact ⟨[], r, hr, .noParameter hclose'⟩
  | lastParameter _ hclose ih =>
    obtain ⟨p, r₁, hr₁, hreads⟩ := ih hs
    obtain ⟨r₂, hclose', hr₂⟩ := hr₁.at hclose
    exact ⟨[p], r₂, hr₂, .lastParameter hreads hclose'⟩
  | nextParameter _ hcomma _ ih₁ ih₂ =>
    obtain ⟨p, r₁, hr₁, hreads₁⟩ := ih₁ hs
    obtain ⟨r₂, hcomma', hr₂⟩ := hr₁.at hcomma
    obtain ⟨ps, r₃, hr₃, hreads₂⟩ := ih₂ hr₂
    exact ⟨p :: ps, r₃, hr₃, .nextParameter hreads₁ hcomma' hreads₂⟩

/-- A text has no type where no text that is alike has one. -/
theorem TypeExpr.parse_error_of_alike {location text text' : Text} (h : Alike text text')
    {e : ParseError} (herror : parse location text = .error e) :
    ∃ e', parse location text' = .error e' := by
  cases hparse : parse location text' with
  | error e' => exact ⟨e', rfl⟩
  | ok parsed =>
    obtain ⟨r', hreads, -⟩ := parse_eq_ok_iff.1 hparse
    obtain ⟨t, r, -, -, hreads⟩ := hreads.again h.symm
    have hok : parse location text = .ok ⟨t, r.dropWhile fun c => c == ' ' || c == '\t'⟩ :=
      parse_eq_ok_iff.2 ⟨r, hreads, rfl⟩
    rw [herror] at hok
    cases hok

end Docblock
