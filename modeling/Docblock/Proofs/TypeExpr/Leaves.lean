import Mathlib.Data.List.Infix
import Docblock.Proofs.TypeExpr.Arranged
import Docblock.Proofs.TypeExpr.Written

/-!
# The leaves of a tree

All that a tree adds of its own to a written type are its names and its literals; the rest is fixed
by its constructors. `TypeExpr.Leaves names literals t` says something of each name and of the body
of each literal in `t`, at every depth. It is known of the trees that are read (`Reads.leaves`), it
survives arranging with and without expansion (`TypeExpr.Leaves.arrange`), and it tells what the
pieces of the written form may be (`TypeExpr.Leaves.pieces`).

The two predicates are used for quite different things: that no name or literal closes a comment,
that names hold no `@` and no white space, that literals are in one piece. Each is a property of the
text a tree was read from, and `Reads.leaves` carries it over, since names and literals are
stretches of that text. Two such facts about one tree can be joined (`TypeExpr.Leaves.combine`) or
weakened.
-/

namespace Docblock

/-- Each name in a tree satisfies one predicate, and the body of each literal the other. -/
inductive TypeExpr.Leaves (names literals : Text → Prop) : TypeExpr → Prop
  | nullable {inner} : Leaves names literals inner → Leaves names literals (.nullable inner)
  | named {name} : names name → Leaves names literals (.named name)
  | generic {base args} : Leaves names literals base → (∀ a ∈ args, Leaves names literals a) →
      Leaves names literals (.generic base args)
  | constant {owner member} : Leaves names literals owner → Leaves names literals member →
      Leaves names literals (.constant owner member)
  | shape {entries} : (∀ e ∈ entries, Leaves names literals e.value) →
      (∀ e ∈ entries, ∀ key ∈ e.key?, Leaves names literals key) →
      Leaves names literals (.shape entries)
  | record {key value} : Leaves names literals key → Leaves names literals value →
      Leaves names literals (.record key value)
  | sequence {kind item} : Leaves names literals item → Leaves names literals (.sequence kind item)
  | arrayOf {item} : Leaves names literals item → Leaves names literals (.arrayOf item)
  | union {branches} : (∀ b ∈ branches, Leaves names literals b) →
      Leaves names literals (.union branches)
  | callable {callee ps result} : Leaves names literals callee →
      (∀ p ∈ ps, Leaves names literals p.type) → (∀ p ∈ ps, ∀ w ∈ p.name?, names w) →
      Leaves names literals result → Leaves names literals (.callable callee ps result)
  | literal {quote body} : literals body → Leaves names literals (.literal quote body)
  | group {inner} : Leaves names literals inner → Leaves names literals (.group inner)
  | conditional {subject bound consequent alternative} : Leaves names literals subject →
      Leaves names literals bound → Leaves names literals consequent →
      Leaves names literals alternative →
      Leaves names literals (.conditional subject bound consequent alternative)
  | ellipsis : Leaves names literals .ellipsis
  | qualified {modifier target} : Leaves names literals modifier →
      Leaves names literals target → Leaves names literals (.qualified modifier target)

namespace TypeExpr

variable {names literals : Text → Prop}

/-- What is known of the leaves of branches is known of their union. -/
theorem leaves_unionOf {first : TypeExpr} {branches : List TypeExpr}
    (hfirst : first.Leaves names literals) (hbranches : ∀ b ∈ branches, b.Leaves names literals) :
    (unionOf first branches).Leaves names literals := by
  cases branches with
  | nil => exact hfirst
  | cons b bs =>
    rw [unionOf_cons]
    exact .union (List.forall_mem_cons.2 ⟨hfirst, hbranches⟩)

/-- What is known of the names and of the literals is known at once. -/
theorem Leaves.combine {names' literals' : Text → Prop} {t : TypeExpr}
    (h : t.Leaves names literals') (h' : t.Leaves names' literals) : t.Leaves names literals := by
  induction h with
  | nullable _ ih =>
    cases h' with
    | nullable h => exact .nullable (ih h)
  | named hname =>
    cases h' with
    | named => exact .named hname
  | generic _ _ ih₁ ih₂ =>
    cases h' with
    | generic h₁ h₂ => exact .generic (ih₁ h₁) fun a ha => ih₂ a ha (h₂ a ha)
  | constant _ _ ih₁ ih₂ =>
    cases h' with
    | constant h₁ h₂ => exact .constant (ih₁ h₁) (ih₂ h₂)
  | shape _ _ ih₁ ih₂ =>
    cases h' with
    | shape h₁ h₂ =>
      exact .shape (fun e he => ih₁ e he (h₁ e he)) fun e he k hk => ih₂ e he k hk (h₂ e he k hk)
  | record _ _ ih₁ ih₂ =>
    cases h' with
    | record h₁ h₂ => exact .record (ih₁ h₁) (ih₂ h₂)
  | sequence _ ih =>
    cases h' with
    | sequence h => exact .sequence (ih h)
  | arrayOf _ ih =>
    cases h' with
    | arrayOf h => exact .arrayOf (ih h)
  | union _ ih =>
    cases h' with
    | union h => exact .union fun b hb => ih b hb (h b hb)
  | callable _ _ hnames _ ih₁ ih₂ ih₃ =>
    cases h' with
    | callable h₁ h₂ _ h₃ =>
      exact .callable (ih₁ h₁) (fun p hp => ih₂ p hp (h₂ p hp)) hnames (ih₃ h₃)
  | literal =>
    cases h' with
    | literal h => exact .literal h
  | group _ ih =>
    cases h' with
    | group h => exact .group (ih h)
  | conditional _ _ _ _ ih₁ ih₂ ih₃ ih₄ =>
    cases h' with
    | conditional h₁ h₂ h₃ h₄ => exact .conditional (ih₁ h₁) (ih₂ h₂) (ih₃ h₃) (ih₄ h₄)
  | ellipsis => exact .ellipsis
  | qualified _ _ ih₁ ih₂ =>
    cases h' with
    | qualified h₁ h₂ => exact .qualified (ih₁ h₁) (ih₂ h₂)

/-- Less may be said of the leaves. -/
theorem Leaves.mono {names' literals' : Text → Prop} (hnames : ∀ w, names w → names' w)
    (hliterals : ∀ body, literals body → literals' body) {t : TypeExpr}
    (h : t.Leaves names literals) : t.Leaves names' literals' := by
  induction h with
  | nullable _ ih => exact .nullable ih
  | named hname => exact .named (hnames _ hname)
  | generic _ _ ih₁ ih₂ => exact .generic ih₁ ih₂
  | constant _ _ ih₁ ih₂ => exact .constant ih₁ ih₂
  | shape _ _ ih₁ ih₂ => exact .shape ih₁ ih₂
  | record _ _ ih₁ ih₂ => exact .record ih₁ ih₂
  | sequence _ ih => exact .sequence ih
  | arrayOf _ ih => exact .arrayOf ih
  | union _ ih => exact .union ih
  | callable _ _ hps _ ih₁ ih₂ ih₃ =>
    exact .callable ih₁ ih₂ (fun p hp w hw => hnames w (hps p hp w hw)) ih₃
  | literal hbody => exact .literal (hliterals _ hbody)
  | group _ ih => exact .group ih
  | conditional _ _ _ _ ih₁ ih₂ ih₃ ih₄ => exact .conditional ih₁ ih₂ ih₃ ih₄
  | ellipsis => exact .ellipsis
  | qualified _ _ ih₁ ih₂ => exact .qualified ih₁ ih₂

end TypeExpr

/-! ## Reading -/

/-- A character that is neither in a word's start nor of its kind is not in the word. -/
theorem Token.IsWord.not_mem {p : Char → Bool} {start w : Text} {c : Char}
    (h : Token.IsWord p start w) (hstart : c ∉ start) (hc : p c = false) : c ∉ w := by
  obtain ⟨body, -, hbody, rfl⟩ := h
  rw [List.mem_append, not_or]
  exact ⟨hstart, fun hmem => by simp [hbody c hmem] at hc⟩

/-- A character of no name is in no name. -/
theorem Token.IsName.not_mem {w : Text} {c : Char} (h : Token.IsName w)
    (hmark : c ∉ ['&', '$']) (hc : Token.isNameChar c = false) : c ∉ w := by
  simp only [List.mem_cons, List.not_mem_nil, or_false, not_or] at hmark
  rcases h with h | h | h
  all_goals exact h.not_mem (by simp [hmark]) hc

/-- A character of no parameter's name is in none. -/
theorem Token.IsParameterName.not_mem {w : Text} {c : Char} (h : Token.IsParameterName w)
    (hmark : c ∉ ['&', '$', '.']) (hc : Token.isParameterChar c = false) : c ∉ w := by
  obtain ⟨start, hstart, h⟩ := h
  have hstarts : ∀ start ∈ Token.parameterStarts, ∀ d ∈ start, d ∈ ['&', '$', '.'] := by decide
  exact h.not_mem (fun hmem => hmark (hstarts start hstart c hmem)) hc

/-- What is known of the leaves of the trees of a phrase. -/
def Phrase.Leaves (names literals : Text → Prop) : Phrase → Prop
  | .type _ t | .branch _ t | .primary t | .arrayArguments t | .argument t =>
      t.Leaves names literals
  | .named name t | .generic name t => names name → t.Leaves names literals
  | .call _ before t | .brackets before t | .clauses _ before t =>
      before.Leaves names literals → t.Leaves names literals
  | .branches ts | .arguments ts => ∀ t ∈ ts, t.Leaves names literals
  | .entry e => e.value.Leaves names literals ∧ ∀ key ∈ e.key?, key.Leaves names literals
  | .entries es =>
      ∀ e ∈ es, e.value.Leaves names literals ∧ ∀ key ∈ e.key?, key.Leaves names literals
  | .parameter p => p.type.Leaves names literals ∧ ∀ w ∈ p.name?, names w
  | .parameters ps => ∀ p ∈ ps, p.type.Leaves names literals ∧ ∀ w ∈ p.name?, names w

/-- What follows a token is a rear part of the text. -/
theorem suffix_of_skip_eq {s w r : Text} (h : Token.skip s = w ++ r) : r <:+ s := by
  obtain ⟨g, -, hs⟩ := Token.exists_layout_append_skip s
  exact ⟨g ++ w, by rw [List.append_assoc, ← h, ← hs]⟩

/-- What follows a mark is a rear part of the text. -/
theorem Mark.At.suffix {m : Mark} {s r : Text} (h : m.At s r) : r <:+ s := suffix_of_skip_eq h

/-- A token is one stretch of the text. -/
theorem infix_of_skip_eq {s w r : Text} (h : Token.skip s = w ++ r) : w <:+: s := by
  obtain ⟨g, -, hs⟩ := Token.exists_layout_append_skip s
  exact ⟨g, r, by rw [List.append_assoc, ← h, ← hs]⟩

/-- The names of a tree that is read are words of the grammar, and they stand in the text, as its
literals do. -/
theorem Reads.leaves {base : Text} {names : Text → Prop}
    (hname : ∀ w, Token.IsName w → w <:+: base → names w)
    (hparameter : ∀ w, Token.IsParameterName w → w <:+: base → names w) {p : Phrase}
    {s r : Text} (h : Reads p s r) (hs : s <:+ base) :
    r <:+ base ∧ p.Leaves names (· <:+: base) := by
  induction h with
  | whole _ _ _ _ ih₁ ih₂ ih₃ =>
    obtain ⟨hr₁, hfirst⟩ := ih₁ hs
    obtain ⟨hr₂, hbranches⟩ := ih₂ hr₁
    obtain ⟨hr₃, hclauses⟩ := ih₃ hr₂
    exact ⟨hr₃, hclauses (TypeExpr.leaves_unionOf hfirst hbranches)⟩
  | single _ ih => exact ih hs
  | nullable hmark _ ih =>
    obtain ⟨hr, hinner⟩ := ih (hmark.suffix.trans hs)
    exact ⟨hr, .nullable hinner⟩
  | plain _ _ _ ih₁ ih₂ ih₃ =>
    obtain ⟨hr₁, hprimary⟩ := ih₁ hs
    obtain ⟨hr₂, hcall⟩ := ih₂ hr₁
    obtain ⟨hr₃, hbrackets⟩ := ih₃ hr₂
    exact ⟨hr₃, hbrackets (hcall hprimary)⟩
  | ellipsis hmark => exact ⟨hmark.suffix.trans hs, .ellipsis⟩
  | group hopen _ hclose ih =>
    obtain ⟨hr, hinner⟩ := ih (hopen.suffix.trans hs)
    exact ⟨hclose.suffix.trans hr, .group hinner⟩
  | @literal quote body s r hat =>
    have hskip : Token.skip s = (quote.char :: body ++ [quote.char]) ++ r := by simpa using hat.2
    have hbody : body <:+: quote.char :: body ++ [quote.char] := ⟨[quote.char], [quote.char], rfl⟩
    exact ⟨(suffix_of_skip_eq hskip).trans hs,
      .literal (hbody.trans ((infix_of_skip_eq hskip).trans hs.isInfix))⟩
  | name hat _ ih =>
    obtain ⟨hr, hnamed⟩ := ih ((suffix_of_skip_eq hat.2.1).trans hs)
    exact ⟨hr, hnamed (hname _ hat.1 ((infix_of_skip_eq hat.2.1).trans hs.isInfix))⟩
  | shape hopen _ ih =>
    obtain ⟨hr, hentries⟩ := ih (hopen.suffix.trans hs)
    exact ⟨hr, fun _ => .shape (fun e he => (hentries e he).1) fun e he => (hentries e he).2⟩
  | array hopen _ ih =>
    obtain ⟨hr, harguments⟩ := ih (hopen.suffix.trans hs)
    exact ⟨hr, fun _ => harguments⟩
  | list hopen _ hclose ih =>
    obtain ⟨hr, hitem⟩ := ih (hopen.suffix.trans hs)
    exact ⟨hclose.suffix.trans hr, fun _ => .sequence hitem⟩
  | noMember _ _ _ ih => exact ih hs
  | member _ _ hcolons _ ih₁ ih₂ =>
    obtain ⟨hr₁, howner⟩ := ih₁ hs
    obtain ⟨hr₂, hmember⟩ := ih₂ (hcolons.suffix.trans hr₁)
    exact ⟨hr₂, fun hn => .constant (howner hn) hmember⟩
  | withArguments hopen _ ih =>
    obtain ⟨hr, harguments⟩ := ih (hopen.suffix.trans hs)
    exact ⟨hr, fun hn => .generic (.named hn) harguments⟩
  | withoutArguments => exact ⟨hs, fun hn => .named hn⟩
  | called hopen _ hcolon _ ih₁ ih₂ =>
    obtain ⟨hr₁, hps⟩ := ih₁ (hopen.suffix.trans hs)
    obtain ⟨hr₂, hresult⟩ := ih₂ (hcolon.suffix.trans hr₁)
    exact ⟨hr₂, fun hcallee =>
      .callable hcallee (fun p hp => (hps p hp).1) (fun p hp => (hps p hp).2) hresult⟩
  | notCalled => exact ⟨hs, id⟩
  | bracketed hopen hclose _ ih =>
    obtain ⟨hr, hbrackets⟩ := ih (hclose.suffix.trans (hopen.suffix.trans hs))
    exact ⟨hr, fun hitem => hbrackets (.arrayOf hitem)⟩
  | notBracketed => exact ⟨hs, id⟩
  | nextBranch hbar _ _ ih₁ ih₂ =>
    obtain ⟨hr₁, hbranch⟩ := ih₁ (hbar.suffix.trans hs)
    obtain ⟨hr₂, hbranches⟩ := ih₂ hr₁
    exact ⟨hr₂, List.forall_mem_cons.2 ⟨hbranch, hbranches⟩⟩
  | noBranch => exact ⟨hs, by simp [Phrase.Leaves]⟩
  | conditional his _ hquestion _ hcolon _ ih₁ ih₂ ih₃ =>
    have hr₁ := suffix_of_skip_eq (w := ['i', 's']) his.1
    obtain ⟨hr₂, hbound⟩ := ih₁ (hr₁.trans hs)
    obtain ⟨hr₃, hconsequent⟩ := ih₂ (hquestion.suffix.trans hr₂)
    obtain ⟨hr₄, halternative⟩ := ih₃ (hcolon.suffix.trans hr₃)
    exact ⟨hr₄, fun hsubject => .conditional hsubject hbound hconsequent halternative⟩
  | unconditional => exact ⟨hs, id⟩
  | optional _ hquestion hcolon _ ih₁ ih₂ =>
    obtain ⟨hr₁, hkey⟩ := ih₁ hs
    obtain ⟨hr₂, hvalue⟩ := ih₂ (hcolon.suffix.trans (hquestion.suffix.trans hr₁))
    exact ⟨hr₂, hvalue, by rintro _ ⟨⟩; exact hkey⟩
  | keyed _ hcolon _ ih₁ ih₂ =>
    obtain ⟨hr₁, hkey⟩ := ih₁ hs
    obtain ⟨hr₂, hvalue⟩ := ih₂ (hcolon.suffix.trans hr₁)
    exact ⟨hr₂, hvalue, by rintro _ ⟨⟩; exact hkey⟩
  | positional _ _ _ ih =>
    obtain ⟨hr, hvalue⟩ := ih hs
    exact ⟨hr, hvalue, nofun⟩
  | noEntry hclose => exact ⟨hclose.suffix.trans hs, by simp [Phrase.Leaves]⟩
  | lastEntry _ hclose ih =>
    obtain ⟨hr, hentry⟩ := ih hs
    exact ⟨hclose.suffix.trans hr, List.forall_mem_singleton.2 hentry⟩
  | nextEntry _ hcomma _ ih₁ ih₂ =>
    obtain ⟨hr₁, hentry⟩ := ih₁ hs
    obtain ⟨hr₂, hentries⟩ := ih₂ (hcomma.suffix.trans hr₁)
    exact ⟨hr₂, List.forall_mem_cons.2 ⟨hentry, hentries⟩⟩
  | record _ hcomma _ hclose ih₁ ih₂ =>
    obtain ⟨hr₁, hkey⟩ := ih₁ hs
    obtain ⟨hr₂, hvalue⟩ := ih₂ (hcomma.suffix.trans hr₁)
    exact ⟨hclose.suffix.trans hr₂, .record hkey hvalue⟩
  | sequence _ hclose ih =>
    obtain ⟨hr, hitem⟩ := ih hs
    exact ⟨hclose.suffix.trans hr, .sequence hitem⟩
  | unqualified _ _ ih => exact ih hs
  | qualified _ _ _ ih₁ ih₂ =>
    obtain ⟨hr₁, hmodifier⟩ := ih₁ hs
    obtain ⟨hr₂, htarget⟩ := ih₂ hr₁
    exact ⟨hr₂, .qualified hmodifier htarget⟩
  | lastArgument _ hclose ih =>
    obtain ⟨hr, hargument⟩ := ih hs
    exact ⟨hclose.suffix.trans hr, List.forall_mem_singleton.2 hargument⟩
  | lastArgumentComma _ hcomma hclose ih =>
    obtain ⟨hr, hargument⟩ := ih hs
    exact ⟨hclose.suffix.trans (hcomma.suffix.trans hr), List.forall_mem_singleton.2 hargument⟩
  | nextArgument _ hcomma _ ih₁ ih₂ =>
    obtain ⟨hr₁, hargument⟩ := ih₁ hs
    obtain ⟨hr₂, harguments⟩ := ih₂ (hcomma.suffix.trans hr₁)
    exact ⟨hr₂, List.forall_mem_cons.2 ⟨hargument, harguments⟩⟩
  | namedParameter _ hat ih =>
    obtain ⟨hr, htype⟩ := ih hs
    refine ⟨(suffix_of_skip_eq hat.2.1).trans hr, htype, ?_⟩
    rintro _ ⟨⟩
    exact hparameter _ hat.1 ((infix_of_skip_eq hat.2.1).trans hr.isInfix)
  | unnamedParameter _ _ ih =>
    obtain ⟨hr, htype⟩ := ih hs
    exact ⟨hr, htype, nofun⟩
  | noParameter hclose => exact ⟨hclose.suffix.trans hs, by simp [Phrase.Leaves]⟩
  | lastParameter _ hclose ih =>
    obtain ⟨hr, hp⟩ := ih hs
    exact ⟨hclose.suffix.trans hr, List.forall_mem_singleton.2 hp⟩
  | nextParameter _ hcomma _ ih₁ ih₂ =>
    obtain ⟨hr₁, hp⟩ := ih₁ hs
    obtain ⟨hr₂, hps⟩ := ih₂ (hcomma.suffix.trans hr₁)
    exact ⟨hr₂, List.forall_mem_cons.2 ⟨hp, hps⟩⟩

/-- What is left of a text is at its end. -/
theorem Reads.suffix {p : Phrase} {s r : Text} (h : Reads p s r) : r <:+ s := by
  have hleaves : r <:+ s ∧ p.Leaves (fun _ => True) (· <:+: s) :=
    h.leaves (fun _ _ _ => trivial) (fun _ _ _ => trivial) (List.suffix_refl s)
  exact hleaves.1

namespace TypeExpr

variable {names literals : Text → Prop}

/-! ## Arranging -/

/-- A branch of an arranged union is a branch arranged, or what becomes of a nullable one. -/
theorem mem_arrangeBranches {expand : Bool} {branches : List TypeExpr} {b : TypeExpr}
    (h : b ∈ arrangeBranches expand branches) :
    b = null ∨ (∃ c ∈ branches, b = arrange expand c) ∨
      ∃ inner, .nullable inner ∈ branches ∧ b = arrange expand inner := by
  induction branches with
  | nil => simp [arrangeBranches] at h
  | cons c cs ih =>
    have hrest (hb : b ∈ arrangeBranches expand cs) :
        b = null ∨ (∃ d ∈ c :: cs, b = arrange expand d) ∨
          ∃ inner, .nullable inner ∈ c :: cs ∧ b = arrange expand inner := by
      rcases ih hb with hnull | ⟨d, hd, rfl⟩ | ⟨inner, hinner, rfl⟩
      · exact .inl hnull
      · exact .inr (.inl ⟨d, List.mem_cons_of_mem _ hd, rfl⟩)
      · exact .inr (.inr ⟨inner, List.mem_cons_of_mem _ hinner, rfl⟩)
    by_cases hnullable : ∃ inner, c = .nullable inner
    · obtain ⟨inner, rfl⟩ := hnullable
      rw [arrangeBranches, List.mem_append] at h
      rcases h with h | h
      · cases expand with
        | true =>
          simp only [if_true, List.mem_cons, List.not_mem_nil, or_false] at h
          exact h.imp_right fun h => .inr ⟨inner, List.mem_cons_self, h⟩
        | false =>
          simp only [Bool.false_eq_true, if_false, List.mem_singleton] at h
          exact .inr (.inl ⟨_, List.mem_cons_self, h⟩)
      · exact hrest h
    · rw [arrangeBranches, List.mem_cons] at h
      · rcases h with h | h
        · exact .inr (.inl ⟨c, List.mem_cons_self, h⟩)
        · exact hrest h
      · exact fun inner hc => hnullable ⟨inner, hc⟩

/-- An arranged tree has the leaves of the tree, and the word `null` where it was expanded. -/
theorem Leaves.arrange {expand : Bool} (hnull : names "null".toList) {t : TypeExpr}
    (h : t.Leaves names literals) : (TypeExpr.arrange expand t).Leaves names literals := by
  -- a nullable branch of a union is arranged without its mark, so the same is proved of its inside
  suffices hboth : (TypeExpr.arrange expand t).Leaves names literals ∧
      ∀ inner, t = .nullable inner → (TypeExpr.arrange expand inner).Leaves names literals from
    hboth.1
  induction h with
  | nullable _ ih =>
    refine ⟨?_, by rintro _ ⟨⟩; exact ih.1⟩
    rw [TypeExpr.arrange]
    split
    · refine .union fun b hb => ?_
      rcases List.mem_cons.1 (mem_of_mem_nullsFirst hb) with rfl | hb
      · exact .named hnull
      · rw [List.mem_singleton.1 hb]
        exact ih.1
    · exact .nullable ih.1
  | named hname => exact ⟨.named hname, nofun⟩
  | generic _ _ ih₁ ih₂ =>
    refine ⟨?_, nofun⟩
    rw [TypeExpr.arrange, arrangeAll_eq_map]
    refine .generic ih₁.1 fun a ha => ?_
    obtain ⟨b, hb, rfl⟩ := List.mem_map.1 ha
    exact (ih₂ b hb).1
  | constant _ _ ih₁ ih₂ => exact ⟨.constant ih₁.1 ih₂.1, nofun⟩
  | shape _ _ ih₁ ih₂ =>
    rw [TypeExpr.arrange, arrangeEntries_eq_map]
    obtain ⟨hvalue, hkey⟩ := forall_mapTypes (P := TypeExpr.Leaves names literals)
      (fun e he => (ih₁ e he).1) (fun e he k hk => (ih₂ e he k hk).1)
    exact ⟨.shape hvalue hkey, nofun⟩
  | record _ _ ih₁ ih₂ => exact ⟨.record ih₁.1 ih₂.1, nofun⟩
  | sequence _ ih => exact ⟨.sequence ih.1, nofun⟩
  | arrayOf _ ih => exact ⟨.arrayOf ih.1, nofun⟩
  | union _ ih =>
    refine ⟨.union fun b hb => ?_, nofun⟩
    rcases mem_arrangeBranches (mem_of_mem_nullsFirst hb) with
      rfl | ⟨c, hc, rfl⟩ | ⟨inner, hinner, rfl⟩
    · exact .named hnull
    · exact (ih c hc).1
    · exact (ih _ hinner).2 inner rfl
  | callable _ _ hnames _ ih₁ ih₂ ih₃ =>
    rw [TypeExpr.arrange, arrangeParameters_eq_map]
    obtain ⟨htypes, hnames'⟩ := forall_mapType (P := TypeExpr.Leaves names literals)
      (fun p hp => (ih₂ p hp).1) hnames
    exact ⟨.callable ih₁.1 htypes hnames' ih₃.1, nofun⟩
  | literal hbody => exact ⟨.literal hbody, nofun⟩
  | group _ ih => exact ⟨.group ih.1, nofun⟩
  | conditional _ _ _ _ ih₁ ih₂ ih₃ ih₄ =>
    exact ⟨.conditional ih₁.1 ih₂.1 ih₃.1 ih₄.1, nofun⟩
  | ellipsis => exact ⟨.ellipsis, nofun⟩
  | qualified _ _ ih₁ ih₂ => exact ⟨.qualified ih₁.1 ih₂.1, nofun⟩

end TypeExpr

/-! ## Writing -/

namespace Piece

/-- What is said of texts, said of a word and of what stands in a gap on one line. -/
def Each (P : Text → Prop) : Piece → Prop
  | .word text => P text
  | .gap _ _ inline => P inline

variable {P : Text → Prop}

/-- What holds of separators and of the pieces in rows holds of the joined rows. -/
theorem forall_mem_join {Q : Piece → Prop} {separator : List Piece} {rows : List (List Piece)}
    (hseparator : ∀ p ∈ separator, Q p) (hrows : ∀ row ∈ rows, ∀ p ∈ row, Q p) :
    ∀ p ∈ join separator rows, Q p := by
  unfold join
  induction rows with
  | nil => simp
  | cons row rows ih =>
    have hrest := ih fun row hrow => hrows row (List.mem_cons_of_mem _ hrow)
    have hrow := hrows row List.mem_cons_self
    cases rows with
    | nil => simpa using hrow
    | cons next rows =>
      rw [List.intercalate_cons_cons]
      intro p hp
      simp only [List.mem_append] at hp
      rcases hp with (hp | hp) | hp
      · exact hrow p hp
      · exact hseparator p hp
      · exact hrest p hp

/-- What holds of the three fixed texts of a block and of its rows holds of the block. -/
theorem each_block {level : WrapLevel} {depth : Nat} {rows : List (List Piece)}
    (hfixed : P [] ∧ P [' '] ∧ P [',']) (hrows : ∀ row ∈ rows, ∀ p ∈ row, p.Each P) :
    ∀ p ∈ block level depth rows, p.Each P := by
  have hseparator : ∀ p ∈ [word [','], gap level (depth + 1) [' ']], p.Each P := by
    simpa [Each] using ⟨hfixed.2.2, hfixed.2.1⟩
  have hjoin := forall_mem_join hseparator hrows
  intro p hp
  simp only [block, List.mem_append, List.mem_cons, List.not_mem_nil, or_false] at hp
  rcases hp with (rfl | hp) | rfl
  · exact hfixed.1
  · exact hjoin p hp
  · exact hfixed.1

/-- What passes to texts put together is said of all lines. -/
theorem each_render {level : WrapLevel} {unit : Text} (hnil : P [])
    (happend : ∀ a b, P a → P b → P (a ++ b)) (hunit : P unit) {ps : List Piece}
    (h : ∀ p ∈ ps, p.Each P) :
    P (render level unit ps).1 ∧ ∀ l ∈ (render level unit ps).2, P l := by
  have hindent (depth : Nat) : P (List.replicate depth unit).flatten := by
    induction depth with
    | zero => exact hnil
    | succ depth ih =>
      rw [List.replicate_succ, List.flatten_cons]
      exact happend _ _ hunit ih
  induction ps with
  | nil => exact ⟨hnil, by simp [render]⟩
  | cons p ps ih =>
    obtain ⟨hp, hps⟩ := List.forall_mem_cons.1 h
    obtain ⟨hfirst, hrest⟩ := ih hps
    cases p with
    | word text => exact ⟨happend _ _ hp hfirst, hrest⟩
    | gap threshold depth inline =>
      cases hbreaks : level.breaks threshold with
      | true =>
        simp only [render, hbreaks, if_true]
        exact ⟨hnil, List.forall_mem_cons.2 ⟨happend _ _ (hindent depth) hfirst, hrest⟩⟩
      | false =>
        simp only [render, hbreaks, Bool.false_eq_true, if_false]
        exact ⟨happend _ _ hp hfirst, hrest⟩

end Piece

namespace TypeExpr

variable {names literals P : Text → Prop}

/-- What holds of the names, the literals and every text without a slash, an `@` and a line feed
holds of all words of the written form. -/
theorem Leaves.pieces (hfixed : ∀ w, '/' ∉ w → '@' ∉ w → '\n' ∉ w → P w)
    (hnames : ∀ w, names w → P w ∧ P (' ' :: w))
    (hliterals : ∀ quote : Quote, ∀ body, literals body → P ([quote.char] ++ body ++ [quote.char]))
    {t : TypeExpr} (h : t.Leaves names literals) (depth : Nat) :
    ∀ p ∈ TypeExpr.pieces depth t, p.Each P := by
  have hblock : P [] ∧ P [' '] ∧ P [','] :=
    ⟨hfixed _ (by decide) (by decide) (by decide), hfixed _ (by decide) (by decide) (by decide),
      hfixed _ (by decide) (by decide) (by decide)⟩
  have hword {w : Text} (hw : '/' ∉ w ∧ '@' ∉ w ∧ '\n' ∉ w) : ∀ p ∈ [Piece.word w], p.Each P := by
    simpa [Piece.Each] using hfixed w hw.1 hw.2.1 hw.2.2
  induction h generalizing depth with
  | nullable _ ih => exact List.forall_mem_cons.2 ⟨hword (by decide) _ List.mem_cons_self, ih depth⟩
  | named hname => exact List.forall_mem_singleton.2 (hnames _ hname).1
  | @generic base args _ _ ih₁ ih₂ =>
    have hrows : ∀ row ∈ piecesAll (depth + 1) args, ∀ p ∈ row, p.Each P := by
      rw [piecesAll_eq_map]
      simpa using fun a ha => ih₂ a ha (depth + 1)
    simp only [TypeExpr.pieces, List.forall_mem_append]
    exact ⟨⟨⟨ih₁ depth, hword (by decide)⟩, Piece.each_block hblock hrows⟩, hword (by decide)⟩
  | constant _ _ ih₁ ih₂ =>
    simp only [TypeExpr.pieces, List.forall_mem_append]
    exact ⟨⟨ih₁ depth, hword (by decide)⟩, ih₂ depth⟩
  | @shape es _ _ ih₁ ih₂ =>
    have hentry : ∀ e ∈ es, ∀ p ∈ piecesEntry (depth + 1) e, p.Each P := by
      intro e he
      have hvalue := ih₁ e he (depth + 1)
      have hkey := ih₂ e he
      cases e with
      | positional value => exact hvalue
      | keyed key isOptional value =>
        simp only [piecesEntry, List.forall_mem_append]
        exact ⟨⟨hkey key rfl (depth + 1), hword (by cases isOptional <;> decide)⟩, hvalue⟩
    cases es with
    | nil => exact hword (by decide)
    | cons e es =>
      have hrows : ∀ row ∈ piecesEntries (depth + 1) (e :: es), ∀ p ∈ row, p.Each P := by
        rw [piecesEntries_eq_map]
        simpa using hentry
      simp only [TypeExpr.pieces, List.forall_mem_append]
      exact ⟨⟨hword (by decide), Piece.each_block hblock hrows⟩, hword (by decide)⟩
  | record _ _ ih₁ ih₂ =>
    simp only [TypeExpr.pieces, List.forall_mem_append]
    exact ⟨⟨⟨⟨hword (by decide), ih₁ depth⟩, hword (by decide)⟩, ih₂ depth⟩, hword (by decide)⟩
  | @sequence kind item _ ih =>
    simp only [TypeExpr.pieces, List.forall_mem_append]
    exact ⟨⟨hword (by cases kind <;> decide), ih depth⟩, hword (by decide)⟩
  | arrayOf _ ih =>
    simp only [TypeExpr.pieces, List.forall_mem_append]
    exact ⟨ih depth, hword (by decide)⟩
  | union _ ih =>
    refine Piece.forall_mem_join (hword (by decide)) ?_
    rw [piecesAll_eq_map]
    simpa using fun b hb => ih b hb depth
  | @callable callee ps result _ _ hnamed _ ih₁ ih₂ ih₃ =>
    have hrows : ∀ row ∈ piecesParameters depth ps, ∀ p ∈ row, p.Each P := by
      rw [piecesParameters_eq_map]
      refine List.forall_mem_map.2 fun parameter hparameter => ?_
      have htype := ih₂ parameter hparameter depth
      have hname := hnamed parameter hparameter
      cases parameter with
      | unnamed type => exact htype
      | named type name =>
        obtain ⟨hbare, hspaced⟩ := hnames name (hname name rfl)
        refine List.forall_mem_append.2 ⟨htype, List.forall_mem_singleton.2 ?_⟩
        show P (if type.isEllipsis then name else ' ' :: name)
        split
        · exact hbare
        · exact hspaced
    have hjoin := Piece.forall_mem_join (hword (w := [',', ' ']) (by decide)) hrows
    simp only [TypeExpr.pieces, List.forall_mem_append]
    exact ⟨⟨⟨⟨ih₁ depth, hword (by decide)⟩, hjoin⟩, hword (by decide)⟩, ih₃ depth⟩
  | @literal quote body hbody => exact List.forall_mem_singleton.2 (hliterals quote body hbody)
  | group _ ih =>
    simp only [TypeExpr.pieces, List.forall_mem_append]
    exact ⟨⟨hword (by decide), ih depth⟩, hword (by decide)⟩
  | conditional _ _ _ _ ih₁ ih₂ ih₃ ih₄ =>
    have hclause {w : Text} (hw : '/' ∉ w ∧ '@' ∉ w ∧ '\n' ∉ w) :
        ∀ p ∈ [Piece.gap .clauses (depth + 1) [' '], .word w], p.Each P := by
      simpa [Piece.Each] using ⟨hblock.2.1, hfixed w hw.1 hw.2.1 hw.2.2⟩
    simp only [TypeExpr.pieces, List.forall_mem_append]
    exact ⟨⟨⟨⟨⟨⟨ih₁ depth, hclause (by decide)⟩, ih₂ (depth + 1)⟩, hclause (by decide)⟩,
      ih₃ (depth + 1)⟩, hclause (by decide)⟩, ih₄ (depth + 1)⟩
  | ellipsis => exact hword (by decide)
  | qualified _ _ ih₁ ih₂ =>
    simp only [TypeExpr.pieces, List.forall_mem_append]
    exact ⟨⟨ih₁ depth, hword (by decide)⟩, ih₂ depth⟩

end TypeExpr

end Docblock
