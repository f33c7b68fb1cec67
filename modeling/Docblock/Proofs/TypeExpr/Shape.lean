import Docblock.Proofs.TypeExpr.Reader

/-!
# The shape of the types that are read

Not every tree is the reading of a text. `WellFormed place t` describes those that are, place by
place: no union inside a branch, no callable that begins a union, at least one argument of a generic
type, and so on. It speaks of trees alone.

Two facts about a text tie a tree to its neighbours. `EndsBefore place t k` says that `k` does not
go on with `t`: none of the marks that could extend its right end stands there. `Leads t s` says how
the text of a tree begins, as far as a modifier in front of it is concerned.

The law is `Reads.shaped`: what is read is well-formed and ends before what is left.

What is known of each phrase is written down once (`Phrase.Shaped`), and it has to be more than
well-formedness: a rule that continues a tree needs to know what the tree did not take, and a rule
that begins one what stood in front. The law is then one induction over derivations with a case for
each constructor. The converse, that every well-formed tree is the reading of some text, is the
subject of `Docblock.Proofs.TypeExpr.Printing`.
-/

namespace Docblock

/-- The value of an entry. -/
def ShapeEntry.value : ShapeEntry → TypeExpr
  | .positional value => value
  | .keyed _ _ value => value

/-- The key of an entry, if it has one. -/
def ShapeEntry.key? : ShapeEntry → Option TypeExpr
  | .positional _ => none
  | .keyed key _ _ => some key

/-- The type of a parameter. -/
def Parameter.type : Parameter → TypeExpr
  | .unnamed type => type
  | .named type _ => type

/-- The name of a parameter, if it has one. -/
def Parameter.name? : Parameter → Option Text
  | .unnamed _ => none
  | .named _ name => some name

namespace TypeExpr

/-! ## Kinds of trees -/

/-- Whether a tree is a callable. -/
def isCallable : TypeExpr → Bool
  | .callable .. => true
  | _ => false

/-- Whether a tree is a conditional. -/
def isConditional : TypeExpr → Bool
  | .conditional .. => true
  | _ => false

/-- Whether a tree may own a member: a name, perhaps with arguments. -/
def isOwner : TypeExpr → Bool
  | .named _ => true
  | .generic .. => true
  | _ => false

/-- Whether a tree is a primary, before which nothing but layout was read. -/
def isPrimary : TypeExpr → Bool
  | .named _ => true
  | .generic .. => true
  | .constant .. => true
  | .shape _ => true
  | .record .. => true
  | .sequence .. => true
  | .literal .. => true
  | .group _ => true
  | .ellipsis => true
  | _ => false

/-- Whether square brackets may follow a tree. The member of a constant and the result of a callable
take them first. -/
def takesBrackets : TypeExpr → Bool
  | .constant .. => false
  | .arrayOf _ => true
  | t => t.isPrimary

/-- The type that an argument is about, without its modifier. -/
def target : TypeExpr → TypeExpr
  | .qualified _ target => target
  | t => t

/-! ## The two ends of a tree -/

mutual

/-- The marks that go on with a tree if they follow it. -/
def openMarks : TypeExpr → List Mark
  | .nullable inner => openMarks inner
  | .named name =>
    [.openParen, .openBracket, .openAngle, .doubleColon] ++
      if name = SequenceKind.array.word then [.openBrace] else []
  | .generic .. => [.openParen, .openBracket, .doubleColon]
  | .constant _ member => [.openParen, .openBracket] ++ openMarks member
  | .arrayOf _ => [.openBracket]
  | .union branches => openMarksLast branches
  | .callable _ _ result => openMarks result
  | .conditional _ _ _ alternative => openMarks alternative
  | .qualified _ target => openMarks target
  | _ => [.openParen, .openBracket]

/-- The marks that go on with the last of several trees. -/
def openMarksLast : List TypeExpr → List Mark
  | [] => []
  | [t] => openMarks t
  | _ :: t :: ts => openMarksLast (t :: ts)

end

/-- The marks that go on with a primary before parameters and square brackets are looked for. -/
def primaryMarks : TypeExpr → List Mark
  | .named name =>
    [.openAngle, .doubleColon] ++ if name = SequenceKind.array.word then [.openBrace] else []
  | .generic .. => [.doubleColon]
  | .constant _ member => openMarks member
  | _ => []

/-- A primary takes parameters and square brackets, and what its own rule takes before them. -/
theorem openMarks_of_isPrimary {t : TypeExpr} (h : t.isPrimary = true) :
    t.openMarks = [.openParen, .openBracket] ++ t.primaryMarks := by
  cases t <;> first | rfl | simp [isPrimary] at h

mutual

/-- The tree whose text stands first in the text of a tree. -/
def leftmost : TypeExpr → TypeExpr
  | .generic base _ => leftmost base
  | .constant owner _ => leftmost owner
  | .arrayOf item => leftmost item
  | .union branches => leftmostFirst branches
  | .callable callee _ _ => leftmost callee
  | .conditional subject _ _ _ => leftmost subject
  | .qualified modifier _ => leftmost modifier
  | t => t

/-- The tree whose text stands first in the text of the first of several trees. -/
def leftmostFirst : List TypeExpr → TypeExpr
  | [] => .ellipsis
  | t :: _ => leftmost t

end

/-- A tree that may follow a modifier: its text begins neither with a parenthesis, which would make
the modifier a callee, nor with the word `is`, which would make it the subject of a conditional. -/
def StandsApart (t : TypeExpr) : Prop :=
  match t.leftmost with
  | .group _ => False
  | .named name => name ≠ ['i', 's']
  | _ => True

/-- If an argument is qualified, its modifier is a name that leaves the target alone. -/
def QualifiesWell : TypeExpr → Prop
  | .qualified modifier target =>
    (∃ name, modifier = .named name ∧ Token.IsName name) ∧ StandsApart target
  | _ => True

end TypeExpr

open TypeExpr

/-! ## Well-formed trees -/

/-- The trees that can be read at a place. -/
inductive WellFormed : TypePlace → TypeExpr → Prop
  | nullable {place inner} : WellFormed .branch inner → WellFormed place (.nullable inner)
  | named {place name} : Token.IsName name → WellFormed place (.named name)
  | generic {place name args} : Token.IsName name → name ≠ SequenceKind.array.word →
      name ≠ SequenceKind.list.word → args ≠ [] → (∀ a ∈ args, WellFormed .inner a.target) →
      (∀ a ∈ args, a.QualifiesWell) → WellFormed place (.generic (.named name) args)
  | constant {place owner member} : owner.isOwner = true → WellFormed .branch owner →
      WellFormed .branch member → WellFormed place (.constant owner member)
  | shape {place entries} : (∀ e ∈ entries, WellFormed .inner e.value) →
      (∀ e ∈ entries, ∀ key ∈ e.key?, WellFormed .inner key) → WellFormed place (.shape entries)
  | record {place key value} : WellFormed .inner key → WellFormed .inner value →
      WellFormed place (.record key value)
  | sequence {place kind item} : WellFormed .inner item → WellFormed place (.sequence kind item)
  | arrayOf {place item} : item.takesBrackets = true → WellFormed .branch item →
      WellFormed place (.arrayOf item)
  | union {place branches} : place ≠ .branch → 2 ≤ branches.length →
      (∀ b ∈ branches, WellFormed .branch b) → (∀ b ∈ branches.head?, b.isCallable = false) →
      WellFormed place (.union branches)
  | callable {place callee ps result} : callee.isPrimary = true →
      Mark.openParen ∉ callee.primaryMarks → WellFormed .branch callee →
      (∀ p ∈ ps, WellFormed .inner p.type) → (∀ p ∈ ps, ∀ w ∈ p.name?, Token.IsParameterName w) →
      WellFormed place result → WellFormed place (.callable callee ps result)
  | literal {place quote body} : Token.IsBody quote.char body →
      WellFormed place (.literal quote body)
  | group {place inner} : WellFormed .inner inner → WellFormed place (.group inner)
  | conditional {subject bound consequent alternative} : subject.isCallable = false →
      subject.isConditional = false → WellFormed .inner subject → WellFormed .inner bound →
      WellFormed .inner consequent → WellFormed .inner alternative →
      WellFormed .inner (.conditional subject bound consequent alternative)
  | ellipsis {place} : WellFormed place .ellipsis

/-- The text `k` does not go on with the tree `t` that stands at `place`. -/
structure EndsBefore (place : TypePlace) (t : TypeExpr) (k : Text) : Prop where
  marks : ∀ m ∈ t.openMarks, m.Absent k
  noBranch : place ≠ .branch → Mark.bar.Absent k
  noClause : place = .inner → ∀ r, ¬ Token.IsAt k r

/-- The text `s` begins as the text of `t`, a tree that stands leftmost, does. -/
def Leads (t : TypeExpr) (s : Text) : Prop :=
  match t with
  | .group _ => ¬ Mark.openParen.Absent s
  | .named name => ∃ r, Token.NameAt name s r
  | _ => Mark.openParen.Absent s ∧ ∀ r, ¬ Token.IsAt s r

/-! ## Readings are well-formed -/

/-- What is known of a primary `t` that was read off `s`, leaving `r`. -/
structure PrimaryShaped (t : TypeExpr) (s r : Text) : Prop where
  isPrimary : t.isPrimary = true
  wellFormed : ∀ place, WellFormed place t
  marks : ∀ m ∈ t.primaryMarks, m.Absent r
  leads : Leads t.leftmost s

/-- What is known of a branch `t` that was read off `s` at `place`, leaving `r`. A callable reaches
as far as its place allows; every other branch could stand in a union. -/
structure BranchShaped (place : TypePlace) (t : TypeExpr) (s r : Text) : Prop where
  wellFormed : WellFormed place t
  marks : ∀ m ∈ t.openMarks, m.Absent r
  endsBefore : t.isCallable = true → EndsBefore place t r
  branch : t.isCallable = false → WellFormed .branch t
  leads : Leads t.leftmost s

/-- What is known of the trees of a phrase that was read off the first text, leaving the second. -/
def Phrase.Shaped : Phrase → Text → Text → Prop
  | .type place t, s, r => WellFormed place t ∧ EndsBefore place t r ∧ Leads t.leftmost s
  | .branch place t, s, r => BranchShaped place t s r
  | .primary t, s, r => PrimaryShaped t s r
  | .named name t, s, r => ∀ s₀, Token.NameAt name s₀ s → PrimaryShaped t s₀ r
  | .generic name t, s, r => Token.IsName name → NoOwnRule name s →
      t.isOwner = true ∧ t.leftmost = .named name ∧ (∀ place, WellFormed place t) ∧
        ∀ m ∈ t.primaryMarks, m ≠ .doubleColon → m.Absent r
  | .call place callee t, s, r => (∀ place, WellFormed place callee) → callee.isPrimary = true →
      (∀ m ∈ callee.primaryMarks, m.Absent s) → t.leftmost = callee.leftmost ∧
        ((t = callee ∧ r = s ∧ Mark.openParen.Absent s) ∨
          (t.isCallable = true ∧ WellFormed place t ∧ EndsBefore place t r))
  | .brackets item t, s, r => Mark.openBracket.Absent r ∧ t.leftmost = item.leftmost ∧
      ((t = item ∧ r = s) ∨
        (¬ Mark.openBracket.Absent s ∧ (item.takesBrackets = true → WellFormed .branch item →
          ∃ inner, t = .arrayOf inner ∧ ∀ place, WellFormed place t)))
  | .branches ts, s, r => Mark.bar.Absent r ∧ (∀ b ∈ ts, WellFormed .branch b) ∧
      (ts = [] → r = s) ∧ (ts ≠ [] → ¬ Mark.bar.Absent s) ∧ ∀ m ∈ openMarksLast ts, m.Absent r
  | .clauses place subject t, s, r => place ≠ .branch → WellFormed place subject →
      subject.isConditional = false → (∀ m ∈ subject.openMarks, m.Absent s) → Mark.bar.Absent s →
      (subject.isCallable = true → EndsBefore place subject s) →
      WellFormed place t ∧ EndsBefore place t r ∧ t.leftmost = subject.leftmost
  | .entry e, _, _ => WellFormed .inner e.value ∧ ∀ key ∈ e.key?, WellFormed .inner key
  | .entries es, _, _ =>
      ∀ e ∈ es, WellFormed .inner e.value ∧ ∀ key ∈ e.key?, WellFormed .inner key
  | .arrayArguments t, _, _ => t.isPrimary = true ∧ (∀ place, WellFormed place t) ∧
      t.primaryMarks = [] ∧ ∀ s, Leads t.leftmost s ↔ Leads .ellipsis s
  | .argument t, _, _ => WellFormed .inner t.target ∧ t.QualifiesWell
  | .arguments ts, _, _ => ts ≠ [] ∧ ∀ t ∈ ts, WellFormed .inner t.target ∧ t.QualifiesWell
  | .parameter p, _, _ => WellFormed .inner p.type ∧ ∀ w ∈ p.name?, Token.IsParameterName w
  | .parameters ps, _, _ =>
      ∀ p ∈ ps, WellFormed .inner p.type ∧ ∀ w ∈ p.name?, Token.IsParameterName w

/-- What goes on with each of several branches goes on with the last. -/
theorem openBracket_mem_openMarksLast {branches : List TypeExpr} (hne : branches ≠ [])
    (h : ∀ b ∈ branches, Mark.openBracket ∈ b.openMarks) :
    Mark.openBracket ∈ openMarksLast branches := by
  induction branches with
  | nil => exact absurd rfl hne
  | cons b bs ih =>
    cases bs with
    | nil => exact h b List.mem_cons_self
    | cons c cs =>
      rw [openMarksLast]
      exact ih (by simp) fun x hx => h x (List.mem_cons_of_mem _ hx)

/-- Square brackets always go on with a type. -/
theorem WellFormed.openBracket_mem {place : TypePlace} {t : TypeExpr} (h : WellFormed place t) :
    Mark.openBracket ∈ t.openMarks := by
  induction h with
  | nullable _ ih => exact ih
  | named _ => simp [openMarks]
  | generic => simp [openMarks]
  | constant => simp [openMarks]
  | shape => simp [openMarks]
  | record => simp [openMarks]
  | sequence => simp [openMarks]
  | arrayOf => simp [openMarks]
  | union _ hlen _ _ ih =>
    refine openBracket_mem_openMarksLast ?_ ih
    rintro rfl
    simp at hlen
  | callable _ _ _ _ _ _ _ _ ih => exact ih
  | literal => simp [openMarks]
  | group => simp [openMarks]
  | conditional _ _ _ _ _ _ _ _ _ ih => exact ih
  | ellipsis => simp [openMarks]

/-- The marks with which a tree can go on. -/
def extendingMarks : List Mark := [.openParen, .openBracket, .openAngle, .doubleColon, .openBrace]

/-- What goes on with the last branch is a mark that goes on with some tree. -/
theorem openMarksLast_subset {branches : List TypeExpr}
    (h : ∀ b ∈ branches, b.openMarks ⊆ extendingMarks) :
    openMarksLast branches ⊆ extendingMarks := by
  induction branches with
  | nil => simp [openMarksLast]
  | cons b bs ih =>
    cases bs with
    | nil => exact h b List.mem_cons_self
    | cons c cs =>
      rw [openMarksLast]
      exact ih fun x hx => h x (List.mem_cons_of_mem _ hx)

/-- There are five marks with which a tree can go on. -/
theorem WellFormed.openMarks_subset {place : TypePlace} {t : TypeExpr} (h : WellFormed place t) :
    t.openMarks ⊆ extendingMarks := by
  induction h with
  | nullable _ ih => exact ih
  | @named _ name _ =>
    rw [openMarks]
    split <;> decide
  | constant _ _ _ _ ih =>
    rw [openMarks]
    exact List.append_subset.2 ⟨by decide, ih⟩
  | union _ _ _ _ ih => exact openMarksLast_subset ih
  | callable _ _ _ _ _ _ _ _ ih => exact ih
  | conditional _ _ _ _ _ _ _ _ _ ih => exact ih
  | _ => simp [openMarks, extendingMarks]

/-- A mark that stands somewhere is not absent there. -/
theorem Mark.At.not_absent {m : Mark} {s r : Text} (h : m.At s r) : ¬ m.Absent s :=
  fun habsent => habsent ⟨r, h.symm⟩

/-- A type that was read has no modifier; only arguments do. -/
theorem WellFormed.target_eq {place : TypePlace} {t : TypeExpr} (h : WellFormed place t) :
    t.target = t ∧ t.QualifiesWell := by
  cases h <;> exact ⟨rfl, trivial⟩

/-- No conditional stands in a union. -/
theorem WellFormed.isConditional_eq_false {t : TypeExpr} (h : WellFormed .branch t) :
    t.isConditional = false := by
  cases h <;> rfl

/-- The word `is` is the name `is`. -/
theorem Token.isAt_iff_nameAt {s r : Text} : Token.IsAt s r ↔ Token.NameAt ['i', 's'] s r := by
  have hname : Token.IsName ['i', 's'] := .inr (.inr ⟨['i', 's'], by simp, by decide, rfl⟩)
  constructor
  · rintro ⟨h₁, h₂⟩
    exact ⟨hname, h₁, h₂⟩
  · rintro ⟨-, h₁, h₂⟩
    exact ⟨h₁, h₂⟩

/-- At a place of a text there is at most one name, since names are read to their end. -/
theorem Token.NameAt.unique {w w' s r r' : Text} (h : Token.NameAt w s r)
    (h' : Token.NameAt w' s r') : w = w' := by
  have heq := h.name?.symm.trans h'.name?
  simp only [Option.some.injEq, Prod.mk.injEq] at heq
  exact heq.1

/-- A text that begins with the word of a sequence does not begin with `is` or a parenthesis. -/
theorem leads_of_nameAt_word (kind : SequenceKind) {s r : Text}
    (h : Token.NameAt kind.word s r) : Leads .ellipsis s := by
  refine ⟨h.begins.absent (by decide), fun r' his => ?_⟩
  have hword := h.unique (Token.isAt_iff_nameAt.1 his)
  revert hword
  cases kind <;> decide

/-- Whether a tree may follow a modifier can be seen from the text that begins as it does. -/
theorem standsApart_iff {t : TypeExpr} {s : Text} (h : Leads t.leftmost s) :
    t.StandsApart ↔ Mark.openParen.Absent s ∧ ∀ r, ¬ Token.IsAt s r := by
  unfold StandsApart
  split
  · next inner heq =>
    rw [heq] at h
    exact ⟨False.elim, fun habsent => h habsent.1⟩
  · next name heq =>
    rw [heq] at h
    obtain ⟨r, hr⟩ := h
    constructor
    · intro hne
      refine ⟨hr.begins.absent (by decide), fun r' his => ?_⟩
      exact hne (hr.unique (Token.isAt_iff_nameAt.1 his))
    · rintro ⟨-, hnot⟩ rfl
      exact hnot r (Token.isAt_iff_nameAt.2 hr)
  · next hgroup hnamed =>
    have hleads : Leads .ellipsis s := by
      revert h
      cases heq : t.leftmost with
      | group inner => exact absurd heq (hgroup inner)
      | named name => exact absurd heq (hnamed name)
      | _ => exact id
    exact ⟨fun _ => hleads, fun _ => trivial⟩

/-- Two branches or more make a union. -/
theorem unionOf_cons (first b : TypeExpr) (bs : List TypeExpr) :
    unionOf first (b :: bs) = .union (first :: b :: bs) := rfl

/-- What is read is well-formed and ends before what is left. -/
theorem Reads.shaped {p : Phrase} {s r : Text} (h : Reads p s r) : p.Shaped s r := by
  induction h with
  | @whole place first branches t s r₁ r₂ r₃ hplace _ _ _ ih₁ ih₂ ih₃ =>
    obtain ⟨hbar, hbranches, hnil, hcons, hlast⟩ := ih₂
    cases branches with
    | nil =>
      obtain rfl := hnil rfl
      have hconditional : first.isConditional = false := by
        cases hc : first.isCallable with
        | true => cases first <;> first | rfl | simp [isCallable] at hc
        | false => exact (ih₁.branch hc).isConditional_eq_false
      obtain ⟨h₁, h₂, h₃⟩ := ih₃ hplace ih₁.wellFormed hconditional ih₁.marks hbar ih₁.endsBefore
      refine ⟨h₁, h₂, ?_⟩
      rw [h₃]
      exact ih₁.leads
    | cons b bs =>
      -- a callable would have taken the bar into its result
      have hcallable : first.isCallable = false := by
        cases hc : first.isCallable with
        | true => exact absurd ((ih₁.endsBefore hc).noBranch hplace) (hcons (by simp))
        | false => rfl
      have hunion : WellFormed place (.union (first :: b :: bs)) := by
        refine .union hplace (by simp) ?_ (by simpa using hcallable)
        intro x hx
        rcases List.mem_cons.1 hx with rfl | hx
        · exact ih₁.branch hcallable
        · exact hbranches x hx
      obtain ⟨h₁, h₂, h₃⟩ := ih₃ hplace hunion rfl hlast hbar (by simp [unionOf_cons, isCallable])
      refine ⟨h₁, h₂, ?_⟩
      rw [h₃]
      exact ih₁.leads
  | @single t s r _ ih => exact ⟨ih.wellFormed, ⟨ih.marks, by simp, by simp⟩, ih.leads⟩
  | @nullable place inner s r₁ r₂ hmark _ ih =>
    have hbegins : Begins (· == '?') s := hmark.begins (by decide)
    exact ⟨.nullable ih.1, ih.2.1.marks, by simp [isCallable], fun _ => .nullable ih.1,
      hbegins.absent (by decide), hbegins.not_isAt (by decide)⟩
  | @plain place primary called t s r₁ r₂ r₃ _ _ _ ih₁ ih₂ ih₃ =>
    obtain ⟨hleft₂, hcalled⟩ := ih₂ ih₁.wellFormed ih₁.isPrimary ih₁.marks
    obtain ⟨hbracket, hleft₃, hitem⟩ := ih₃
    have hleads : Leads t.leftmost s := by
      rw [hleft₃, hleft₂]
      exact ih₁.leads
    rcases hcalled with ⟨rfl, rfl, hparen⟩ | ⟨hcallable, hwf, hend⟩
    · rcases hitem with ⟨rfl, rfl⟩ | ⟨hat, harray⟩
      · have hnot : t.isCallable = false := by
          have := ih₁.isPrimary
          cases t <;> first | rfl | simp [isPrimary] at this
        refine ⟨ih₁.wellFormed _, ?_, by simp [hnot], fun _ => ih₁.wellFormed _, hleads⟩
        rw [openMarks_of_isPrimary ih₁.isPrimary]
        intro m hm
        simp only [List.cons_append, List.nil_append, List.mem_cons] at hm
        rcases hm with rfl | rfl | hm
        · exact hparen
        · exact hbracket
        · exact ih₁.marks m hm
      · -- the member of a constant would have taken the brackets
        have htakes : called.takesBrackets = true := by
          have hprimary := ih₁.isPrimary
          have hmarks := ih₁.marks
          have hwf := ih₁.wellFormed .branch
          cases called with
          | constant owner member =>
            cases hwf with
            | constant _ _ hmember => exact absurd (hmarks _ hmember.openBracket_mem) hat
          | arrayOf item => rfl
          | _ => exact hprimary
        obtain ⟨inner, rfl, hwf⟩ := harray htakes (ih₁.wellFormed _)
        refine ⟨hwf _, ?_, by simp [isCallable], fun _ => hwf _, hleads⟩
        simpa [openMarks] using hbracket
    · rcases hitem with ⟨rfl, rfl⟩ | ⟨hat, -⟩
      · exact ⟨hwf, hend.marks, fun _ => hend, by simp [hcallable], hleads⟩
      · exact absurd (hend.marks _ hwf.openBracket_mem) hat
  | @ellipsis s r hmark =>
    have hbegins : Begins (· == '.') s := hmark.begins (by decide)
    exact ⟨rfl, fun _ => .ellipsis, by simp [primaryMarks], hbegins.absent (by decide),
      hbegins.not_isAt (by decide)⟩
  | @group inner s r₁ r₂ r₃ hopen _ _ ih =>
    exact ⟨rfl, fun _ => .group ih.1, by simp [primaryMarks], hopen.not_absent⟩
  | @literal quote body s r hliteral =>
    refine ⟨rfl, fun _ => .literal hliteral.1, by simp [primaryMarks], ?_, ?_⟩
    · exact hliteral.begins.absent (by cases quote <;> decide)
    · exact hliteral.begins.not_isAt (by cases quote <;> decide)
  | @name name t s r₁ r₂ hname _ ih => exact ih s hname
  | @shape es s r₁ r₂ _ _ ih =>
    intro s₀ hname
    refine ⟨rfl, fun _ => .shape (fun e he => (ih e he).1) (fun e he => (ih e he).2), ?_, ?_⟩
    · simp [primaryMarks]
    · exact leads_of_nameAt_word .array hname
  | @array t s r₁ r₂ _ _ ih =>
    intro s₀ hname
    obtain ⟨hprimary, hwf, hmarks, hleads⟩ := ih
    refine ⟨hprimary, hwf, by simp [hmarks], (hleads s₀).2 ?_⟩
    exact leads_of_nameAt_word .array hname
  | @list item s r₁ r₂ r₃ _ _ _ ih =>
    intro s₀ hname
    refine ⟨rfl, fun _ => .sequence ih.1, by simp [primaryMarks], ?_⟩
    exact leads_of_nameAt_word .list hname
  | @noMember name t s r hown _ hcolons ih =>
    intro s₀ hname
    obtain ⟨howner, hleft, hwf, hmarks⟩ := ih hname.1 hown
    refine ⟨?_, hwf, ?_, ?_⟩
    · cases t <;> first | rfl | simp [isOwner] at howner
    · intro m hm
      by_cases hcolon : m = .doubleColon
      · exact hcolon ▸ hcolons
      · exact hmarks m hm hcolon
    · rw [hleft]
      exact ⟨s, hname⟩
  | @member name owner member s r₁ r₂ r₃ hown _ _ _ ih₁ ih₂ =>
    intro s₀ hname
    obtain ⟨howner, hleft, hwf, -⟩ := ih₁ hname.1 hown
    refine ⟨rfl, fun _ => .constant howner (hwf _) ih₂.1, ih₂.2.1.marks, ?_⟩
    rw [leftmost, hleft]
    exact ⟨s, hname⟩
  | @withArguments name args s r₁ r₂ hopen _ ih =>
    intro hname hown
    obtain ⟨hne, hargs⟩ := ih
    refine ⟨rfl, rfl, fun _ => ?_, by simp [primaryMarks]⟩
    refine .generic hname ?_ ?_ hne (fun a ha => (hargs a ha).1) (fun a ha => (hargs a ha).2)
    · exact fun harray => hopen.not_absent (hown.1 harray).2
    · exact fun hlist => hopen.not_absent (hown.2 hlist)
  | @withoutArguments name s hopen =>
    intro hname hown
    refine ⟨rfl, rfl, fun _ => .named hname, ?_⟩
    intro m hm hcolon
    simp only [primaryMarks, List.cons_append, List.nil_append, List.mem_cons] at hm
    rcases hm with rfl | rfl | hm
    · exact hopen
    · exact absurd rfl hcolon
    · split at hm
      · next harray =>
        obtain rfl := List.mem_singleton.1 hm
        exact (hown.1 harray).1
      · exact absurd hm (by simp)
  | @called place callee ps result s r₁ r₂ r₃ r₄ hopen _ _ _ ih₁ ih₂ =>
    intro hwf hprimary hmarks
    refine ⟨rfl, .inr ⟨rfl, ?_, ?_⟩⟩
    · refine .callable hprimary ?_ (hwf _) (fun p hp => (ih₁ p hp).1) (fun p hp => (ih₁ p hp).2)
        ih₂.1
      exact fun hmem => hopen.not_absent (hmarks _ hmem)
    · exact ⟨ih₂.2.1.marks, ih₂.2.1.noBranch, ih₂.2.1.noClause⟩
  | @notCalled place callee s hopen =>
    intro _ _ _
    exact ⟨rfl, .inl ⟨rfl, rfl, hopen⟩⟩
  | @bracketed item t s r₁ r₂ r₃ hopen _ _ ih =>
    obtain ⟨hbracket, hleft, hitem⟩ := ih
    refine ⟨hbracket, hleft, .inr ⟨hopen.not_absent, fun htakes hwf => ?_⟩⟩
    rcases hitem with ⟨rfl, -⟩ | ⟨-, houter⟩
    · exact ⟨item, rfl, fun _ => .arrayOf htakes hwf⟩
    · exact houter rfl (.arrayOf htakes hwf)
  | @notBracketed item s hopen => exact ⟨hopen, rfl, .inl ⟨rfl, rfl⟩⟩
  | @nextBranch branch branches s r₁ r₂ r₃ hbar _ _ ih₁ ih₂ =>
    obtain ⟨hend, hbranches, hnil, -, hlast⟩ := ih₂
    refine ⟨hend, ?_, by simp, fun _ => hbar.not_absent, ?_⟩
    · intro b hb
      rcases List.mem_cons.1 hb with rfl | hb
      · exact ih₁.1
      · exact hbranches b hb
    · cases branches with
      | nil =>
        obtain rfl := hnil rfl
        exact ih₁.2.1.marks
      | cons c cs => exact hlast
  | @noBranch s hbar => exact ⟨hbar, by simp, fun _ => rfl, by simp, by simp [openMarksLast]⟩
  | @conditional subject bound consequent alternative s r₁ r₂ r₃ r₄ r₅ r₆ his _ _ _ _ _
      ih₁ ih₂ ih₃ =>
    intro hplace hsubject hconditional hmarks hbar hcallable
    -- a callable would have taken the clauses into its result
    have hnot : subject.isCallable = false := by
      cases hc : subject.isCallable with
      | true => exact absurd his ((hcallable hc).noClause rfl _)
      | false => rfl
    refine ⟨.conditional hnot hconditional hsubject ih₁.1 ih₂.1 ih₃.1, ?_, rfl⟩
    exact ⟨ih₃.2.1.marks, ih₃.2.1.noBranch, ih₃.2.1.noClause⟩
  | @unconditional place subject s hnot =>
    intro hplace hsubject hconditional hmarks hbar hcallable
    exact ⟨hsubject, ⟨hmarks, fun _ => hbar, hnot⟩, rfl⟩
  | @optional key value s r₁ r₂ r₃ r₄ _ _ _ _ ih₁ ih₂ =>
    exact ⟨ih₂.1, by simpa [ShapeEntry.key?] using ih₁.1⟩
  | @keyed key value s r₁ r₂ r₃ _ _ _ ih₁ ih₂ =>
    exact ⟨ih₂.1, by simpa [ShapeEntry.key?] using ih₁.1⟩
  | @positional value s r _ _ _ ih => exact ⟨ih.1, by simp [ShapeEntry.key?]⟩
  | @noEntry s r _ => simp [Phrase.Shaped]
  | @lastEntry e s r₁ r₂ _ _ ih =>
    intro e' he
    exact List.mem_singleton.1 he ▸ ih
  | @nextEntry e es s r₁ r₂ r₃ _ _ _ ih₁ ih₂ => exact List.forall_mem_cons.2 ⟨ih₁, ih₂⟩
  | @record key value s r₁ r₂ r₃ r₄ _ _ _ _ ih₁ ih₂ =>
    exact ⟨rfl, fun _ => .record ih₁.1 ih₂.1, rfl, fun _ => Iff.rfl⟩
  | @sequence item s r₁ r₂ _ _ ih => exact ⟨rfl, fun _ => .sequence ih.1, rfl, fun _ => Iff.rfl⟩
  | @unqualified t s r _ _ ih =>
    obtain ⟨htarget, hqualifies⟩ := ih.1.target_eq
    exact ⟨htarget.symm ▸ ih.1, hqualifies⟩
  | @qualified name target s r₁ r₂ _ _ _ ih₁ ih₂ =>
    have hname : Token.IsName name := by
      cases ih₁.1 with
      | named hname => exact hname
    refine ⟨ih₂.1, ⟨name, rfl, hname⟩, (standsApart_iff ih₂.2.2).2 ⟨?_, ih₁.2.1.noClause rfl⟩⟩
    exact ih₁.2.1.marks _ (by simp [openMarks])
  | @lastArgument t s r₁ r₂ _ _ ih =>
    refine ⟨by simp, fun t' ht => ?_⟩
    exact List.mem_singleton.1 ht ▸ ih
  | @lastArgumentComma t s r₁ r₂ r₃ _ _ _ ih =>
    refine ⟨by simp, fun t' ht => ?_⟩
    exact List.mem_singleton.1 ht ▸ ih
  | @nextArgument t ts s r₁ r₂ r₃ _ _ _ ih₁ ih₂ =>
    exact ⟨by simp, List.forall_mem_cons.2 ⟨ih₁, ih₂.2⟩⟩
  | @namedParameter type name s r₁ r₂ _ hname ih =>
    exact ⟨ih.1, by simpa [Parameter.name?] using hname.1⟩
  | @unnamedParameter type s r _ _ ih => exact ⟨ih.1, by simp [Parameter.name?]⟩
  | @noParameter s r _ => simp [Phrase.Shaped]
  | @lastParameter p s r₁ r₂ _ _ ih =>
    intro p' hp
    exact List.mem_singleton.1 hp ▸ ih
  | @nextParameter p ps s r₁ r₂ r₃ _ _ _ ih₁ ih₂ => exact List.forall_mem_cons.2 ⟨ih₁, ih₂⟩

end Docblock
