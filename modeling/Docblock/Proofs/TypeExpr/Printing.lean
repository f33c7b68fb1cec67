import Docblock.Proofs.TypeExpr.Shape
import Docblock.Proofs.TypeExpr.Written

/-!
# Written types are read back

A well-formed tree is written as a text that the grammar derives, at every wrap level and with any
layout as its indentation unit: `WellFormed.reads_written`. What follows the text must not go on
with it, as after a type that was read.

The induction is on the derivation of well-formedness. A tree is read by different rules where it is
a whole type, a branch, a primary, the item of square brackets or the subject of a conditional, so
the induction carries all of these readings at once (`Printable`).

Each case builds a derivation out of those for the parts. What follows a part is known exactly: the
next mark of the rule, behind a gap that is layout, so the part ends before it (`Closes`,
`EndsBefore`). Rows between commas are read by one lemma for arguments, entries and parameters alike
(`reads_row`).

The unit of indentation may be any layout, also none. The law is about texts; that the lines of a
type joined by line feeds are this text is in `Docblock.Proofs.TypeExpr.Written`.
-/

namespace Docblock

open TypeExpr

/-! ## What ends a type -/

/-- A character that belongs to no name ends a name, also after layout. -/
theorem Token.endsWord_append {g : Text} (hg : Token.IsLayout g) {c : Char}
    (hc : Token.isNameChar c = false) (r : Text) :
    Token.EndsWord Token.isNameChar (g ++ c :: r) := by
  intro d hd
  cases g with
  | nil =>
    cases hd
    exact hc
  | cons e g =>
    cases hd
    exact Token.not_isNameChar_of_isLayout (hg d List.mem_cons_self)

/-- Layout in front does not change what a text begins with. -/
theorem begins_append {p : Char → Bool} {g : Text} (hg : Token.IsLayout g) {c : Char}
    (hc : Token.isLayout c = false) (hp : p c = true) (r : Text) : Begins p (g ++ c :: r) := by
  refine ⟨c, ?_, hp⟩
  rw [Token.skip_layout_append hg, Token.skip_eq_self (by simpa using hc)]
  rfl

/-- A text that begins with none of the marks that extend trees extends none. -/
theorem WellFormed.absent_of_begins {place : TypePlace} {t : TypeExpr} (ht : WellFormed place t)
    {p : Char → Bool} {k : Text} (h : Begins p k)
    (hp : ∀ m ∈ extendingMarks, ∀ c ∈ m.text.head?, p c = false) : ∀ m ∈ t.openMarks, m.Absent k :=
  fun m hm => h.absent (hp m (ht.openMarks_subset hm))

/-- The text `k` goes on with no type at all. -/
structure Closes (k : Text) : Prop where
  marks : ∀ m ∈ .bar :: extendingMarks, m.Absent k
  noClause : ∀ r, ¬ Token.IsAt k r
  endsWord : Token.EndsWord Token.isNameChar k

/-- Where no type goes on, this one does not. -/
theorem Closes.endsBefore {k : Text} (h : Closes k) {place place' : TypePlace} {t : TypeExpr}
    (ht : WellFormed place' t) : EndsBefore place t k where
  marks := fun m hm => h.marks m (List.mem_cons_of_mem _ (ht.openMarks_subset hm))
  noBranch := fun _ => h.marks _ List.mem_cons_self
  noClause := fun _ => h.noClause

/-- The characters that go on with no type. -/
def closesType (c : Char) : Bool := [',', ')', '}', '>', '?', '&', '.', '$'].contains c

/-- A comma or a closing mark goes on with no type, also after layout. -/
theorem closes_append {g : Text} (hg : Token.IsLayout g) {c : Char} (hc : closesType c = true)
    (r : Text) : Closes (g ++ c :: r) := by
  have hmem : c ∈ [',', ')', '}', '>', '?', '&', '.', '$'] := by simpa [closesType] using hc
  have hplain : ∀ d ∈ [',', ')', '}', '>', '?', '&', '.', '$'],
      Token.isLayout d = false ∧ Token.isNameChar d = false := by decide
  obtain ⟨hlayout, hname⟩ := hplain c hmem
  have hbegins : Begins closesType (g ++ c :: r) := begins_append hg hlayout hc r
  refine ⟨?_, hbegins.not_isAt (by decide), Token.endsWord_append hg hname r⟩
  intro m hm
  refine hbegins.absent ?_
  revert m
  decide

/-- A colon with a space behind it goes on with no type: it is no double colon. -/
theorem closes_colon {g : Text} (hg : Token.IsLayout g) (r : Text) :
    Closes (g ++ ':' :: ' ' :: r) := by
  have hbegins : Begins (· == ':') (g ++ ':' :: ' ' :: r) := begins_append hg (by decide) rfl _
  refine ⟨?_, hbegins.not_isAt (by decide), Token.endsWord_append hg (by decide) _⟩
  intro m hm
  by_cases hcolons : m = .doubleColon
  · rintro ⟨u, hu⟩
    rw [hcolons, Token.skip_layout_append hg, Token.skip_eq_self (by simp; decide)] at hu
    simp [Mark.text] at hu
  · refine hbegins.absent ?_
    revert m
    decide

/-! ## Rows between commas -/

/-- After any layout, `w` before `k` is read as the phrase `p`. -/
def ReadsBefore (p : Phrase) (w k : Text) : Prop :=
  ∀ g, Token.IsLayout g → Reads p (g ++ (w ++ k)) k

/-- What follows an item of a row: a comma, or the closing mark of the row. -/
inductive Separates (close : Mark) : Text → Prop
  | comma (r : Text) : Separates close (Mark.comma.text ++ r)
  | close {g : Text} (hg : Token.IsLayout g) (r : Text) : Separates close (g ++ (close.text ++ r))

/-- The marks that close a row. -/
def closingMarks : List Mark := [.closeAngle, .closeBrace, .closeParen]

/-- What follows an item of a row goes on with no type. -/
theorem Separates.closes {close : Mark} {k : Text} (h : Separates close k)
    (hclose : close ∈ closingMarks) : Closes k := by
  cases h with
  | comma r => exact closes_append .nil (by decide) r
  | close hg r =>
    simp only [closingMarks, List.mem_cons, List.not_mem_nil, or_false] at hclose
    rcases hclose with rfl | rfl | rfl <;> exact closes_append hg (by decide) r

/-- A row of items with commas between them is read item by item. -/
theorem reads_row {α : Type} {item : α → Phrase} {row : List α → Phrase} {close : Mark}
    (last : ∀ {a s r₁ r₂}, Reads (item a) s r₁ → close.At r₁ r₂ → Reads (row [a]) s r₂)
    (next : ∀ {a as s r₁ r₂ r₃}, Reads (item a) s r₁ → Mark.comma.At r₁ r₂ →
      Reads (row as) r₂ r₃ → Reads (row (a :: as)) s r₃)
    {w : α → Text} {items : List α} (hne : items ≠ [])
    (hitems : ∀ a ∈ items, ∀ k, Separates close k → ReadsBefore (item a) (w a) k)
    {g gap tail : Text} (hg : Token.IsLayout g) (hgap : Token.IsLayout gap)
    (htail : Token.IsLayout tail) (k : Text) :
    Reads (row items)
      (g ++ ((',' :: gap).intercalate (items.map w) ++ (tail ++ (close.text ++ k)))) k := by
  induction items generalizing g with
  | nil => exact absurd rfl hne
  | cons a as ih =>
    cases as with
    | nil =>
      have hitem := hitems a List.mem_cons_self _ (.close htail k) g hg
      simpa using last hitem (close.at_append htail k)
    | cons b bs =>
      have hrest := ih (by simp) (fun x hx => hitems x (List.mem_cons_of_mem _ hx)) hgap
      have hitem := fun r => hitems a List.mem_cons_self _ (.comma r) g hg
      simpa [Mark.text] using next (hitem _) (Mark.at_append .comma .nil _) hrest

/-! ## The readings of a written tree -/

/-- Whether a tree is a branch that could stand anywhere in a union. -/
def TypeExpr.isBranch : TypeExpr → Bool
  | .nullable _ => true
  | .arrayOf _ => true
  | t => t.isPrimary

section Readings

variable (level : WrapLevel) (unit : Text)

/-- The written tree is read as a type. -/
def PrintsType (place : TypePlace) (t : TypeExpr) : Prop :=
  ∀ depth k, Token.EndsWord Token.isNameChar k → EndsBefore place t k →
    ReadsBefore (.type place t) (t.written level unit depth) k

/-- The written tree is read as a branch. -/
def PrintsBranch (t : TypeExpr) : Prop :=
  ∀ place depth k, Token.EndsWord Token.isNameChar k → (∀ m ∈ t.openMarks, m.Absent k) →
    ReadsBefore (.branch place t) (t.written level unit depth) k

/-- The written tree is read as a name with the arguments that may follow it. -/
def PrintsOwner (t : TypeExpr) : Prop :=
  ∀ depth k, Token.EndsWord Token.isNameChar k →
    (∀ m ∈ t.primaryMarks, m ≠ .doubleColon → m.Absent k) → ∀ g, Token.IsLayout g →
    ∃ name r, Token.NameAt name (g ++ (t.written level unit depth ++ k)) r ∧ NoOwnRule name r ∧
      Reads (.generic name t) r k

/-- The written tree is read as a primary. -/
def PrintsPrimary (t : TypeExpr) : Prop :=
  ∀ depth k, Token.EndsWord Token.isNameChar k → (∀ m ∈ t.primaryMarks, m.Absent k) →
    ReadsBefore (.primary t) (t.written level unit depth) k

/-- The written tree is read as the item of the square brackets that follow it. -/
def PrintsItem (t : TypeExpr) : Prop :=
  ∀ place depth u k k', Reads (.brackets t u) ('[' :: ']' :: k) k' →
    ∀ g, Token.IsLayout g →
      Reads (.branch place u) (g ++ (t.written level unit depth ++ '[' :: ']' :: k)) k'

/-- The written tree is read as a union, or as the only branch of one, before its clauses. -/
def PrintsSubject (place : TypePlace) (t : TypeExpr) : Prop :=
  ∀ depth k, Token.EndsWord Token.isNameChar k → (∀ m ∈ t.openMarks, m.Absent k) →
    Mark.bar.Absent k → ∀ g, Token.IsLayout g →
    ∃ first branches r, unionOf first branches = t ∧
      Reads (.branch place first) (g ++ (t.written level unit depth ++ k)) r ∧
      Reads (.branches branches) r k

/-- All the readings of a written tree that stands at a place. -/
structure Printable (place : TypePlace) (t : TypeExpr) : Prop where
  type : PrintsType level unit place t
  branch : t.isBranch = true → PrintsBranch level unit t
  primary : t.isPrimary = true → PrintsPrimary level unit t
  owner : t.isOwner = true → PrintsOwner level unit t
  item : t.takesBrackets = true → PrintsItem level unit t
  subject : t.isCallable = false → t.isConditional = false → PrintsSubject level unit place t

end Readings

section Assembly

variable {level : WrapLevel} {unit : Text}

/-- A branch by itself is a subject. -/
theorem PrintsBranch.subject {t : TypeExpr} (h : PrintsBranch level unit t) (place : TypePlace) :
    PrintsSubject level unit place t := by
  intro depth k hword hmarks hbar g hg
  exact ⟨t, [], k, rfl, h place depth k hword hmarks g hg, .noBranch hbar⟩

/-- A subject without clauses is a whole type. -/
theorem PrintsSubject.type {place : TypePlace} {t : TypeExpr} (h : PrintsSubject level unit place t)
    (hplace : place ≠ .branch) : PrintsType level unit place t := by
  intro depth k hword hend g hg
  obtain ⟨first, branches, r, rfl, hfirst, hbranches⟩ :=
    h depth k hword hend.marks (hend.noBranch hplace) g hg
  exact .whole hplace hfirst hbranches (.unconditional hend.noClause)

/-- A branch by itself is a type. -/
theorem PrintsBranch.type {t : TypeExpr} (h : PrintsBranch level unit t) (place : TypePlace) :
    PrintsType level unit place t := by
  by_cases hplace : place = .branch
  · intro depth k hword hend g hg
    subst hplace
    exact .single (h .branch depth k hword hend.marks g hg)
  · exact (h.subject place).type hplace

/-- A primary without parameters and brackets is a branch. -/
theorem PrintsPrimary.branch {t : TypeExpr} (h : PrintsPrimary level unit t)
    (hprimary : t.isPrimary = true) : PrintsBranch level unit t := by
  intro place depth k hword hmarks g hg
  rw [openMarks_of_isPrimary hprimary] at hmarks
  refine .plain (h depth k hword ?_ g hg) (.notCalled (hmarks _ ?_)) (.notBracketed (hmarks _ ?_))
  · exact fun m hm => hmarks m (List.mem_append_right _ hm)
  · simp
  · simp

/-- A primary may be the item of square brackets. -/
theorem PrintsPrimary.item {t : TypeExpr} (h : PrintsPrimary level unit t)
    (hprimary : t.isPrimary = true) (ht : t.takesBrackets = true) {place : TypePlace}
    (hwf : WellFormed place t) : PrintsItem level unit t := by
  intro place' depth u k k' hbrackets g hg
  have hbegins : Begins (· == '[') ('[' :: ']' :: k) := begins_append .nil (by decide) rfl _
  refine .plain (h depth _ (Token.endsWord_append .nil (by decide) _) ?_ g hg)
    (.notCalled (hbegins.absent (by decide))) hbrackets
  intro m hm
  have hextends : m ∈ extendingMarks := by
    apply hwf.openMarks_subset
    rw [openMarks_of_isPrimary hprimary]
    exact List.mem_append_right _ hm
  have hne : m ≠ .openBracket := by
    rintro rfl
    cases t <;> simp [takesBrackets, isPrimary, primaryMarks] at *
  refine hbegins.absent ?_
  clear hm
  revert m
  decide

/-- A name that owns no member is a primary. -/
theorem PrintsOwner.primary {t : TypeExpr} (h : PrintsOwner level unit t)
    (ht : t.isOwner = true) : PrintsPrimary level unit t := by
  intro depth k hword hmarks g hg
  obtain ⟨name, r, hname, hown, hgeneric⟩ := h depth k hword (fun m hm _ => hmarks m hm) g hg
  refine .name hname (.noMember hown hgeneric (hmarks _ ?_))
  cases t <;> simp [isOwner, primaryMarks] at *

/-- All readings of a primary follow from the one as a primary. -/
theorem Printable.of_primary {place : TypePlace} {t : TypeExpr} (hprimary : t.isPrimary = true)
    (hwf : WellFormed place t) (h : PrintsPrimary level unit t)
    (howner : t.isOwner = true → PrintsOwner level unit t) : Printable level unit place t where
  type := (h.branch hprimary).type place
  branch := fun _ => h.branch hprimary
  primary := fun _ => h
  owner := howner
  item := fun ht => h.item hprimary ht hwf
  subject := fun _ _ => (h.branch hprimary).subject place

/-- All readings of a name, with arguments or without, follow from the one as an owner. -/
theorem Printable.of_owner {place : TypePlace} {t : TypeExpr} (ht : t.isOwner = true)
    (hwf : WellFormed place t) (h : PrintsOwner level unit t) : Printable level unit place t := by
  refine .of_primary ?_ hwf (h.primary ht) fun _ => h
  cases t <;> simp [isOwner, isPrimary] at *

/-- A name stands behind layout, in front of what ends it. -/
theorem Token.nameAt_append {w k g : Text} (hw : Token.IsName w) (hg : Token.IsLayout g)
    (hk : Token.EndsWord Token.isNameChar k) : Token.NameAt w (g ++ (w ++ k)) k := by
  refine ⟨hw, ?_, hk⟩
  rw [Token.skip_layout_append hg]
  refine Token.skip_eq_self fun c hc => ?_
  rcases hw with ⟨body, -, -, rfl⟩ | ⟨body, -, -, rfl⟩ | ⟨body, hne, hbody, hw⟩
  · cases hc
    decide
  · cases hc
    decide
  · obtain rfl : w = body := hw
    cases w with
    | nil => exact absurd rfl hne
    | cons d w =>
      cases hc
      have hname := hbody c List.mem_cons_self
      cases hlayout : Token.isLayout c with
      | true => simp [Token.not_isNameChar_of_isLayout hlayout] at hname
      | false => rfl

/-- The words of sequences are names. -/
theorem Token.isName_word (kind : SequenceKind) : Token.IsName kind.word := by
  refine .inr (.inr ⟨kind.word, ?_, ?_, rfl⟩)
  · cases kind <;> decide
  · cases kind <;> decide

/-- What is written in a gap is layout. -/
theorem isLayout_gapText (hunit : Token.IsLayout unit) {inline : Text}
    (hinline : Token.IsLayout inline) (threshold : WrapLevel) (depth : Nat) :
    Token.IsLayout (Piece.gapText level unit threshold depth inline) := by
  rw [Piece.gapText]
  split
  · intro c hc
    rcases List.mem_cons.1 hc with rfl | hc
    · decide
    · obtain ⟨line, hline, hc⟩ := List.mem_flatten.1 hc
      rw [List.eq_of_mem_replicate hline] at hc
      exact hunit c hc
  · exact hinline

/-- A gap with a space in it ends a name. -/
theorem endsWord_gapText (threshold : WrapLevel) (depth : Nat) (r : Text) :
    Token.EndsWord Token.isNameChar (Piece.gapText level unit threshold depth [' '] ++ r) := by
  rw [Piece.gapText]
  split <;> exact Token.endsWord_append .nil (by decide) _

/-- The word `is` stands behind layout, in front of a space. -/
theorem isAt_append {g : Text} (hg : Token.IsLayout g) (r : Text) :
    Token.IsAt (g ++ 'i' :: 's' :: ' ' :: r) (' ' :: r) := by
  constructor
  · rw [Token.skip_layout_append hg]
    exact Token.skip_eq_self (by simp; decide)
  · simp
    decide

/-- A space is layout. -/
theorem isLayout_space : Token.IsLayout [' '] := by simp [Token.IsLayout, Token.isLayout]

/-- A name is read as itself. -/
theorem printable_named {name : Text} (hname : Token.IsName name) (place : TypePlace) :
    Printable level unit place (.named name) := by
  refine .of_owner rfl (.named hname) ?_
  intro depth k hword hmarks g hg
  have habsent : ∀ m ∈ [Mark.openAngle] ++ if name = SequenceKind.array.word then [.openBrace]
      else [], m.Absent k := by
    intro m hm
    refine hmarks m ?_ ?_
    · simp only [primaryMarks, List.mem_append, List.mem_cons, List.not_mem_nil, or_false] at hm ⊢
      rcases hm with rfl | hm
      · exact .inl (.inl rfl)
      · exact .inr hm
    · rintro rfl
      split at hm <;> simp at hm
  rw [written_named]
  refine ⟨name, k, Token.nameAt_append hname hg hword, ?_, .withoutArguments (habsent _ (by simp))⟩
  constructor
  · intro harray
    exact ⟨habsent _ (by simp [harray]), habsent _ (by simp)⟩
  · exact fun _ => habsent _ (by simp)

/-! ## Items of rows -/

/-- An argument is read back, with its modifier if it has one: the target stands apart from it, so
it is not taken for a callee or a subject. -/
theorem PrintsType.argument {t : TypeExpr} (h : PrintsType level unit .inner t.target)
    (hwf : WellFormed .inner t.target) (hqualifies : t.QualifiesWell) (depth : Nat) {k : Text}
    (hk : Separates .closeAngle k) : ReadsBefore (.argument t) (t.written level unit depth) k := by
  have hcloses := hk.closes (by decide)
  have hends : EndsArgument k := by
    rintro ⟨hcomma, hclose⟩
    cases hk with
    | comma r => exact (Mark.at_append .comma .nil r).not_absent hcomma
    | close hg r => exact (Mark.at_append .closeAngle hg r).not_absent hclose
  have htarget := h depth k hcloses.endsWord (hcloses.endsBefore hwf)
  intro g hg
  cases t with
  | qualified modifier target =>
    obtain ⟨⟨name, rfl, hname⟩, hapart⟩ := hqualifies
    have htext := htarget [' '] isLayout_space
    have hbegins := htext.begins
    obtain ⟨hparen, his⟩ := (standsApart_iff htext.shaped.2.2).1 hapart
    -- the modifier ends where its target begins
    have hend : EndsBefore .inner (.named name)
        ([' '] ++ (target.written level unit depth ++ k)) := by
      refine ⟨fun m hm => ?_, fun _ => hbegins.absent (by decide), fun _ => his⟩
      have hwf : WellFormed .inner (.named name) := .named hname
      have hextends := hwf.openMarks_subset hm
      have hother : ∀ m ∈ extendingMarks, m ≠ .openParen →
          ∀ c ∈ m.text.head?, opensType c = false := by decide
      by_cases hm' : m = .openParen
      · exact hm' ▸ hparen
      · exact hbegins.absent (hother m hextends hm')
    have hprintable : Printable level unit .inner (.named name) := printable_named hname .inner
    have hmodifier := hprintable.type depth _ (Token.endsWord_append .nil (by decide) _) hend g hg
    rw [written_qualified, written_named]
    simp only [List.append_assoc, List.cons_append]
    rw [written_named] at hmodifier
    refine .qualified hmodifier ?_ htext
    rw [EndsArgument, not_not]
    exact ⟨hbegins.absent (by decide), hbegins.absent (by decide)⟩
  | _ => exact .unqualified (htarget g hg) fun _ _ => hends

/-- An entry is read back, its key with or without a question mark. -/
theorem printsEntry {e : ShapeEntry} (hvalue : PrintsType level unit .inner e.value)
    (hwf : WellFormed .inner e.value) (hkey : ∀ key ∈ e.key?, PrintsType level unit .inner key)
    (hwfKey : ∀ key ∈ e.key?, WellFormed .inner key) (depth : Nat) {k : Text}
    (hk : Separates .closeBrace k) :
    ReadsBefore (.entry e) (writtenEntry level unit depth e) k := by
  have hcloses := hk.closes (by decide)
  have htext := hvalue depth k hcloses.endsWord (hcloses.endsBefore hwf)
  intro g hg
  cases e with
  | positional value =>
    have hbegins : Begins (fun c => c == ',' || c == '}') k := by
      cases hk with
      | comma r => exact begins_append .nil (by decide) rfl r
      | close hg r => exact begins_append hg (by decide) rfl r
    exact .positional (htext g hg) (hbegins.absent (by decide)) (hbegins.absent (by decide))
  | keyed key isOptional value =>
    have hbefore := fun k (hk : Closes k) =>
      hkey key rfl depth k hk.endsWord (hk.endsBefore (hwfKey key rfl)) g hg
    rw [writtenEntry_keyed]
    simp only [List.append_assoc, List.cons_append]
    cases isOptional with
    | true =>
      exact .optional (hbefore _ (closes_append .nil (by decide) _))
        (Mark.at_append .question .nil _) (Mark.at_append .colon .nil _)
        (htext [' '] isLayout_space)
    | false =>
      exact .keyed (hbefore _ (closes_colon .nil _)) (Mark.at_append .colon .nil _)
        (htext [' '] isLayout_space)

/-- The name of a parameter begins with one of three characters. -/
theorem Token.IsParameterName.exists_cons {w : Text} (h : Token.IsParameterName w) :
    ∃ c r, w = c :: r ∧ c ∈ ['&', '.', '$'] := by
  obtain ⟨start, hstart, body, -, -, rfl⟩ := h
  have hfirst : ∀ start ∈ Token.parameterStarts,
      start.head?.any (['&', '.', '$'].contains ·) = true := by decide
  obtain ⟨c, hhead, hc⟩ := (Option.any_eq_true _ _).1 (hfirst start hstart)
  obtain ⟨r, rfl⟩ := List.head?_eq_some_iff.1 hhead
  exact ⟨c, r ++ body, rfl, by simpa using hc⟩

/-- The name of a parameter stands behind layout, in front of what ends it. -/
theorem Token.parameterNameAt_append {w k g : Text} (hw : Token.IsParameterName w)
    (hg : Token.IsLayout g) (hk : Token.EndsWord Token.isNameChar k) :
    Token.ParameterNameAt w (g ++ (w ++ k)) k := by
  refine ⟨hw, ?_, ?_⟩
  · rw [Token.skip_layout_append hg]
    obtain ⟨c, r, rfl, hc⟩ := hw.exists_cons
    have hplain : ∀ c ∈ ['&', '.', '$'], Token.isLayout c = false := by decide
    exact Token.skip_eq_self (by simpa using hplain c hc)
  · intro c hc
    have hname := hk c hc
    simp only [Token.isNameChar, Bool.or_eq_false_iff] at hname
    simp [Token.isParameterChar, hname]

/-- A parameter is read back; the name of a variadic one stands at its ellipsis. -/
theorem printsParameter {p : Parameter} (htype : PrintsType level unit .inner p.type)
    (hwf : WellFormed .inner p.type) (hname : ∀ w ∈ p.name?, Token.IsParameterName w) (depth : Nat)
    {k : Text} (hk : Separates .closeParen k) :
    ReadsBefore (.parameter p) (writtenParameter level unit depth p) k := by
  have hcloses := hk.closes (by decide)
  have hbefore := fun k (hk : Closes k) => htype depth k hk.endsWord (hk.endsBefore hwf)
  intro g hg
  cases p with
  | unnamed type =>
    have hbegins : Begins (fun c => c == ',' || c == ')') k := by
      cases hk with
      | comma r => exact begins_append .nil (by decide) rfl r
      | close hg r => exact begins_append hg (by decide) rfl r
    refine .unnamedParameter (hbefore k hcloses g hg) fun w u hw => ?_
    obtain ⟨c, r, rfl, hc⟩ := hw.1.exists_cons
    obtain ⟨d, hd, hp⟩ := hbegins
    rw [hw.2.1] at hd
    cases hd
    have hother : ∀ c ∈ ['&', '.', '$'], (c == ',' || c == ')') = false := by decide
    simp [hother c hc] at hp
  | named type name =>
    have hname := hname name rfl
    have hgap : Token.IsLayout (if type.isEllipsis then [] else [' ']) := by
      split
      · exact .nil
      · exact isLayout_space
    rw [writtenParameter_named]
    simp only [List.append_assoc]
    refine .namedParameter (hbefore _ ?_ g hg)
      (Token.parameterNameAt_append hname hgap hcloses.endsWord)
    obtain ⟨c, r, rfl, hc⟩ := hname.exists_cons
    have hcloses : ∀ c ∈ ['&', '.', '$'], closesType c = true := by decide
    exact closes_append hgap (hcloses c hc) _

/-- The branches of a union after its first are read one by one. -/
theorem reads_branches {branches : List TypeExpr} (hne : branches ≠ [])
    (hprints : ∀ b ∈ branches, PrintsType level unit .branch b)
    (hwf : ∀ b ∈ branches, WellFormed .branch b) (depth : Nat) {k : Text}
    (hword : Token.EndsWord Token.isNameChar k) (hmarks : ∀ m ∈ openMarksLast branches, m.Absent k)
    (hbar : Mark.bar.Absent k) :
    Reads (.branches branches) (' ' :: '|' :: ' ' ::
      ([' ', '|', ' '].intercalate (branches.map (written level unit depth)) ++ k)) k := by
  induction branches with
  | nil => exact absurd rfl hne
  | cons b bs ih =>
    have hbranch := fun k hword hmarks =>
      hprints b List.mem_cons_self depth k hword ⟨hmarks, by simp, by simp⟩ [' '] isLayout_space
    cases bs with
    | nil =>
      have hlast := hbranch k hword hmarks
      exact .nextBranch (Mark.at_append .bar isLayout_space _) (by simpa using hlast)
        (.noBranch hbar)
    | cons c cs =>
      have hrest := ih (by simp) (fun x hx => hprints x (List.mem_cons_of_mem _ hx))
        (fun x hx => hwf x (List.mem_cons_of_mem _ hx)) hmarks
      have hbegins : ∀ r, Begins (· == '|') (' ' :: '|' :: r) := fun r =>
        begins_append isLayout_space (by decide) rfl r
      have hnext := fun r => hbranch (' ' :: '|' :: r)
        (Token.endsWord_append isLayout_space (by decide) r)
        ((hwf b List.mem_cons_self).absent_of_begins (hbegins r) (by decide))
      simp only [List.map_cons, List.intercalate_cons_cons, List.append_assoc, List.cons_append,
        List.nil_append]
      exact .nextBranch (Mark.at_append .bar isLayout_space _) (hnext _) hrest

/-- What stands in a union and is no callable is a branch there. -/
theorem WellFormed.isBranch_eq_true {t : TypeExpr} (h : WellFormed .branch t)
    (hcallable : t.isCallable = false) : t.isBranch = true := by
  cases h with
  | union hplace => exact absurd rfl hplace
  | callable => simp [isCallable] at hcallable
  | _ => rfl

/-- A double colon goes on with an owner in one way only, as its member. -/
theorem owner_marks {t : TypeExpr} (ht : t.isOwner = true) {k : Text} (h : Begins (· == ':') k) :
    ∀ m ∈ t.primaryMarks, m ≠ .doubleColon → m.Absent k := by
  intro m hm hne
  have hother : ∀ m ∈ [Mark.openAngle, .doubleColon, .openBrace], m ≠ .doubleColon →
      ∀ c ∈ m.text.head?, (c == ':') = false := by decide
  refine h.absent (hother m ?_ hne)
  cases t with
  | named name =>
    rw [primaryMarks] at hm
    split at hm <;> simp_all
  | generic base args => simp_all [primaryMarks]
  | _ => simp [isOwner] at ht

/-- A parenthesis goes on with a callee in one way only, as its parameters. -/
theorem callee_marks {place : TypePlace} {t : TypeExpr} (hwf : WellFormed place t)
    (hprimary : t.isPrimary = true) (hopen : .openParen ∉ t.primaryMarks) {k : Text}
    (h : Begins (· == '(') k) : ∀ m ∈ t.primaryMarks, m.Absent k := by
  intro m hm
  have hother : ∀ m ∈ extendingMarks, m ≠ .openParen →
      ∀ c ∈ m.text.head?, (c == '(') = false := by decide
  refine h.absent (hother m (hwf.openMarks_subset ?_) ?_)
  · rw [openMarks_of_isPrimary hprimary]
    exact List.mem_append_right _ hm
  · rintro rfl
    exact hopen hm

/-! ## The induction -/

/-- A written tree that is well-formed has all its readings. -/
theorem WellFormed.printable (hunit : Token.IsLayout unit) {place : TypePlace} {t : TypeExpr}
    (h : WellFormed place t) : Printable level unit place t := by
  have hspace : ∀ threshold depth,
      Token.IsLayout (Piece.gapText level unit threshold depth [' ']) :=
    isLayout_gapText hunit isLayout_space
  have hbreak : ∀ threshold depth, Token.IsLayout (Piece.gapText level unit threshold depth []) :=
    isLayout_gapText hunit .nil
  induction h with
  | @nullable place inner _ ih =>
    have hbranch : PrintsBranch level unit (.nullable inner) := by
      intro place depth k hword hmarks g hg
      rw [written_nullable]
      exact .nullable (Mark.at_append .question hg _)
        (ih.type depth k hword ⟨hmarks, by simp, by simp⟩ [] .nil)
    exact ⟨hbranch.type place, fun _ => hbranch, by simp [isPrimary], by simp [isOwner],
      by simp [takesBrackets, isPrimary], fun _ _ => hbranch.subject place⟩
  | @named place name hname => exact printable_named hname place
  | @generic place name args hname harray hlist hne hwf hqualifies ih =>
    refine .of_owner rfl (.generic hname harray hlist hne hwf hqualifies) ?_
    intro depth k hword hmarks g hg
    rw [written_generic, written_named]
    simp only [List.append_assoc, List.cons_append, List.nil_append]
    refine
      ⟨name, _, Token.nameAt_append hname hg (Token.endsWord_append .nil (by decide) _), ?_, ?_⟩
    · exact ⟨fun h => absurd h harray, fun h => absurd h hlist⟩
    · refine .withArguments (Mark.at_append .openAngle .nil _) ?_
      refine reads_row .lastArgument .nextArgument hne ?_ (hbreak _ _) (hspace _ _) (hbreak _ _) k
      intro a ha k hk
      exact (ih a ha).type.argument (hwf a ha) (hqualifies a ha) _ hk
  | @constant place owner member howner hwf hmember ih₁ ih₂ =>
    refine .of_primary rfl (.constant howner hwf hmember) ?_ (by simp [isOwner])
    intro depth k hword hmarks g hg
    rw [written_constant]
    simp only [List.append_assoc, List.cons_append]
    -- what stands behind the owner begins with a colon, at which a name and its arguments end
    have hbegins : ∀ r, Begins (· == ':') (':' :: ':' :: r) := fun r =>
      begins_append .nil (by decide) rfl _
    have hown := fun r => ih₁.owner howner depth (':' :: ':' :: r)
      (Token.endsWord_append .nil (by decide) _) (owner_marks howner (hbegins r)) g hg
    obtain ⟨name, r, hname, hown, hgeneric⟩ := hown _
    exact .name hname (.member hown hgeneric (Mark.at_append .doubleColon .nil _)
      (ih₂.type depth k hword ⟨hmarks, by simp, by simp⟩ [] .nil))
  | @shape place entries hwf hwfKey ih₁ ih₂ =>
    refine .of_primary rfl (.shape hwf hwfKey) ?_ (by simp [isOwner])
    intro depth k hword hmarks g hg
    have hname := fun r => Token.nameAt_append (Token.isName_word .array) hg
      (Token.endsWord_append (c := '{') .nil (by decide) r)
    cases entries with
    | nil =>
      rw [written_shape_nil]
      simp only [List.append_assoc, List.cons_append, List.nil_append]
      exact .name (hname _) (.shape (Mark.at_append .openBrace .nil _)
        (.noEntry (Mark.at_append .closeBrace .nil k)))
    | cons e es =>
      rw [written_shape_cons]
      simp only [List.append_assoc, List.cons_append, List.nil_append]
      refine .name (hname _) (.shape (Mark.at_append .openBrace .nil _) ?_)
      refine reads_row .lastEntry .nextEntry (by simp) ?_ (hbreak _ _) (hspace _ _) (hbreak _ _) k
      intro e he k hk
      exact printsEntry (ih₁ e he).type (hwf e he) (fun key hkey => (ih₂ e he key hkey).type)
        (hwfKey e he) _ hk
  | @record place key value hwf₁ hwf₂ ih₁ ih₂ =>
    refine .of_primary rfl (.record hwf₁ hwf₂) ?_ (by simp [isOwner])
    intro depth k hword hmarks g hg
    rw [written_record]
    simp only [List.append_assoc, List.cons_append, List.nil_append]
    have hcomma : ∀ r, Closes (',' :: r) := closes_append .nil (by decide)
    have hclose : ∀ r, Closes ('>' :: r) := closes_append .nil (by decide)
    refine .name (Token.nameAt_append (Token.isName_word .array) hg
      (Token.endsWord_append .nil (by decide) _)) (.array (Mark.at_append .openAngle .nil _) ?_)
    exact .record (ih₁.type _ _ (hcomma _).endsWord ((hcomma _).endsBefore hwf₁) [] .nil)
      (Mark.at_append .comma .nil _)
      (ih₂.type _ _ (hclose _).endsWord ((hclose _).endsBefore hwf₂) [' '] isLayout_space)
      (Mark.at_append .closeAngle .nil k)
  | @sequence place kind item hwf ih =>
    refine .of_primary rfl (.sequence hwf) ?_ (by simp [isOwner])
    intro depth k hword hmarks g hg
    rw [written_sequence]
    simp only [List.append_assoc, List.cons_append, List.nil_append]
    have hclose : ∀ r, Closes ('>' :: r) := closes_append .nil (by decide)
    have hitem := ih.type depth _ (hclose k).endsWord ((hclose k).endsBefore hwf) [] .nil
    refine .name (Token.nameAt_append (Token.isName_word kind) hg
      (Token.endsWord_append .nil (by decide) _)) ?_
    cases kind with
    | array =>
      exact .array (Mark.at_append .openAngle .nil _)
        (.sequence hitem (Mark.at_append .closeAngle .nil k))
    | list =>
      exact .list (Mark.at_append .openAngle .nil _) hitem (Mark.at_append .closeAngle .nil k)
  | @arrayOf place item htakes hwf ih =>
    have hitem : PrintsItem level unit (.arrayOf item) := by
      intro place depth u k k' hbrackets g hg
      rw [written_arrayOf]
      simp only [List.append_assoc, List.cons_append, List.nil_append]
      exact ih.item htakes place depth u _ k' (.bracketed (Mark.at_append .openBracket .nil _)
        (Mark.at_append .closeBracket .nil _) hbrackets) g hg
    have hbranch : PrintsBranch level unit (.arrayOf item) := by
      intro place depth k hword hmarks g hg
      rw [written_arrayOf]
      simp only [List.append_assoc, List.cons_append, List.nil_append]
      exact ih.item htakes place depth _ k k (.bracketed (Mark.at_append .openBracket .nil _)
        (Mark.at_append .closeBracket .nil _)
        (.notBracketed (hmarks _ (by simp [openMarks])))) g hg
    exact ⟨hbranch.type place, fun _ => hbranch, by simp [isPrimary], by simp [isOwner],
      fun _ => hitem, fun _ _ => hbranch.subject place⟩
  | @union place branches hplace hlength hwf hfirst ih =>
    have hsubject : PrintsSubject level unit place (.union branches) := by
      intro depth k hword hmarks hbar g hg
      cases branches with
      | nil => simp at hlength
      | cons b rest =>
        cases rest with
        | nil => simp at hlength
        | cons c cs =>
          have hb := hwf b List.mem_cons_self
          have hcallable : b.isCallable = false := hfirst b rfl
          have hbegins : ∀ r, Begins (· == '|') (' ' :: '|' :: r) := fun r =>
            begins_append isLayout_space (by decide) rfl r
          have hrest := reads_branches (List.cons_ne_nil c cs)
            (fun x hx => (ih x (List.mem_cons_of_mem _ hx)).type)
            (fun x hx => hwf x (List.mem_cons_of_mem _ hx)) depth hword hmarks hbar
          rw [written_union]
          simp only [List.map_cons, List.intercalate_cons_cons, List.append_assoc, List.cons_append,
            List.nil_append]
          refine ⟨b, c :: cs, _, rfl, ?_, hrest⟩
          exact (ih b List.mem_cons_self).branch (hb.isBranch_eq_true hcallable) place depth _
            (Token.endsWord_append isLayout_space (by decide) _)
            (hb.absent_of_begins (hbegins _) (by decide)) g hg
    exact ⟨hsubject.type hplace, by simp [isBranch, isPrimary], by simp [isPrimary],
      by simp [isOwner], by simp [takesBrackets, isPrimary], fun _ _ => hsubject⟩
  | @callable place callee ps result hprimary hopen hwf hwfTypes hnames hresult ih₁ ih₂ ih₃ =>
    refine ⟨?_, by simp [isBranch, isPrimary], by simp [isPrimary],
      by simp [isOwner], by simp [takesBrackets, isPrimary], by simp [isCallable]⟩
    intro depth k hword hend g hg
    have hparameters : ∀ r, Reads (.parameters ps)
        ([',', ' '].intercalate (ps.map (writtenParameter level unit depth)) ++ ')' :: r) r := by
      intro r
      by_cases hps : ps = []
      · subst hps
        exact .noParameter (Mark.at_append .closeParen .nil r)
      · refine reads_row .lastParameter .nextParameter hps ?_ .nil isLayout_space .nil r
        intro p hp k hk
        exact printsParameter (ih₂ p hp).type (hwfTypes p hp) (hnames p hp) _ hk
    have hbranch : Reads (.branch place (.callable callee ps result))
        (g ++ ((TypeExpr.callable callee ps result).written level unit depth ++ k)) k := by
      rw [written_callable]
      simp only [List.append_assoc, List.cons_append]
      have hbegins : ∀ r, Begins (· == '(') ('(' :: r) := fun r =>
        begins_append .nil (by decide) rfl r
      refine .plain
        (ih₁.primary hprimary depth _ (Token.endsWord_append .nil (by decide) _) ?_ g hg)
        (.called (Mark.at_append .openParen .nil _) (hparameters _) (Mark.at_append .colon .nil _)
          (ih₃.type depth k hword ⟨hend.marks, hend.noBranch, hend.noClause⟩ [' '] isLayout_space))
        (.notBracketed (hend.marks _ hresult.openBracket_mem))
      exact callee_marks hwf hprimary hopen (hbegins _)
    by_cases hplace : place = .branch
    · subst hplace
      exact .single hbranch
    · exact .whole hplace hbranch (.noBranch (hend.noBranch hplace)) (.unconditional hend.noClause)
  | @literal place quote body hbody =>
    refine .of_primary rfl (.literal hbody) ?_ (by simp [isOwner])
    intro depth k hword hmarks g hg
    refine .literal ⟨hbody, ?_⟩
    rw [written_literal, Token.skip_layout_append hg]
    simp only [List.append_assoc, List.cons_append, List.nil_append]
    have hplain : Token.isLayout quote.char = false := by cases quote <;> decide
    exact Token.skip_eq_self (by simpa using hplain)
  | @group place inner hwf ih =>
    refine .of_primary rfl (.group hwf) ?_ (by simp [isOwner])
    intro depth k hword hmarks g hg
    have hclose : Closes (')' :: k) := closes_append .nil (by decide) k
    rw [written_group]
    simp only [List.append_assoc, List.cons_append, List.nil_append]
    exact .group (Mark.at_append .openParen hg _)
      (ih.type depth _ hclose.endsWord (hclose.endsBefore hwf) [] .nil)
      (Mark.at_append .closeParen .nil k)
  | @conditional subject bound consequent alternative hcallable hconditional hwf₁ hwf₂ hwf₃ hwf₄
      ih₁ ih₂ ih₃ ih₄ =>
    refine ⟨?_, by simp [isBranch, isPrimary], by simp [isPrimary],
      by simp [isOwner], by simp [takesBrackets, isPrimary], by simp [isConditional]⟩
    intro depth k hword hend g hg
    have hgap : Token.IsLayout (Piece.gapText level unit .clauses (depth + 1) [' ']) := hspace _ _
    have hquestion := fun r => closes_append hgap (c := '?') (by decide) r
    have hcolon := fun r => closes_colon hgap r
    rw [written_conditional]
    simp only [List.append_assoc, List.cons_append]
    have hbegins := fun r => begins_append (p := (· == 'i')) hgap (c := 'i') (by decide) rfl r
    obtain ⟨first, branches, r, hunion, hfirst, hbranches⟩ :=
      ih₁.subject hcallable hconditional depth _ (endsWord_gapText _ _ _)
        (hwf₁.absent_of_begins (hbegins _) (by decide)) ((hbegins _).absent (by decide)) g hg
    refine .whole (by decide) hfirst hbranches ?_
    rw [hunion]
    refine .conditional (isAt_append hgap _)
      (ih₂.type _ _ (hquestion _).endsWord ((hquestion _).endsBefore hwf₂) [' '] isLayout_space)
      (Mark.at_append .question hgap _)
      (ih₃.type _ _ (hcolon _).endsWord ((hcolon _).endsBefore hwf₃) [' '] isLayout_space)
      (Mark.at_append .colon hgap _)
      (ih₄.type _ _ hword ⟨hend.marks, hend.noBranch, hend.noClause⟩ [' '] isLayout_space)
  | @ellipsis place =>
    refine .of_primary rfl .ellipsis ?_ (by simp [isOwner])
    intro depth k hword hmarks g hg
    exact .ellipsis (Mark.at_append .ellipsis hg k)

/-- A well-formed tree is read back from its written form, up to a text that does not go on with
it. -/
theorem WellFormed.reads_written (hunit : Token.IsLayout unit) {place : TypePlace} {t : TypeExpr}
    (h : WellFormed place t) (depth : Nat) {k : Text} (hword : Token.EndsWord Token.isNameChar k)
    (hend : EndsBefore place t k) : Reads (.type place t) (t.written level unit depth ++ k) k :=
  (h.printable hunit).type depth k hword hend [] .nil

end Assembly

end Docblock
