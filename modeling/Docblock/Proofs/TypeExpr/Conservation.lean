import Docblock.Proofs.TypeExpr.Condensed
import Docblock.Proofs.TypeExpr.Gaps
import Docblock.Proofs.TypeExpr.Printing

/-!
# Reading a type loses nothing

Whatever the reader takes from a text is in the tree, in the order of the text: the text it took and
the tree, written on one line without moving any branch, are the same but for layout and the commas
before closing marks. The induction is on the derivation of the reading; a phrase that continues a
tree continues its spelling (`Phrase.Spelled`).

The theorem splits the text of every reading that succeeds into what was consumed, the gap of spaces
and tabs behind it, and the rest, and compares the first with the tree. So nothing is dropped and
nothing is taken twice, and the rest is a part of the text. Arranging is not part of it: the tree is
written in the order of the source. Layout inside literals counts, and two literals are never
joined.
-/

namespace Docblock

open TypeExpr Text

namespace TypeExpr

/-- The tree on one line, its branches in the order of the source. -/
def sourceLine (t : TypeExpr) : Text := (Piece.render .never [] (pieces 0 t)).1

/-- The tree on one line is what it is written as without breaks. -/
theorem sourceLine_eq_written (t : TypeExpr) : t.sourceLine = t.written .never [] 0 := by
  rw [sourceLine, Piece.render_never [] (soft_pieces 0 t)]
  rfl

end TypeExpr

/-! ## Tokens spell themselves -/

/-- The text `c` spells `u`, and `u` does not begin with a closing mark. -/
structure SpellsOpen (c u : Text) : Prop extends Spells c u where
  opens : Opens u

/-- A text that spells a written one goes on with another that does. -/
theorem SpellsOpen.append {a b u v : Text} (ha : SpellsOpen a u) (hb : Spells b v) :
    SpellsOpen (a ++ b) (u ++ v) :=
  ⟨ha.toSpells.append hb, ha.opens.append ha.whole_written v⟩

/-- Layout may stand in front on either side. -/
theorem SpellsOpen.layout_append {g g' c u : Text} (h : SpellsOpen c u) (hg : Token.IsLayout g)
    (hg' : Token.IsLayout g') : SpellsOpen (g ++ c) (g' ++ u) := by
  have hspells := Spells.layout hg hg'
  refine ⟨hspells.append h.toSpells, ?_⟩
  obtain ⟨x, hx, hclose⟩ := h.opens
  refine ⟨x, ?_, hclose⟩
  rw [solid_append hspells.whole_written, solid_layout hg']
  exact hx

/-- A character that opens a type. -/
theorem opens_cons {c : Char} (hquote : c ≠ '\'' ∧ c ≠ '"') (hlayout : Token.isLayout c = false)
    (hclose : closesRow c = false) (r : Text) : Opens (c :: r) := by
  have hwhole : Whole [c] := whole_of_no_quote (by simpa using hquote)
  refine ⟨(c, false), ?_, hclose⟩
  have hsolid : solid (c :: r) = solid [c] ++ solid r := solid_append hwhole r
  rw [hsolid, solid_of_no_quote (by simpa using hquote)]
  simp [hlayout]

/-- A character that is no quote and no comma. -/
def IsPlain (c : Char) : Prop := c ≠ '\'' ∧ c ≠ '"' ∧ c ≠ ','

/-- Names hold no quote and no comma. -/
theorem isPlain_of_isNameChar (c : Char) (h : Token.isNameChar c = true) : IsPlain c := by
  refine ⟨?_, ?_, ?_⟩ <;> rintro rfl <;> exact absurd h (by decide)

/-- The names of parameters hold no quote and no comma. -/
theorem isPlain_of_isParameterChar (c : Char) (h : Token.isParameterChar c = true) :
    IsPlain c := by
  refine ⟨?_, ?_, ?_⟩ <;> rintro rfl <;> exact absurd h (by decide)

/-- A word spells itself. -/
theorem Token.IsWord.spells {p : Char → Bool} {start w : Text} (h : Token.IsWord p start w)
    (hstart : ∀ c ∈ start, c ≠ '\'' ∧ c ≠ '"' ∧ c ≠ ',') (hp : ∀ c, p c = true → IsPlain c) :
    Spells w w := by
  obtain ⟨body, -, hbody, rfl⟩ := h
  refine .plain fun c hc => ?_
  rcases List.mem_append.1 hc with hc | hc
  · exact hstart c hc
  · exact hp c (hbody c hc)

/-- A name begins with no closing mark. -/
theorem Token.IsName.opens {w : Text} (h : Token.IsName w) : Opens w := by
  rcases h with ⟨body, -, -, rfl⟩ | ⟨body, -, -, rfl⟩ | ⟨body, hne, hbody, hw⟩
  · exact opens_cons (by decide) (by decide) (by decide) _
  · exact opens_cons (by decide) (by decide) (by decide) _
  · obtain rfl : w = body := hw
    cases w with
    | nil => exact absurd rfl hne
    | cons c r =>
      have hc := hbody c List.mem_cons_self
      have hplain := isPlain_of_isNameChar c hc
      refine opens_cons ⟨hplain.1, hplain.2.1⟩ ?_ ?_ r
      · cases hlayout : Token.isLayout c with
        | true => simp [Token.not_isNameChar_of_isLayout hlayout] at hc
        | false => rfl
      · cases hclose : closesRow c with
        | true =>
          have hmem : c = '}' ∨ c = '>' ∨ c = ')' := by simpa [closesRow, or_assoc] using hclose
          rcases hmem with rfl | rfl | rfl <;> exact absurd hc (by decide)
        | false => rfl

/-- A name spells itself. -/
theorem Token.IsName.spells {w : Text} (h : Token.IsName w) : SpellsOpen w w := by
  refine ⟨?_, h.opens⟩
  rcases h with h | h | h <;> exact h.spells (by decide) isPlain_of_isNameChar

/-- The name of a parameter spells itself. -/
theorem Token.IsParameterName.spells {w : Text} (h : Token.IsParameterName w) : Spells w w := by
  obtain ⟨start, hstart, hw⟩ := h
  have hplain : ∀ start ∈ Token.parameterStarts, ∀ c ∈ start, c ≠ '\'' ∧ c ≠ '"' ∧ c ≠ ',' := by
    decide
  exact hw.spells (hplain start hstart) isPlain_of_isParameterChar

/-- A mark spells itself, but for the comma, which may be dropped. -/
theorem spells_mark {m : Mark} (h : m ≠ .comma) : Spells m.text m.text := by
  refine .plain ?_
  cases m <;> first | exact absurd rfl h | simp [Mark.text]

/-- What is skipped before a token is layout. -/
theorem exists_layout_of_skip_eq {s t : Text} (h : Token.skip s = t) :
    ∃ g, Token.IsLayout g ∧ s = g ++ t := by
  obtain ⟨g, hg, hs⟩ := Token.exists_layout_append_skip s
  exact ⟨g, hg, h ▸ hs⟩

/-- A mark that is no comma spells itself, with the layout before it. -/
theorem Mark.At.spells {m : Mark} {s r : Text} (h : m.At s r) (hm : m ≠ .comma) :
    ∃ c, s = c ++ r ∧ ∀ g', Token.IsLayout g' → Spells c (g' ++ m.text) := by
  obtain ⟨g, hg, rfl⟩ := exists_layout_of_skip_eq h
  exact ⟨g ++ m.text, by simp, fun g' hg' => (Spells.layout hg hg').append (spells_mark hm)⟩

/-- The marks that can begin a type. -/
def openingMarks : List Mark := [.question, .ellipsis, .openParen]

/-- What is taken for a mark that begins a type spells it. -/
theorem Mark.At.spellsOpen {m : Mark} {s r : Text} (h : m.At s r) (hm : m ∈ openingMarks) :
    ∃ c, s = c ++ r ∧ SpellsOpen c m.text := by
  have hne : m ≠ .comma := by
    rintro rfl
    simp [openingMarks] at hm
  obtain ⟨c, hs, hc⟩ := h.spells hne
  refine ⟨c, hs, hc [] .nil, ?_⟩
  simp only [openingMarks, List.mem_cons, List.not_mem_nil, or_false] at hm
  rcases hm with rfl | rfl | rfl <;> exact opens_cons (by decide) (by decide) (by decide) _

/-- What is taken for a name spells it. -/
theorem Token.NameAt.spells {w s r : Text} (h : Token.NameAt w s r) :
    ∃ c, s = c ++ r ∧ SpellsOpen c w := by
  obtain ⟨g, hg, rfl⟩ := exists_layout_of_skip_eq h.2.1
  exact ⟨g ++ w, by simp, h.1.spells.layout_append hg .nil⟩

/-- What is taken for a literal spells it. -/
theorem Token.LiteralAt.spells {quote : Quote} {body s r : Text}
    (h : Token.LiteralAt quote body s r) :
    ∃ c, s = c ++ r ∧ SpellsOpen c (quote.char :: (body ++ [quote.char])) := by
  obtain ⟨g, hg, rfl⟩ := exists_layout_of_skip_eq h.2
  have hopens : Opens (quote.char :: (body ++ [quote.char])) := by
    refine ⟨(quote.char, true), ?_, by cases quote <;> decide⟩
    rw [solid_literal h.1]
    rfl
  refine ⟨g ++ quote.char :: (body ++ [quote.char]), by simp, ?_⟩
  exact SpellsOpen.layout_append ⟨.literal h.1, hopens⟩ hg .nil

/-! ## Rows -/

/-- The text `c` spells a row and its closing mark, or is the closing mark of an empty row. -/
structure RowSpelled (close : Char) (rows : List Text) (c : Text) : Prop where
  empty : rows = [] → ∃ g, Token.IsLayout g ∧ c = g ++ [close]
  items : rows ≠ [] → SpellsOpen c ([',', ' '].intercalate rows ++ [close])

/-- An item and the closing mark spell a row of one. -/
theorem RowSpelled.last {close : Char} {row a c : Text} (ha : SpellsOpen a row)
    (hc : Spells c [close]) : RowSpelled close [row] (a ++ c) where
  empty := by simp
  items := fun _ => by simpa using ha.append hc

/-- The comma behind an item stays before another item and goes before the closing mark. -/
theorem RowSpelled.next {close : Char} {rows : List Text} {c : Text}
    (hc : RowSpelled close rows c) (hclose : closesRow close = true) {row a g : Text}
    (ha : SpellsOpen a row) (hg : Token.IsLayout g) :
    RowSpelled close (row :: rows) (a ++ (g ++ ',' :: c)) where
  empty := by simp
  items := fun _ => by
    have hlayout := Spells.layout hg .nil
    cases rows with
    | nil =>
      obtain ⟨g', hg', rfl⟩ := hc.empty rfl
      simpa using ha.append (hlayout.append (.comma_close hg' hclose))
    | cons next rows =>
      have hrest := (hc.items (by simp)).layout_append .nil isLayout_space
      simpa using ha.append (hlayout.append (hrest.toSpells.comma_cons hrest.opens))

/-! ## Phrases -/

/-- The tree on one line. -/
abbrev TypeExpr.line (depth : Nat) (t : TypeExpr) : Text := t.written .never [] depth

/-- What the text taken for a phrase spells. -/
def Phrase.Spelled : Phrase → Text → Prop
  | .type _ t, c => ∀ depth, SpellsOpen c (t.line depth)
  | .branch _ t, c => ∀ depth, SpellsOpen c (t.line depth)
  | .primary t, c => ∀ depth, SpellsOpen c (t.line depth)
  | .named name t, c => ∀ depth a, SpellsOpen a name → SpellsOpen (a ++ c) (t.line depth)
  | .generic name t, c => ∀ depth a, SpellsOpen a name → SpellsOpen (a ++ c) (t.line depth)
  | .call _ callee t, c =>
      ∀ depth a, SpellsOpen a (callee.line depth) → SpellsOpen (a ++ c) (t.line depth)
  | .brackets item t, c =>
      ∀ depth a, SpellsOpen a (item.line depth) → SpellsOpen (a ++ c) (t.line depth)
  | .branches ts, c => ∀ depth, Spells c (ts.flatMap fun b => ' ' :: '|' :: ' ' :: b.line depth)
  | .clauses _ subject t, c =>
      ∀ depth a, SpellsOpen a (subject.line depth) → SpellsOpen (a ++ c) (t.line depth)
  | .entry e, c => ∀ depth, SpellsOpen c (writtenEntry .never [] depth e)
  | .entries es, c => ∀ depth, RowSpelled '}' (es.map (writtenEntry .never [] depth)) c
  | .arrayArguments t, c => ∀ depth a, SpellsOpen a (SequenceKind.array.word ++ ['<']) →
      SpellsOpen (a ++ c) (t.line depth)
  | .argument t, c => ∀ depth, SpellsOpen c (t.line depth)
  | .arguments ts, c => ts ≠ [] ∧ ∀ depth, RowSpelled '>' (ts.map (·.line depth)) c
  | .parameter p, c => ∀ depth, SpellsOpen c (writtenParameter .never [] depth p)
  | .parameters ps, c => ∀ depth, RowSpelled ')' (ps.map (writtenParameter .never [] depth)) c

/-- What is taken from the text for a phrase spells the phrase. -/
theorem Reads.spelled {p : Phrase} {s r : Text} (h : Reads p s r) :
    ∃ c, s = c ++ r ∧ p.Spelled c := by
  induction h with
  | @whole place first branches t s r₁ r₂ r₃ _ _ _ _ ih₁ ih₂ ih₃ =>
    obtain ⟨c₁, rfl, h₁⟩ := ih₁
    obtain ⟨c₂, rfl, h₂⟩ := ih₂
    obtain ⟨c₃, rfl, h₃⟩ := ih₃
    refine ⟨c₁ ++ c₂ ++ c₃, by simp, fun depth => h₃ depth (c₁ ++ c₂) ?_⟩
    have hunion := (h₁ depth).append (h₂ depth)
    -- a union of one branch is that branch, which has no bar
    cases branches with
    | nil => simpa [unionOf] using hunion
    | cons b bs =>
      rw [unionOf_cons, line, written_union, List.map_cons, Text.intercalate_eq_append_flatMap,
        List.flatMap_map]
      exact hunion
  | single _ ih => exact ih
  | @nullable place inner s r₁ r₂ hmark _ ih =>
    obtain ⟨c₁, rfl, h₁⟩ := hmark.spellsOpen (by decide)
    obtain ⟨c₂, rfl, h₂⟩ := ih
    exact ⟨c₁ ++ c₂, by simp, fun depth => h₁.append (h₂ depth).toSpells⟩
  | @plain place primary called t s r₁ r₂ r₃ _ _ _ ih₁ ih₂ ih₃ =>
    obtain ⟨c₁, rfl, h₁⟩ := ih₁
    obtain ⟨c₂, rfl, h₂⟩ := ih₂
    obtain ⟨c₃, rfl, h₃⟩ := ih₃
    exact ⟨c₁ ++ c₂ ++ c₃, by simp, fun depth => h₃ depth _ (h₂ depth _ (h₁ depth))⟩
  | @ellipsis s r hmark =>
    obtain ⟨c, rfl, h⟩ := hmark.spellsOpen (by decide)
    exact ⟨c, rfl, fun _ => h⟩
  | @group inner s r₁ r₂ r₃ hopen _ hclose ih =>
    obtain ⟨c₁, rfl, h₁⟩ := hopen.spellsOpen (by decide)
    obtain ⟨c₂, rfl, h₂⟩ := ih
    obtain ⟨c₃, rfl, h₃⟩ := hclose.spells (by decide)
    refine ⟨c₁ ++ (c₂ ++ c₃), by simp, fun depth => ?_⟩
    rw [line, written_group]
    exact h₁.append ((h₂ depth).toSpells.append (h₃ [] .nil))
  | @literal quote body s r hliteral =>
    obtain ⟨c, rfl, h⟩ := hliteral.spells
    refine ⟨c, rfl, fun depth => ?_⟩
    rw [line, written_literal]
    exact h
  | @name name t s r₁ r₂ hname _ ih =>
    obtain ⟨c₁, rfl, h₁⟩ := hname.spells
    obtain ⟨c₂, rfl, h₂⟩ := ih
    exact ⟨c₁ ++ c₂, by simp, fun depth => h₂ depth c₁ h₁⟩
  | @shape es s r₁ r₂ hopen _ ih =>
    obtain ⟨c₁, rfl, h₁⟩ := hopen.spells (by decide)
    obtain ⟨c₂, rfl, h₂⟩ := ih
    refine ⟨c₁ ++ c₂, by simp, fun depth a ha => ?_⟩
    have hbrace := ha.append (h₁ [] .nil)
    cases es with
    | nil =>
      obtain ⟨g, hg, rfl⟩ := (h₂ depth).empty rfl
      have hclose := (Spells.layout hg .nil).append (spells_mark (m := .closeBrace) (by decide))
      rw [line, written_shape_nil]
      simpa [Mark.text] using hbrace.append hclose
    | cons e es =>
      have hrow := (h₂ (depth + 1)).items (by simp)
      rw [line, written_shape_cons]
      simp only [Piece.gapText_never [] (ShapeEntry.blockLevel_ne_never _)]
      simpa [Mark.text] using hbrace.append hrow.toSpells
  | @array t s r₁ r₂ hopen _ ih =>
    obtain ⟨c₁, rfl, h₁⟩ := hopen.spells (by decide)
    obtain ⟨c₂, rfl, h₂⟩ := ih
    refine ⟨c₁ ++ c₂, by simp, fun depth a ha => ?_⟩
    simpa using h₂ depth (a ++ c₁) (ha.append (h₁ [] .nil))
  | @list item s r₁ r₂ r₃ hopen _ hclose ih =>
    obtain ⟨c₁, rfl, h₁⟩ := hopen.spells (by decide)
    obtain ⟨c₂, rfl, h₂⟩ := ih
    obtain ⟨c₃, rfl, h₃⟩ := hclose.spells (by decide)
    refine ⟨c₁ ++ (c₂ ++ c₃), by simp, fun depth a ha => ?_⟩
    rw [line, written_sequence]
    exact ha.append ((h₁ [] .nil).append ((h₂ depth).toSpells.append (h₃ [] .nil)))
  | noMember _ _ _ ih => exact ih
  | @member name owner member s r₁ r₂ r₃ _ _ hcolons _ ih₁ ih₂ =>
    obtain ⟨c₁, rfl, h₁⟩ := ih₁
    obtain ⟨c₂, rfl, h₂⟩ := hcolons.spells (by decide)
    obtain ⟨c₃, rfl, h₃⟩ := ih₂
    refine ⟨c₁ ++ (c₂ ++ c₃), by simp, fun depth a ha => ?_⟩
    rw [line, written_constant, ← List.append_assoc]
    exact (h₁ depth a ha).append ((h₂ [] .nil).append (h₃ depth).toSpells)
  | @withArguments name args s r₁ r₂ hopen _ ih =>
    obtain ⟨c₁, rfl, h₁⟩ := hopen.spells (by decide)
    obtain ⟨c₂, rfl, hne, h₂⟩ := ih
    refine ⟨c₁ ++ c₂, by simp, fun depth a ha => ?_⟩
    have hrow := (h₂ (depth + 1)).items (by simpa using hne)
    rw [line, written_generic, written_named]
    exact ha.append ((h₁ [] .nil).append hrow.toSpells)
  | @withoutArguments name s _ =>
    refine ⟨[], rfl, fun depth a ha => ?_⟩
    rw [line, written_named, List.append_nil]
    exact ha
  | @called place callee ps result s r₁ r₂ r₃ r₄ hopen _ hcolon _ ih₁ ih₂ =>
    obtain ⟨c₁, rfl, h₁⟩ := hopen.spells (by decide)
    obtain ⟨c₂, rfl, h₂⟩ := ih₁
    obtain ⟨c₃, rfl, h₃⟩ := hcolon.spells (by decide)
    obtain ⟨c₄, rfl, h₄⟩ := ih₂
    refine ⟨c₁ ++ (c₂ ++ (c₃ ++ c₄)), by simp, fun depth a ha => ?_⟩
    have hresult := (h₃ [] .nil).append ((h₄ depth).layout_append .nil isLayout_space).toSpells
    rw [line, written_callable]
    by_cases hps : ps = []
    · subst hps
      obtain ⟨g, hg, rfl⟩ := (h₂ depth).empty rfl
      have hclose := (Spells.layout hg .nil).append (spells_mark (m := .closeParen) (by decide))
      exact ha.append ((h₁ [] .nil).append (hclose.append hresult))
    · have hrow := (h₂ depth).items (by simpa using hps)
      simpa [Mark.text] using ha.append ((h₁ [] .nil).append (hrow.toSpells.append hresult))
  | @notCalled place callee s _ => exact ⟨[], rfl, fun depth a ha => by simpa using ha⟩
  | @bracketed item t s r₁ r₂ r₃ hopen hclose _ ih =>
    obtain ⟨c₁, rfl, h₁⟩ := hopen.spells (by decide)
    obtain ⟨c₂, rfl, h₂⟩ := hclose.spells (by decide)
    obtain ⟨c₃, rfl, h₃⟩ := ih
    refine ⟨c₁ ++ (c₂ ++ c₃), by simp, fun depth a ha => ?_⟩
    have harray : SpellsOpen (a ++ (c₁ ++ c₂)) ((TypeExpr.arrayOf item).line depth) := by
      rw [line, written_arrayOf]
      exact ha.append ((h₁ [] .nil).append (h₂ [] .nil))
    simpa using h₃ depth _ harray
  | @notBracketed item s _ => exact ⟨[], rfl, fun depth a ha => by simpa using ha⟩
  | @nextBranch branch branches s r₁ r₂ r₃ hbar _ _ ih₁ ih₂ =>
    obtain ⟨c₁, rfl, h₁⟩ := hbar.spells (by decide)
    obtain ⟨c₂, rfl, h₂⟩ := ih₁
    obtain ⟨c₃, rfl, h₃⟩ := ih₂
    refine ⟨c₁ ++ (c₂ ++ c₃), by simp, fun depth => ?_⟩
    have hbranch := ((h₂ depth).layout_append .nil isLayout_space).toSpells
    rw [List.flatMap_cons]
    simpa [Mark.text] using (h₁ [' '] isLayout_space).append (hbranch.append (h₃ depth))
  | @noBranch s _ => exact ⟨[], rfl, fun _ => .nil⟩
  | @conditional subject bound consequent alternative s r₁ r₂ r₃ r₄ r₅ r₆ his _ hquestion _ hcolon _
      ih₁ ih₂ ih₃ =>
    obtain ⟨c₀, rfl, h₀⟩ := (Token.isAt_iff_nameAt.1 his).spells
    obtain ⟨c₁, rfl, h₁⟩ := ih₁
    obtain ⟨c₂, rfl, h₂⟩ := hquestion.spells (by decide)
    obtain ⟨c₃, rfl, h₃⟩ := ih₂
    obtain ⟨c₄, rfl, h₄⟩ := hcolon.spells (by decide)
    obtain ⟨c₅, rfl, h₅⟩ := ih₃
    refine ⟨c₀ ++ (c₁ ++ (c₂ ++ (c₃ ++ (c₄ ++ c₅)))), by simp, fun depth a ha => ?_⟩
    have hafter : ∀ {c u : Text}, SpellsOpen c u → Spells c (' ' :: u) := fun h =>
      (h.layout_append .nil isLayout_space).toSpells
    rw [line, written_conditional]
    exact ha.append ((hafter h₀).append ((hafter (h₁ _)).append ((h₂ [' '] isLayout_space).append
      ((hafter (h₃ _)).append ((h₄ [' '] isLayout_space).append (hafter (h₅ _)))))))
  | @unconditional place subject s _ => exact ⟨[], rfl, fun depth a ha => by simpa using ha⟩
  | @optional key value s r₁ r₂ r₃ r₄ _ hquestion hcolon _ ih₁ ih₂ =>
    obtain ⟨c₁, rfl, h₁⟩ := ih₁
    obtain ⟨c₂, rfl, h₂⟩ := hquestion.spells (by decide)
    obtain ⟨c₃, rfl, h₃⟩ := hcolon.spells (by decide)
    obtain ⟨c₄, rfl, h₄⟩ := ih₂
    refine ⟨c₁ ++ (c₂ ++ (c₃ ++ c₄)), by simp, fun depth => ?_⟩
    have hvalue := ((h₄ depth).layout_append .nil isLayout_space).toSpells
    rw [writtenEntry_keyed]
    exact (h₁ depth).append ((h₂ [] .nil).append ((h₃ [] .nil).append hvalue))
  | @keyed key value s r₁ r₂ r₃ _ hcolon _ ih₁ ih₂ =>
    obtain ⟨c₁, rfl, h₁⟩ := ih₁
    obtain ⟨c₂, rfl, h₂⟩ := hcolon.spells (by decide)
    obtain ⟨c₃, rfl, h₃⟩ := ih₂
    refine ⟨c₁ ++ (c₂ ++ c₃), by simp, fun depth => ?_⟩
    have hvalue := ((h₃ depth).layout_append .nil isLayout_space).toSpells
    rw [writtenEntry_keyed]
    exact (h₁ depth).append ((h₂ [] .nil).append hvalue)
  | positional _ _ _ ih => exact ih
  | @noEntry s r hclose =>
    obtain ⟨g, hg, rfl⟩ := exists_layout_of_skip_eq hclose
    exact ⟨g ++ ['}'], by simp [Mark.text], fun _ => ⟨fun _ => ⟨g, hg, rfl⟩, by simp⟩⟩
  | @lastEntry e s r₁ r₂ _ hclose ih =>
    obtain ⟨c₁, rfl, h₁⟩ := ih
    obtain ⟨c₂, rfl, h₂⟩ := hclose.spells (by decide)
    exact ⟨c₁ ++ c₂, by simp, fun depth => .last (h₁ depth) (h₂ [] .nil)⟩
  | @nextEntry e es s r₁ r₂ r₃ _ hcomma _ ih₁ ih₂ =>
    obtain ⟨c₁, rfl, h₁⟩ := ih₁
    obtain ⟨g, hg, rfl⟩ := exists_layout_of_skip_eq hcomma
    obtain ⟨c₂, rfl, h₂⟩ := ih₂
    exact ⟨c₁ ++ (g ++ ',' :: c₂), by simp [Mark.text],
      fun depth => .next (h₂ depth) (by decide) (h₁ depth) hg⟩
  | @record key value s r₁ r₂ r₃ r₄ _ hcomma _ hclose ih₁ ih₂ =>
    obtain ⟨c₁, rfl, h₁⟩ := ih₁
    obtain ⟨g, hg, rfl⟩ := exists_layout_of_skip_eq hcomma
    obtain ⟨c₂, rfl, h₂⟩ := ih₂
    obtain ⟨c₃, rfl, h₃⟩ := hclose.spells (by decide)
    refine ⟨c₁ ++ (g ++ ',' :: (c₂ ++ c₃)), by simp [Mark.text], fun depth a ha => ?_⟩
    have hlast : RowSpelled '>' [value.line depth] (c₂ ++ c₃) := .last (h₂ depth) (h₃ [] .nil)
    have hrow := hlast.next (by decide) (h₁ depth) hg
    rw [line, written_record]
    simpa using ha.append (hrow.items (by simp)).toSpells
  | @sequence item s r₁ r₂ _ hclose ih =>
    obtain ⟨c₁, rfl, h₁⟩ := ih
    obtain ⟨c₂, rfl, h₂⟩ := hclose.spells (by decide)
    refine ⟨c₁ ++ c₂, by simp, fun depth a ha => ?_⟩
    rw [line, written_sequence]
    simpa [Mark.text] using ha.append ((h₁ depth).toSpells.append (h₂ [] .nil))
  | unqualified _ _ ih => exact ih
  | @qualified name target s r₁ r₂ _ _ _ ih₁ ih₂ =>
    obtain ⟨c₁, rfl, h₁⟩ := ih₁
    obtain ⟨c₂, rfl, h₂⟩ := ih₂
    refine ⟨c₁ ++ c₂, by simp, fun depth => ?_⟩
    rw [line, written_qualified]
    exact (h₁ depth).append ((h₂ depth).layout_append .nil isLayout_space).toSpells
  | @lastArgument t s r₁ r₂ _ hclose ih =>
    obtain ⟨c₁, rfl, h₁⟩ := ih
    obtain ⟨c₂, rfl, h₂⟩ := hclose.spells (by decide)
    exact ⟨c₁ ++ c₂, by simp, by simp, fun depth => .last (h₁ depth) (h₂ [] .nil)⟩
  | @lastArgumentComma t s r₁ r₂ r₃ _ hcomma hclose ih =>
    obtain ⟨c₁, rfl, h₁⟩ := ih
    obtain ⟨g, hg, rfl⟩ := exists_layout_of_skip_eq hcomma
    obtain ⟨g', hg', rfl⟩ := exists_layout_of_skip_eq hclose
    have hempty : RowSpelled '>' [] (g' ++ ['>']) := ⟨fun _ => ⟨g', hg', rfl⟩, by simp⟩
    exact ⟨c₁ ++ (g ++ ',' :: (g' ++ ['>'])), by simp [Mark.text], by simp,
      fun depth => .next hempty (by decide) (h₁ depth) hg⟩
  | @nextArgument t ts s r₁ r₂ r₃ _ hcomma _ ih₁ ih₂ =>
    obtain ⟨c₁, rfl, h₁⟩ := ih₁
    obtain ⟨g, hg, rfl⟩ := exists_layout_of_skip_eq hcomma
    obtain ⟨c₂, rfl, -, h₂⟩ := ih₂
    exact ⟨c₁ ++ (g ++ ',' :: c₂), by simp [Mark.text], by simp,
      fun depth => .next (h₂ depth) (by decide) (h₁ depth) hg⟩
  | @namedParameter type name s r₁ r₂ _ hname ih =>
    obtain ⟨c₁, rfl, h₁⟩ := ih
    obtain ⟨g, hg, rfl⟩ := exists_layout_of_skip_eq hname.2.1
    refine ⟨c₁ ++ (g ++ name), by simp, fun depth => ?_⟩
    rw [writtenParameter_named]
    refine (h₁ depth).append ((Spells.layout hg ?_).append hname.1.spells)
    split
    · exact .nil
    · exact isLayout_space
  | unnamedParameter _ _ ih => exact ih
  | @noParameter s r hclose =>
    obtain ⟨g, hg, rfl⟩ := exists_layout_of_skip_eq hclose
    exact ⟨g ++ [')'], by simp [Mark.text], fun _ => ⟨fun _ => ⟨g, hg, rfl⟩, by simp⟩⟩
  | @lastParameter p s r₁ r₂ _ hclose ih =>
    obtain ⟨c₁, rfl, h₁⟩ := ih
    obtain ⟨c₂, rfl, h₂⟩ := hclose.spells (by decide)
    exact ⟨c₁ ++ c₂, by simp, fun depth => .last (h₁ depth) (h₂ [] .nil)⟩
  | @nextParameter p ps s r₁ r₂ r₃ _ hcomma _ ih₁ ih₂ =>
    obtain ⟨c₁, rfl, h₁⟩ := ih₁
    obtain ⟨g, hg, rfl⟩ := exists_layout_of_skip_eq hcomma
    obtain ⟨c₂, rfl, h₂⟩ := ih₂
    exact ⟨c₁ ++ (g ++ ',' :: c₂), by simp [Mark.text],
      fun depth => .next (h₂ depth) (by decide) (h₁ depth) hg⟩

/-- What a successful reading takes from a text is the tree: the text is what was taken, a gap of
spaces and tabs, and the rest; and what was taken is the tree on one line in its own order, but for
layout and the commas before closing marks. -/
theorem parse_conserves {location text : Text} {parsed : Parsed}
    (h : parse location text = .ok parsed) :
    ∃ consumed gap, text = consumed ++ gap ++ parsed.rest ∧
      (∀ c ∈ gap, c = ' ' ∨ c = '\t') ∧ (∀ c ∈ parsed.rest.head?, c ≠ ' ' ∧ c ≠ '\t') ∧
      settled consumed = condensed parsed.type.sourceLine := by
  obtain ⟨r, hreads, hrest⟩ := parse_eq_ok_iff.1 h
  obtain ⟨c, rfl, hspelled⟩ := hreads.spelled
  refine ⟨c, r.takeWhile fun c => c == ' ' || c == '\t', ?_, ?_, ?_, ?_⟩
  · rw [hrest, List.append_assoc, List.takeWhile_append_dropWhile]
  · intro d hd
    simpa using List.mem_takeWhile_imp hd
  · intro d hd
    have hhead := List.head?_dropWhile_not (fun c => c == ' ' || c == '\t') r
    rw [← hrest, Option.mem_def.1 hd] at hhead
    simpa using hhead
  · have hspells := (hspelled 0).dropCommas_append []
    rw [List.append_nil, dropCommas, List.append_nil] at hspells
    rw [settled, condensed, sourceLine_eq_written, hspells]

/-- A shape with a comma at its end, layout inside and outside a literal, and `null` behind. -/
theorem parse_conserves_shape :
    let text := "array\x7b 'a, \x7d'?: F< T , >,\n\x7d | null \t kept".toList
    let t : TypeExpr := .union
      [.shape [.keyed (.literal .single "a, \x7d".toList) true
        (.generic (.named "F".toList) [.named "T".toList])], .named "null".toList]
    parse [] text = .ok ⟨t, "kept".toList⟩ ∧
      ∃ consumed gap, text = consumed ++ gap ++ "kept".toList ∧
        (∀ c ∈ gap, c = ' ' ∨ c = '\t') ∧ (∀ c ∈ "kept".toList.head?, c ≠ ' ' ∧ c ≠ '\t') ∧
        settled consumed = "array\x7b'a, \x7d'?:F<T>\x7d|null".toList := by
  intro text t
  have hparsed : parse [] text = .ok ⟨t, "kept".toList⟩ := by with_unfolding_all rfl
  have hline : condensed t.sourceLine = "array\x7b'a, \x7d'?:F<T>\x7d|null".toList := by decide
  exact ⟨hparsed, hline ▸ parse_conserves hparsed⟩

end Docblock
