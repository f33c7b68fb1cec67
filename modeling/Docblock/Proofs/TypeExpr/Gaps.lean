import Docblock.Proofs.Text.Words
import Docblock.Proofs.TypeExpr.Leaves
import Docblock.Proofs.TypeExpr.Written

/-!
# The gaps of a written type

Every gap of a written type holds at most one space on one line, and no gap is broken there
(`TypeExpr.narrow_pieces`). So the wrap levels differ in white space, and the form on one line does
not depend on the unit of indentation. Behind each gap there is more than white space
(`TypeExpr.anchored_pieces`), so the last of several lines is not blank.

Nothing here depends on the tree being one that was read, so the facts can be used for trees in the
middle of being expanded as well. What anchors a gap is a mark that the printer puts behind it, so
nothing need be known of names and literals (these are the subject of
`Docblock.Proofs.TypeExpr.Leaves`).
-/

namespace Docblock

open Text

/-- A gap that is not broken on one line, where white space alone stands in it. -/
def Piece.Soft : Piece → Prop
  | .word _ => True
  | .gap level _ inline => level ≠ .never ∧ allBlank inline = true

/-- A gap that is not broken on one line, where at most one space stands in it. -/
def Piece.Narrow : Piece → Prop
  | .word _ => True
  | .gap level _ inline => level ≠ .never ∧ (inline = [] ∨ inline = [' '])

namespace Piece

@[simp] theorem soft_word (text : Text) : (word text).Soft := trivial

@[simp] theorem soft_gap {level : WrapLevel} {depth : Nat} {inline : Text} :
    (gap level depth inline).Soft ↔ level ≠ .never ∧ allBlank inline = true := Iff.rfl

@[simp] theorem narrow_word (text : Text) : (word text).Narrow := trivial

@[simp] theorem narrow_gap {level : WrapLevel} {depth : Nat} {inline : Text} :
    (gap level depth inline).Narrow ↔ level ≠ .never ∧ (inline = [] ∨ inline = [' ']) := Iff.rfl

/-- One space or none is white space. -/
theorem Narrow.soft {p : Piece} (h : p.Narrow) : p.Soft := by
  cases p with
  | word text => trivial
  | gap level depth inline =>
    obtain ⟨hlevel, rfl | rfl⟩ := h
    · exact ⟨hlevel, rfl⟩
    · exact ⟨hlevel, rfl⟩

/-- The gaps of a block hold at most one space, if those of its rows do. -/
theorem narrow_block {level : WrapLevel} (hlevel : level ≠ .never) (depth : Nat)
    {rows : List (List Piece)} (h : ∀ row ∈ rows, ∀ p ∈ row, p.Narrow) :
    ∀ p ∈ block level depth rows, p.Narrow := by
  have hgap (n : Nat) : (gap level n []).Narrow := ⟨hlevel, .inl rfl⟩
  have hseparator : ∀ p ∈ [word [','], gap level (depth + 1) [' ']], p.Narrow := by
    simp [hlevel]
  rw [block, List.cons_append, List.forall_mem_cons, List.forall_mem_append,
    List.forall_mem_singleton]
  exact ⟨hgap _, forall_mem_join hseparator h, hgap _⟩

/-- On one line no gap is broken, unless it asks for a break at every level. -/
theorem breaks_never {threshold : WrapLevel} (h : threshold ≠ .never) :
    WrapLevel.never.breaks threshold = false := by
  cases threshold with
  | never => exact absurd rfl h
  | _ => rfl

/-- On one line a gap shows the text that stands in it. -/
theorem gapText_never (unit : Text) {threshold : WrapLevel} (h : threshold ≠ .never)
    (depth : Nat) (inline : Text) : gapText .never unit threshold depth inline = inline := by
  rw [gapText, breaks_never h]
  rfl

section Breaks

variable {level threshold : WrapLevel} (unit : Text) (depth : Nat) (inline : Text)

/-- A gap that is broken ends the line, and what follows it begins one with its indentation. -/
theorem render_gap_of_breaks (h : level.breaks threshold = true) (ps : List Piece) :
    render level unit (.gap threshold depth inline :: ps) =
      ([], ((List.replicate depth unit).flatten ++ (render level unit ps).1) ::
        (render level unit ps).2) :=
  if_pos h

/-- A gap that is not broken goes on with the line. -/
theorem render_gap_of_not_breaks (h : ¬level.breaks threshold = true) (ps : List Piece) :
    render level unit (.gap threshold depth inline :: ps) =
      (inline ++ (render level unit ps).1, (render level unit ps).2) :=
  if_neg h

end Breaks

/-- Without a break the pieces make one line. -/
theorem render_never (unit : Text) {ps : List Piece} (h : ∀ p ∈ ps, p.Soft) :
    render .never unit ps = (flat .never unit ps, []) := by
  induction ps with
  | nil => rfl
  | cons p ps ih =>
    obtain ⟨hp, hps⟩ := List.forall_mem_cons.1 h
    cases p with
    | word text => rw [render, ih hps, flat_word]
    | gap threshold depth inline =>
      rw [render, ih hps, flat_gap, gapText_never unit hp.1, breaks_never hp.1]
      rfl

/-- On one line the unit of indentation has no part. -/
theorem flat_never {ps : List Piece} (h : ∀ p ∈ ps, p.Soft) (unit unit' : Text) :
    flat .never unit ps = flat .never unit' ps := by
  induction ps with
  | nil => rfl
  | cons p ps ih =>
    obtain ⟨hp, hps⟩ := List.forall_mem_cons.1 h
    cases p with
    | word text => rw [flat_word, flat_word, ih hps]
    | gap threshold depth inline =>
      rw [flat_gap, flat_gap, gapText_never unit hp.1, gapText_never unit' hp.1, ih hps]

end Piece

/-- No shape is broken at every level. -/
theorem ShapeEntry.blockLevel_ne_never (es : List ShapeEntry) : blockLevel es ≠ .never := by
  rw [blockLevel]
  split <;> decide

namespace TypeExpr

mutual

/-- The gaps of a type hold at most one space. The proof has a case for each kind of type, as
`TypeExpr.pieces` has. -/
theorem narrow_pieces (depth : Nat) : ∀ t, ∀ p ∈ pieces depth t, p.Narrow
  | .nullable inner => List.forall_mem_cons.2 ⟨trivial, narrow_pieces depth inner⟩
  | .named _ | .literal _ _ | .ellipsis | .shape [] => by simp [pieces]
  | .generic base arguments => by
    have hlevel : WrapLevel.arguments ≠ .never := by decide
    have hblock := Piece.narrow_block hlevel depth (narrow_piecesAll (depth + 1) arguments)
    simp only [pieces, List.forall_mem_append, List.forall_mem_singleton, Piece.narrow_word]
    exact ⟨⟨⟨narrow_pieces depth base, trivial⟩, hblock⟩, trivial⟩
  | .constant owner member => by
    simp only [pieces, List.forall_mem_append, List.forall_mem_singleton, Piece.narrow_word]
    exact ⟨⟨narrow_pieces depth owner, trivial⟩, narrow_pieces depth member⟩
  | .shape (entry :: entries) => by
    have hblock := Piece.narrow_block (ShapeEntry.blockLevel_ne_never (entry :: entries)) depth
      (List.forall_mem_cons.2
        ⟨narrow_piecesEntry (depth + 1) entry, narrow_piecesEntries (depth + 1) entries⟩)
    simp only [pieces, List.forall_mem_append, List.forall_mem_singleton, Piece.narrow_word]
    exact ⟨⟨trivial, hblock⟩, trivial⟩
  | .record key value => by
    simp only [pieces, List.forall_mem_append, List.forall_mem_singleton, Piece.narrow_word]
    exact ⟨⟨⟨⟨trivial, narrow_pieces depth key⟩, trivial⟩, narrow_pieces depth value⟩, trivial⟩
  | .sequence _ item | .group item => by
    simp only [pieces, List.forall_mem_append, List.forall_mem_singleton, Piece.narrow_word]
    exact ⟨⟨trivial, narrow_pieces depth item⟩, trivial⟩
  | .arrayOf item => by
    simp only [pieces, List.forall_mem_append, List.forall_mem_singleton, Piece.narrow_word]
    exact ⟨narrow_pieces depth item, trivial⟩
  | .union branches =>
    Piece.forall_mem_join (List.forall_mem_singleton.2 trivial) (narrow_piecesAll depth branches)
  | .callable callee parameters result => by
    have hcomma : ∀ p ∈ [Piece.word ", ".toList], p.Narrow := List.forall_mem_singleton.2 trivial
    have hrow := Piece.forall_mem_join hcomma (narrow_piecesParameters depth parameters)
    simp only [pieces, List.forall_mem_append, List.forall_mem_singleton, Piece.narrow_word]
    exact ⟨⟨⟨⟨narrow_pieces depth callee, trivial⟩, hrow⟩, trivial⟩, narrow_pieces depth result⟩
  | .conditional subject bound consequent alternative => by
    simp only [pieces, List.forall_mem_append, List.forall_mem_cons, List.not_mem_nil,
      false_implies, implies_true, Piece.narrow_word, Piece.narrow_gap, or_true, ne_eq,
      reduceCtorEq, not_false_eq_true, and_true]
    exact ⟨⟨⟨narrow_pieces depth subject, narrow_pieces (depth + 1) bound⟩,
      narrow_pieces (depth + 1) consequent⟩, narrow_pieces (depth + 1) alternative⟩
  | .qualified modifier target => by
    simp only [pieces, List.forall_mem_append, List.forall_mem_singleton, Piece.narrow_word]
    exact ⟨⟨narrow_pieces depth modifier, trivial⟩, narrow_pieces depth target⟩

/-- The gaps of several types hold at most one space. -/
theorem narrow_piecesAll (depth : Nat) :
    ∀ ts, ∀ row ∈ piecesAll depth ts, ∀ p ∈ row, p.Narrow
  | [] => by simp [piecesAll]
  | t :: ts => List.forall_mem_cons.2 ⟨narrow_pieces depth t, narrow_piecesAll depth ts⟩

/-- The gaps of an entry hold at most one space. -/
theorem narrow_piecesEntry (depth : Nat) : ∀ e, ∀ p ∈ piecesEntry depth e, p.Narrow
  | .positional value => narrow_pieces depth value
  | .keyed key _ value => by
    simp only [piecesEntry, List.forall_mem_append, List.forall_mem_singleton, Piece.narrow_word]
    exact ⟨⟨narrow_pieces depth key, trivial⟩, narrow_pieces depth value⟩

/-- The gaps of several entries hold at most one space. -/
theorem narrow_piecesEntries (depth : Nat) :
    ∀ es, ∀ row ∈ piecesEntries depth es, ∀ p ∈ row, p.Narrow
  | [] => by simp [piecesEntries]
  | e :: es =>
    List.forall_mem_cons.2 ⟨narrow_piecesEntry depth e, narrow_piecesEntries depth es⟩

/-- The gaps of several parameters hold at most one space. -/
theorem narrow_piecesParameters (depth : Nat) :
    ∀ ps, ∀ row ∈ piecesParameters depth ps, ∀ p ∈ row, p.Narrow
  | [] => by simp [piecesParameters]
  | .unnamed type :: ps =>
    List.forall_mem_cons.2 ⟨narrow_pieces depth type, narrow_piecesParameters depth ps⟩
  | .named type _ :: ps =>
    List.forall_mem_cons.2 ⟨List.forall_mem_append.2 ⟨narrow_pieces depth type,
      List.forall_mem_singleton.2 trivial⟩, narrow_piecesParameters depth ps⟩

end

/-- The gaps of a type hold white space. -/
theorem soft_pieces (depth : Nat) (t : TypeExpr) : ∀ p ∈ pieces depth t, p.Soft :=
  fun p hp => (narrow_pieces depth t p hp).soft

end TypeExpr

/-! ## What follows a gap -/

namespace Piece

/-- Behind each gap there is a word on which something stands. -/
def Anchored : List Piece → Prop
  | [] => True
  | .word _ :: ps => Anchored ps
  | .gap .. :: ps => (∃ text, .word text ∈ ps ∧ allBlank text = false) ∧ Anchored ps

/-- A row without gaps is anchored. -/
theorem anchored_word (text : Text) : Anchored [.word text] := trivial

/-- Rows that are anchored are so one behind the other. -/
theorem Anchored.append {ps qs : List Piece} (hps : Anchored ps) (hqs : Anchored qs) :
    Anchored (ps ++ qs) := by
  induction ps with
  | nil => exact hqs
  | cons p ps ih =>
    cases p with
    | word => exact ih hps
    | gap =>
      obtain ⟨⟨text, hmem, htext⟩, hps⟩ := hps
      exact ⟨⟨text, List.mem_append_left _ hmem, htext⟩, ih hps⟩

/-- A word at the end on which something stands is behind every gap. -/
theorem anchored_concat (ps : List Piece) {text : Text} (h : allBlank text = false) :
    Anchored (ps ++ [.word text]) := by
  induction ps with
  | nil => trivial
  | cons p ps ih =>
    cases p with
    | word => exact ih
    | gap => exact ⟨⟨text, List.mem_append_right _ (List.mem_singleton_self _), h⟩, ih⟩

/-- Rows that are anchored are so with anchored separators between. -/
theorem anchored_join {separator : List Piece} (hseparator : Anchored separator)
    {rows : List (List Piece)} (hrows : ∀ row ∈ rows, Anchored row) :
    Anchored (join separator rows) := by
  unfold join
  induction rows with
  | nil => trivial
  | cons row rows ih =>
    obtain ⟨hrow, hrows⟩ := List.forall_mem_cons.1 hrows
    cases rows with
    | nil =>
      rw [List.intercalate_singleton]
      exact hrow
    | cons next rows =>
      rw [List.intercalate_cons_cons]
      exact (hrow.append hseparator).append (ih hrows)

/-- The one line of pieces that do not break shows all their words. -/
theorem allBlank_render_fst {level : WrapLevel} {unit : Text} {ps : List Piece} {text : Text}
    (hmem : .word text ∈ ps) (htext : allBlank text = false)
    (hrest : (render level unit ps).2 = []) : allBlank (render level unit ps).1 = false := by
  induction ps with
  | nil => cases hmem
  | cons p ps ih =>
    cases p with
    | word front =>
      show allBlank (front ++ (render level unit ps).1) = false
      rw [allBlank_append, Bool.and_eq_false_iff]
      rcases List.mem_cons.1 hmem with heq | hmem
      · injection heq with heq
        exact .inl (heq ▸ htext)
      · exact .inr (ih hmem hrest)
    | gap threshold depth inline =>
      have hmem : .word text ∈ ps := by simpa using hmem
      by_cases hbreaks : level.breaks threshold = true
      · rw [render_gap_of_breaks _ _ _ hbreaks] at hrest
        cases hrest
      · rw [render_gap_of_not_breaks _ _ _ hbreaks] at hrest ⊢
        rw [allBlank_append, ih hmem hrest, Bool.and_false]

/-- The last line of pieces that break is not blank. -/
theorem getLast?_render {level : WrapLevel} {unit : Text} {ps : List Piece} (h : Anchored ps) :
    ∀ l ∈ (render level unit ps).2.getLast?, allBlank l = false := by
  induction ps with
  | nil => exact fun l hl => nomatch hl
  | cons p ps ih =>
    cases p with
    | word text => exact ih h
    | gap threshold depth inline =>
      obtain ⟨⟨text, hmem, htext⟩, hps⟩ := h
      by_cases hbreaks : level.breaks threshold = true
      · rw [render_gap_of_breaks _ _ _ hbreaks]
        intro l hl
        rcases mem_getLast?_cons hl with hl | ⟨hnil, rfl⟩
        · exact ih hps l hl
        · rw [allBlank_append, allBlank_render_fst hmem htext hnil, Bool.and_false]
      · rw [render_gap_of_not_breaks _ _ _ hbreaks]
        exact ih hps

end Piece

namespace TypeExpr

mutual

/-- Behind every gap of a type a word stands that is not white space. -/
theorem anchored_pieces (depth : Nat) : ∀ t, Piece.Anchored (pieces depth t)
  | .nullable inner => anchored_pieces depth inner
  | .named _ | .literal _ _ | .ellipsis | .shape [] => trivial
  | .generic _ _ | .shape (_ :: _) | .record _ _ | .sequence _ _ | .arrayOf _ | .group _ =>
    Piece.anchored_concat _ rfl
  | .constant _ member => (Piece.anchored_concat _ rfl).append (anchored_pieces depth member)
  | .union branches =>
    Piece.anchored_join (Piece.anchored_word _) (anchored_piecesAll depth branches)
  | .callable _ _ result => (Piece.anchored_concat _ rfl).append (anchored_pieces depth result)
  | .conditional subject bound consequent alternative => by
    have hmark : Piece.Anchored (pieces depth subject ++
        [.gap .clauses (depth + 1) [' '], .word "is ".toList] ++ pieces (depth + 1) bound ++
        [.gap .clauses (depth + 1) [' '], .word "? ".toList] ++ pieces (depth + 1) consequent ++
        [.gap .clauses (depth + 1) [' ']] ++ [.word ": ".toList]) := Piece.anchored_concat _ rfl
    rw [List.append_assoc _ [Piece.gap _ _ _]] at hmark
    exact hmark.append (anchored_pieces (depth + 1) alternative)
  | .qualified modifier target =>
    ((anchored_pieces depth modifier).append (Piece.anchored_word _)).append
      (anchored_pieces depth target)

/-- Behind every gap of several types a word stands that is not white space. -/
theorem anchored_piecesAll (depth : Nat) :
    ∀ ts, ∀ row ∈ piecesAll depth ts, Piece.Anchored row
  | [] => List.forall_mem_nil _
  | t :: ts => List.forall_mem_cons.2 ⟨anchored_pieces depth t, anchored_piecesAll depth ts⟩

end

end TypeExpr

end Docblock
