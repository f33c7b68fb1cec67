import Docblock.Proofs.Text.Columns
import Docblock.Proofs.TypeExpr.Children
import Docblock.Proofs.TypeExpr.Refinement

/-!
# Widths at the wrap levels

A tighter wrap level cuts the lines of a type into shorter ones, but it also indents them. A line
that begins at a gap is wider than it was as the rest of a line if its indentation takes more
columns than what stood before it. What stood before it takes two columns at least for each step by
which the gap is deeper than the line (`standsAt_pieces`): `A<` in front of the arguments of a
generic type, `array` and a brace in front of the entries of a shape, a subject and a space in front
of a clause.

So the widest line grows by at most what a unit of indentation takes beyond two columns, once for
each step of indentation (`widest_lines_le`), and it does not grow at all with a unit of two
columns. With any wider unit it grows for some type (`exists_widest_lt`).

The bound is on the columns that `Options.columns` counts, for lines whose measured width does not
wrap around. It says nothing of whether a level is chosen, and it is about two levels of one layout:
the tree is arranged first, with `null` expanded or not, and this is the same at both levels.

What stands before a gap is counted from the front of its line (`Piece.credit`). The line may have
begun at any earlier gap, so of what stands before such a gap nothing is counted: behind it, only
its indentation is sure to stand.
-/

namespace Docblock

/-! ## The widest of several lines -/

namespace Options

variable (o : Options)

/-- The largest measured width of several lines. -/
def widest (lines : List Text) : Nat := (lines.map fun l => (o.displayWidth l).toNat).foldr max 0

variable {o}

/-- A bound for the widest line is one for all lines. -/
theorem widest_le_iff {lines : List Text} {n : Nat} :
    o.widest lines ≤ n ↔ ∀ l ∈ lines, (o.displayWidth l).toNat ≤ n := by
  unfold widest
  induction lines with
  | nil => simp
  | cons l lines ih =>
    rw [List.map_cons, List.foldr_cons, List.forall_mem_cons, ← ih]
    exact Nat.max_le

/-- Lines that take at most `n` columns measure at most `n`, also where widths wrap around. -/
theorem widest_le {lines : List Text} {n : Nat} (h : ∀ l ∈ lines, o.columns l ≤ n) :
    o.widest lines ≤ n := by
  refine widest_le_iff.2 fun l hl => ?_
  rw [toNat_displayWidth]
  exact (Nat.mod_le _ _).trans (h l hl)

/-- A line whose width does not wrap around is not wider than the widest. -/
theorem le_widest {lines : List Text} {l : Text} (hl : l ∈ lines)
    (hfits : o.columns l < UInt64.size) : o.columns l ≤ o.widest lines := by
  rw [← toNat_displayWidth_of_lt hfits]
  exact widest_le_iff.1 (Nat.le_refl _) l hl

/-- Indentation takes the columns of a unit for each step. -/
theorem columns_indentation (unit : Text) (depth : Nat) :
    o.columns (List.replicate depth unit).flatten = o.columns unit * depth := by
  induction depth with
  | zero => rfl
  | succ depth ih =>
    rw [List.replicate_succ, List.flatten_cons, columns_append, ih, Nat.mul_succ, Nat.add_comm]

end Options

/-! ## What stands before a gap -/

namespace Piece

/-- The steps of indentation in front of the deepest line that begins at a gap. -/
def deepest (level : WrapLevel) : List Piece → Nat
  | [] => 0
  | .word _ :: ps => deepest level ps
  | .gap threshold depth _ :: ps =>
    if level.breaks threshold then max depth (deepest level ps) else deepest level ps

variable (o : Options) (step : Nat)

/-- What stands before the end of the pieces in every line, if `n` columns stand before the pieces
and lines are indented by `step` columns for each step. Nothing if at some gap the indentation takes
more columns than what may stand before it. -/
def credit : Nat → List Piece → Option Nat
  | n, [] => some n
  | n, .word text :: ps => credit (n + o.columns text) ps
  | n, .gap _ depth inline :: ps =>
    if step * depth ≤ n + o.columns inline then credit (step * depth) ps else none

/-- With `before` columns in front, every gap of the pieces has enough before it, and `after`
columns stand before what follows them. -/
def Covers (before : Nat) (ps : List Piece) (after : Nat) : Prop :=
  ∀ n, before ≤ n → ∃ m, credit o step n ps = some m ∧ after ≤ m

variable {o step}

/-- What stands before the second of two parts is what the first leaves. -/
theorem credit_append (n : Nat) (ps qs : List Piece) :
    credit o step n (ps ++ qs) = (credit o step n ps).bind fun m => credit o step m qs := by
  induction ps generalizing n with
  | nil => rfl
  | cons p ps ih =>
    cases p with
    | word text => exact ih _
    | gap threshold depth inline =>
      rw [List.cons_append, credit, credit]
      split
      · exact ih _
      · rfl

/-- Two parts cover if the second does with what the first leaves. -/
theorem Covers.append {a b c : Nat} {ps qs : List Piece} (hps : Covers o step a ps b)
    (hqs : Covers o step b qs c) : Covers o step a (ps ++ qs) c := by
  intro n hn
  obtain ⟨m, hm, hb⟩ := hps n hn
  obtain ⟨k, hk, hc⟩ := hqs m hb
  exact ⟨k, by rw [credit_append, hm, Option.bind_some, hk], hc⟩

/-- More may stand before, and less be kept behind. -/
theorem Covers.weaken {a a' b b' : Nat} {ps : List Piece} (h : Covers o step a ps b)
    (hbefore : a ≤ a') (hafter : b' ≤ b) : Covers o step a' ps b' := by
  intro n hn
  obtain ⟨m, hm, hb⟩ := h n (Nat.le_trans hbefore hn)
  exact ⟨m, hm, Nat.le_trans hafter hb⟩

/-- Nothing adds nothing. -/
theorem covers_nil (n : Nat) : Covers o step n [] n := fun m hm => ⟨m, rfl, hm⟩

/-- A word adds its columns. -/
theorem covers_word {n k : Nat} {text : Text} (h : k ≤ n + o.columns text) :
    Covers o step n [.word text] k :=
  fun m hm => ⟨m + o.columns text, rfl, by omega⟩

/-- A word takes nothing away. -/
theorem covers_text (n : Nat) (text : Text) : Covers o step n [.word text] n :=
  covers_word (Nat.le_add_right _ _)

/-- A gap covers if its indentation takes no more than what stands before it. Behind it, only the
indentation is sure to stand. -/
theorem covers_gap {n depth : Nat} {threshold : WrapLevel} {inline : Text}
    (h : step * depth ≤ n + o.columns inline) :
    Covers o step n [.gap threshold depth inline] (step * depth) := by
  intro m hm
  have hcovered : step * depth ≤ m + o.columns inline := by omega
  exact ⟨step * depth, by rw [credit, if_pos hcovered, credit], Nat.le_refl _⟩

/-- Rows that each cover, with a separator that covers between them. -/
theorem covers_join {n k : Nat} {separator : List Piece} (hseparator : Covers o step k separator n)
    {rows : List (List Piece)} (hne : rows ≠ []) (h : ∀ row ∈ rows, Covers o step n row k) :
    Covers o step n (join separator rows) k := by
  induction rows with
  | nil => exact absurd rfl hne
  | cons row rows ih =>
    obtain ⟨hrow, hrows⟩ := List.forall_mem_cons.1 h
    cases rows with
    | nil => simpa [join] using hrow
    | cons next rows =>
      have hrest := ih (List.cons_ne_nil _ _) hrows
      rw [join, List.intercalate_cons_cons]
      exact (hrow.append hseparator).append hrest

/-- The same without rows, where nothing is added. -/
theorem covers_rows {n : Nat} {separator : List Piece}
    (hseparator : Covers o step (n + 1) separator n) {rows : List (List Piece)}
    (h : ∀ row ∈ rows, Covers o step n row (n + 1)) : Covers o step n (join separator rows) n := by
  cases rows with
  | nil => exact covers_nil n
  | cons row rows =>
    exact (covers_join hseparator (List.cons_ne_nil _ _) h).weaken (Nat.le_refl _) (Nat.le_succ _)

/-- A block whose entries begin a step deeper, behind what takes that step. -/
theorem covers_block {threshold : WrapLevel} {depth : Nat} {rows : List (List Piece)}
    (h : ∀ row ∈ rows, Covers o step (step * (depth + 1)) row (step * (depth + 1) + 1)) :
    Covers o step (step * (depth + 1)) (block threshold depth rows) (step * depth) := by
  have hfirst : Covers o step (step * (depth + 1)) [.gap threshold (depth + 1) []]
      (step * (depth + 1)) := covers_gap (Nat.le_add_right _ _)
  have hseparator : Covers o step (step * (depth + 1) + 1)
      ([.word [',']] ++ [.gap threshold (depth + 1) [' ']]) (step * (depth + 1)) :=
    (covers_word (Nat.le_add_right _ _)).append (covers_gap (by omega))
  have hlast : Covers o step (step * (depth + 1)) [.gap threshold depth []] (step * depth) :=
    covers_gap (by rw [Nat.mul_succ]; omega)
  exact (hfirst.append (covers_rows hseparator h)).append hlast

/-! ## Pieces of a tree -/

variable (o step)

/-- Pieces of a tree at a depth: behind the indentation of that depth every gap has enough before
it, and the pieces add a column at least. -/
def StandsAt (depth : Nat) (ps : List Piece) : Prop :=
  Covers o step (step * depth) ps (step * depth + 1)

variable {o step} {depth : Nat} {ps qs : List Piece}

/-- A word of one column at least. -/
theorem standsAt_word {text : Text} (h : 1 ≤ o.columns text) : StandsAt o step depth [.word text] :=
  covers_word (Nat.add_le_add_left h _)

/-- A word in front. -/
theorem StandsAt.behind (h : StandsAt o step depth ps) (text : Text) :
    StandsAt o step depth ([.word text] ++ ps) :=
  (covers_text _ text).append h

/-- A word behind. -/
theorem StandsAt.before (h : StandsAt o step depth ps) (text : Text) :
    StandsAt o step depth (ps ++ [.word text]) :=
  Covers.append h (covers_text _ text)

/-- Two parts with a word between them. -/
theorem StandsAt.around (hps : StandsAt o step depth ps) (text : Text)
    (hqs : StandsAt o step depth qs) : StandsAt o step depth (ps ++ [.word text] ++ qs) :=
  (hps.before text).append (Covers.weaken hqs (Nat.le_succ _) (Nat.le_refl _))

/-- Rows with a word between them. There is one at least, since the whole takes a column. -/
theorem standsAt_join {rows : List (List Piece)} (hne : rows ≠ []) (separator : Text)
    (h : ∀ row ∈ rows, StandsAt o step depth row) :
    StandsAt o step depth (join [.word separator] rows) :=
  covers_join ((covers_text _ separator).weaken (Nat.le_succ _) (Nat.le_refl _)) hne h

/-- A block behind what takes two columns for its first step, before what takes a column. -/
theorem standsAt_block (hstep : step ≤ 2) {n : Nat} {threshold : WrapLevel} {opening close : Text}
    {rows : List (List Piece)}
    (hps : Covers o step (step * depth) ps n) (hopening : step * depth + 2 ≤ n + o.columns opening)
    (hclose : 1 ≤ o.columns close) (h : ∀ row ∈ rows, StandsAt o step (depth + 1) row) :
    StandsAt o step depth
      (ps ++ [.word opening] ++ block threshold depth rows ++ [.word close]) := by
  have hdeeper : step * (depth + 1) ≤ n + o.columns opening := by
    rw [Nat.mul_succ]
    omega
  exact ((hps.append (covers_word hdeeper)).append (covers_block h)).append (standsAt_word hclose)

/-- Parameters stand behind what is called, and what is returned behind them. -/
theorem standsAt_call {rows : List (List Piece)} (hps : StandsAt o step depth ps)
    (hrows : ∀ row ∈ rows, StandsAt o step depth row) (hqs : StandsAt o step depth qs)
    (opening separator close : Text) :
    StandsAt o step depth
      (ps ++ [.word opening] ++ join [.word separator] rows ++ [.word close] ++ qs) := by
  have hopening : Covers o step (step * depth) (ps ++ [.word opening]) (step * depth) :=
    Covers.weaken (hps.before opening) (Nat.le_refl _) (Nat.le_succ _)
  have hparameters : Covers o step (step * depth) (join [.word separator] rows) (step * depth) :=
    covers_rows ((covers_text _ separator).weaken (Nat.le_succ _) (Nat.le_refl _)) hrows
  exact ((hopening.append hparameters).append (covers_text _ close)).append hqs

/-- A clause begins a step deeper, behind a space and what takes a column at least. -/
theorem Covers.clause (hstep : step ≤ 2) {before n : Nat} (hps : Covers o step before ps n)
    (hn : step * depth + 1 ≤ n) (threshold : WrapLevel) (text : Text)
    (hqs : StandsAt o step (depth + 1) qs) :
    Covers o step before (ps ++ [.gap threshold (depth + 1) [' '], .word text] ++ qs)
      (step * (depth + 1) + 1) := by
  have hspace : o.columns [' '] = 1 := Options.columns_eq_length (by decide)
  have hgap : Covers o step n [.gap threshold (depth + 1) [' ']] (step * (depth + 1)) :=
    covers_gap (by rw [Nat.mul_succ]; omega)
  exact (hps.append (hgap.append (covers_text _ text))).append hqs

/-! ## Two levels at once -/

/-- Lines that begin at a gap of the tighter level alone take the place of what stood there in a
line of the looser one. -/
theorem columns_render_le {loose tight : WrapLevel} (h : loose.rank ≤ tight.rank) {unit : Text}
    (hstep : step ≤ o.columns unit) {bound growth : Nat} {ps : List Piece} {n x y : Nat}
    (hcredit : (credit o step n ps).isSome = true) (hx : n ≤ x) (hy : y ≤ x + growth)
    (hgrowth : (o.columns unit - step) * deepest tight ps ≤ growth)
    (hfirst : x + o.columns (render loose unit ps).1 ≤ bound)
    (hrest : ∀ l ∈ (render loose unit ps).2, o.columns l ≤ bound) :
    y + o.columns (render tight unit ps).1 ≤ bound + growth ∧
      ∀ l ∈ (render tight unit ps).2, o.columns l ≤ bound + growth := by
  induction ps generalizing n x y with
  | nil => exact ⟨by simp [render] at hfirst ⊢; omega, List.forall_mem_nil _⟩
  | cons p ps ih =>
    cases p with
    | word text =>
      simp only [render, Options.columns_append] at hfirst hrest ⊢
      have hcolumns := ih (n := n + o.columns text) (x := x + o.columns text)
        (y := y + o.columns text) hcredit (by omega) (by omega) hgrowth (by omega) hrest
      exact ⟨by omega, hcolumns.2⟩
    | gap threshold depth inline =>
      rw [credit] at hcredit
      split at hcredit
      case isFalse => cases hcredit
      case isTrue hcovered =>
      -- a line that begins here is indented by `step` columns for each step, and by the growth
      have hindent : o.columns unit * depth =
          step * depth + (o.columns unit - step) * depth := by
        rw [← Nat.add_mul, Nat.add_sub_cancel' hstep]
      by_cases htight : tight.breaks threshold = true
      · rw [deepest, if_pos htight] at hgrowth
        have hdepth : (o.columns unit - step) * depth ≤ growth :=
          Nat.le_trans (Nat.mul_le_mul_left _ (Nat.le_max_left _ _)) hgrowth
        have hdeeper : (o.columns unit - step) * deepest tight ps ≤ growth :=
          Nat.le_trans (Nat.mul_le_mul_left _ (Nat.le_max_right _ _)) hgrowth
        rw [render_gap_of_breaks _ _ _ htight, List.forall_mem_cons, Options.columns_nil,
          Options.columns_append, Options.columns_indentation]
        by_cases hloose : loose.breaks threshold = true
        · rw [render_gap_of_breaks _ _ _ hloose] at hfirst hrest
          rw [List.forall_mem_cons, Options.columns_append, Options.columns_indentation] at hrest
          have hcolumns := ih hcredit (x := o.columns unit * depth) (y := o.columns unit * depth)
            (by omega) (by omega) hdeeper hrest.1 hrest.2
          rw [Options.columns_nil] at hfirst
          exact ⟨by omega, hcolumns⟩
        · rw [render_gap_of_not_breaks _ _ _ hloose, Options.columns_append] at hfirst
          rw [render_gap_of_not_breaks _ _ _ hloose] at hrest
          have hcolumns := ih hcredit (x := x + o.columns inline) (y := o.columns unit * depth)
            (by omega) (by omega) hdeeper (by omega) hrest
          exact ⟨by omega, hcolumns⟩
      · have hloose : ¬loose.breaks threshold = true :=
          fun hloose => htight (WrapLevel.breaks_of_rank_le h hloose)
        rw [deepest, if_neg htight] at hgrowth
        rw [render_gap_of_not_breaks _ _ _ hloose, Options.columns_append] at hfirst
        rw [render_gap_of_not_breaks _ _ _ hloose] at hrest
        rw [render_gap_of_not_breaks _ _ _ htight, Options.columns_append]
        have hcolumns := ih hcredit (x := x + o.columns inline) (y := y + o.columns inline)
          (by omega) (by omega) hgrowth (by omega) hrest
        exact ⟨by omega, hcolumns.2⟩

end Piece

/-! ## Trees that are written with at least one column -/

namespace TypeExpr

/-- A name takes columns, and a union has branches. -/
def Solid : TypeExpr → Prop
  | .named name => name ≠ [] ∧ '\t' ∉ name
  | .union branches => branches ≠ []
  | _ => True

/-- A tree that can be read is written with a column at least. -/
theorem Sound.solid {t : TypeExpr} (h : t.Sound) : t.Solid := by
  obtain ⟨place, h⟩ | ⟨name, target, rfl, -, -⟩ := h.cases
  · cases h with
    | named hname =>
      exact ⟨List.ne_nil_of_length_pos hname.length_pos, hname.not_mem (by decide) (by decide)⟩
    | union _ hlength =>
      rintro rfl
      simp at hlength
    | _ => trivial
  · trivial

/-- Of several branches one stays at least, also where `null` is kept only once. -/
theorem nullsFirst_ne_nil (once : Bool) {ts : List TypeExpr} (hne : ts ≠ []) :
    nullsFirst once ts ≠ [] := by
  cases once with
  | false => rwa [← List.length_pos_iff, length_nullsFirst, List.length_pos_iff]
  | true =>
    intro hnil
    rw [nullsFirst_once, List.append_eq_nil_iff, Option.toList_eq_nil_iff] at hnil
    obtain ⟨hnone, hfilter⟩ := hnil
    obtain ⟨t, us, rfl⟩ := List.exists_cons_of_ne_nil hne
    have hnull := List.find?_eq_none.1 hnone t List.mem_cons_self
    simp [hnull] at hfilter

/-- A branch is spread to one branch at least. -/
theorem spread_ne_nil (t : TypeExpr) : t.spread ≠ [] := by
  cases t <;> exact List.cons_ne_nil _ _

/-- An arranged tree is solid if the tree is. -/
theorem Everywhere.solid_arrange {t : TypeExpr} (h : Everywhere Solid t) (expand : Bool) :
    Everywhere Solid (arrange expand t) := by
  induction t using within_induction with
  | h t ih =>
    obtain ⟨hnode, hchildren⟩ := everywhere_iff.1 h
    have hdeep {c u : TypeExpr} (hc : c ∈ t.children) (hu : Within u c) :
        Everywhere Solid (arrange expand u) := ih c hc u hu ((hchildren c hc).within hu)
    have hnull : Everywhere Solid null :=
      everywhere_iff.2 ⟨⟨by decide, by decide⟩, List.forall_mem_nil _⟩
    have hunion {once : Bool} {ts : List TypeExpr} (hne : ts ≠ [])
        (hts : ∀ u ∈ ts, Everywhere Solid u) : Everywhere Solid (.union (nullsFirst once ts)) :=
      everywhere_union_iff.2
        ⟨nullsFirst_ne_nil once hne, fun u hu => hts u (mem_of_mem_nullsFirst hu)⟩
    cases t with
    | nullable inner =>
      have hinner := hdeep (c := inner) List.mem_cons_self (.self _)
      cases expand with
      | false => exact everywhere_iff.2 ⟨trivial, List.forall_mem_singleton.2 hinner⟩
      | true =>
        exact hunion (List.cons_ne_nil _ _)
          (List.forall_mem_cons.2 ⟨hnull, List.forall_mem_singleton.2 hinner⟩)
    | union ts =>
      cases expand with
      | false =>
        rw [arrange_union]
        have hne : ts.map (arrange false) ≠ [] := fun hnil => hnode (List.map_eq_nil_iff.1 hnil)
        refine hunion hne (List.forall_mem_map.2 fun b hb => ?_)
        exact hdeep (List.mem_append_left _ hb) (.self b)
      | true =>
        obtain ⟨b, bs, rfl⟩ := List.exists_cons_of_ne_nil hnode
        have hspread : (b :: bs).flatMap spread ≠ [] :=
          List.append_ne_nil_of_left_ne_nil (spread_ne_nil b) _
        rw [arrange_union_spread]
        refine everywhere_union_iff.2 ⟨fun hnil => ?_, List.forall_mem_map.2 fun u hu => ?_⟩
        · exact nullsFirst_ne_nil true hspread (List.map_eq_nil_iff.1 hnil)
        · obtain ⟨c, hc, hu⟩ := List.mem_flatMap.1 (mem_of_mem_nullsFirst hu)
          obtain rfl | hwithin := eq_null_or_within_of_mem_spread hu
          · exact hnull
          · exact hdeep (List.mem_append_left _ hc) hwithin
    | _ =>
      rw [arrange_eq_mapChildren (by simp [kind]), everywhere_mapChildren_iff]
      refine ⟨?_, fun c hc => hdeep hc (.self c)⟩
      first | exact trivial | exact hnode

open Piece (StandsAt standsAt_word standsAt_join standsAt_block standsAt_call)

/-- Before a gap of a type stand two columns for each step by which it is deeper than the type, and
the type takes a column at least. -/
theorem Everywhere.standsAt_pieces {o : Options} {step : Nat} (hstep : step ≤ 2) {t : TypeExpr}
    (h : Everywhere Solid t) (depth : Nat) : StandsAt o step depth (pieces depth t) := by
  induction t using within_induction generalizing depth with
  | h t ih =>
    obtain ⟨hnode, hchildren⟩ := everywhere_iff.1 h
    have hchild {c : TypeExpr} (hc : c ∈ t.children) (depth : Nat) :
        StandsAt o step depth (pieces depth c) := ih c hc c (.self c) (hchildren c hc) depth
    have hplain {text : Text} (hne : text ≠ []) (htab : '\t' ∉ text) : 1 ≤ o.columns text :=
      Options.columns_eq_length htab ▸ List.length_pos_iff.2 hne
    cases t with
    | nullable inner => exact (hchild List.mem_cons_self depth).behind _
    | named name => exact standsAt_word (hplain hnode.1 hnode.2)
    | generic base args =>
      have hrows : ∀ row ∈ args.map (pieces (depth + 1)), StandsAt o step (depth + 1) row :=
        List.forall_mem_map.2 fun a ha => hchild (List.mem_cons_of_mem _ ha) (depth + 1)
      have hopening : 1 ≤ o.columns ['<'] := hplain (by decide) (by decide)
      rw [pieces, piecesAll_eq_map]
      exact standsAt_block hstep (hchild List.mem_cons_self depth) (by omega)
        (hplain (by decide) (by decide)) hrows
    | constant owner member =>
      exact (hchild List.mem_cons_self depth).around _
        (hchild (List.mem_cons_of_mem _ List.mem_cons_self) depth)
    | shape entries =>
      cases entries with
      | nil => exact standsAt_word (hplain (by decide) (by decide))
      | cons e es =>
        have hrows : ∀ row ∈ (e :: es).map (piecesEntry (depth + 1)),
            StandsAt o step (depth + 1) row := by
          refine List.forall_mem_map.2 fun e he => ?_
          have htypes (c : TypeExpr) (hc : c ∈ e.types) :=
            hchild (mem_children_shape e he c hc) (depth + 1)
          cases e with
          | positional value => exact htypes value List.mem_cons_self
          | keyed key isOptional value =>
            exact (htypes key List.mem_cons_self).around _
              (htypes value (List.mem_cons_of_mem _ List.mem_cons_self))
        have hopening : o.columns ("array".toList ++ ['\x7b']) = 6 :=
          Options.columns_eq_length (by decide)
        rw [List.map_cons, ← piecesEntries_eq_map] at hrows
        rw [pieces]
        exact standsAt_block hstep (Piece.covers_nil _) (by omega)
          (hplain (by decide) (by decide)) hrows
    | record key value =>
      have hkey := hchild (c := key) List.mem_cons_self depth
      have hvalue := hchild (c := value) (List.mem_cons_of_mem _ List.mem_cons_self) depth
      exact ((hkey.behind _).around _ hvalue).before _
    | sequence kind item => exact ((hchild List.mem_cons_self depth).behind _).before _
    | arrayOf item => exact (hchild List.mem_cons_self depth).before _
    | union ts =>
      have hrows : ∀ row ∈ ts.map (pieces depth), StandsAt o step depth row :=
        List.forall_mem_map.2 fun b hb => hchild (List.mem_append_left _ hb) depth
      have hne : ts.map (pieces depth) ≠ [] := fun hnil => hnode (List.map_eq_nil_iff.1 hnil)
      rw [pieces, piecesAll_eq_map]
      exact standsAt_join hne _ hrows
    | callable callee ps result =>
      obtain ⟨hcallee, hps, hresult⟩ := mem_children_callable callee ps result
      have hrows : ∀ row ∈ ps.map (piecesParameter depth), StandsAt o step depth row := by
        refine List.forall_mem_map.2 fun p hp => ?_
        cases p with
        | unnamed type => exact hchild (hps _ hp) depth
        | named type name => exact (hchild (hps _ hp) depth).before _
      rw [pieces, piecesParameters_eq_map]
      exact standsAt_call (hchild hcallee depth) hrows (hchild hresult depth) _ _ _
    -- the body may be anything, so it is the closing quote that takes the column
    | literal quote body =>
      refine standsAt_word ?_
      have hquote : 1 ≤ o.columns [quote.char] :=
        hplain (List.cons_ne_nil _ _) (by cases quote <;> decide)
      rw [Options.columns_append]
      exact Nat.le_add_left_of_le hquote
    | group inner => exact ((hchild List.mem_cons_self depth).behind _).before _
    | conditional subject bound consequent alternative =>
      have hsubject := hchild (c := subject) List.mem_cons_self depth
      have hbound := hchild (c := bound) (by simp [children, operands]) (depth + 1)
      have hconsequent := hchild (c := consequent) (by simp [children, operands]) (depth + 1)
      have halternative := hchild (c := alternative) (by simp [children, operands]) (depth + 1)
      have hnext : step * depth + 1 ≤ step * (depth + 1) + 1 :=
        Nat.succ_le_succ (Nat.mul_le_mul_left _ (Nat.le_succ depth))
      have hwritten := ((hsubject.clause hstep (Nat.le_refl _) .clauses "is ".toList hbound).clause
        hstep hnext .clauses "? ".toList hconsequent).clause hstep hnext .clauses ": ".toList
        halternative
      exact hwritten.weaken (Nat.le_refl _) hnext
    | ellipsis => exact standsAt_word (hplain (by decide) (by decide))
    | qualified modifier target =>
      exact (hchild List.mem_cons_self depth).around _
        (hchild (List.mem_cons_of_mem _ List.mem_cons_self) depth)

end TypeExpr

/-! ## The widest line of a type -/

open TypeExpr

/-- At a tighter wrap level the widest line of a type grows by at most what a unit of indentation
takes beyond two columns, for each step of the deepest line. With a unit of two columns it does not
grow. -/
theorem widest_lines_le {location text : Text} {parsed : Parsed}
    (hparsed : parse location text = .ok parsed) {o : Options} {loose tight : WrapLevel}
    (h : loose.rank ≤ tight.rank)
    (hfits : ∀ l ∈ parsed.type.lines o loose, o.columns l < UInt64.size) :
    o.widest (parsed.type.lines o tight) ≤ o.widest (parsed.type.lines o loose) +
      (o.columns o.indentUnit - 2) * Piece.deepest tight (parsed.type.layout o.expandNull) := by
  obtain ⟨r, hreads, -⟩ := parse_eq_ok_iff.1 hparsed
  have hsound : parsed.type.Sound := (hreads.shaped.1 : WellFormed .top parsed.type).sound
  have hsolid : Everywhere Solid parsed.type := fun u hu => (hsound.within hu).solid
  set step := min 2 (o.columns o.indentUnit)
  set layout := parsed.type.layout o.expandNull
  obtain ⟨m, hcredit, -⟩ : ∃ m, Piece.credit o step 0 layout = some m ∧ _ :=
    (hsolid.solid_arrange o.expandNull).standsAt_pieces (Nat.min_le_left _ _) 0 0 (Nat.le_refl _)
  obtain ⟨hfirst, hrest⟩ := List.forall_mem_cons.1 fun l hl => Options.le_widest hl (hfits l hl)
  have hbeyond : o.columns o.indentUnit - step = o.columns o.indentUnit - 2 := by omega
  have hcolumns := Piece.columns_render_le h (Nat.min_le_right _ _) (x := 0) (y := 0)
    (Option.isSome_iff_exists.2 ⟨m, hcredit⟩) (Nat.le_refl _) (Nat.zero_le _)
    (by rw [hbeyond]) (by rwa [Nat.zero_add]) hrest
  rw [Nat.zero_add] at hcolumns
  exact Options.widest_le (List.forall_mem_cons.2 hcolumns)

/-- With four columns for each step, the widest line of a generic type in a generic type moves two
steps in and grows by less than four. -/
theorem widest_lines_nested_generics :
    let t : TypeExpr :=
      .generic (.named ['A']) [.generic (.named ['B']) [.named "value".toList]]
    parse [] "A<B<value>>".toList = .ok ⟨t, []⟩ ∧
      WrapLevel.entries.rank ≤ WrapLevel.arguments.rank ∧
      (∀ l ∈ t.lines {} .entries, Options.columns {} l < UInt64.size) ∧
      Options.widest {} (t.lines {} .arguments) ≤ Options.widest {} (t.lines {} .entries) +
        (Options.columns {} (Options.indentUnit {}) - 2) *
          Piece.deepest .arguments (t.layout false) ∧
      Options.widest {} (t.lines {} .entries) = 11 ∧
      Options.widest {} (t.lines {} .arguments) = 13 ∧
      Piece.deepest .arguments (t.layout false) = 2 := by
  intro t
  have hparsed : parse [] "A<B<value>>".toList = .ok ⟨t, []⟩ := by with_unfolding_all rfl
  have hrank : WrapLevel.entries.rank ≤ WrapLevel.arguments.rank := by decide
  have hfits : ∀ l ∈ t.lines {} .entries, Options.columns {} l < UInt64.size := by decide
  exact ⟨hparsed, hrank, hfits, widest_lines_le hparsed hrank hfits, by decide, by decide,
    by decide⟩

/-- With four columns for each step, a generic type with a short argument grows if it is broken. -/
theorem widest_lines_lt_generic :
    let t : TypeExpr := .generic (.named ['A']) [.named ['b']]
    parse [] "A<b>".toList = .ok ⟨t, []⟩ ∧
      t.lines {} .entries = ["A<b>".toList] ∧
      t.lines {} .arguments = ["A<".toList, "    b".toList, ">".toList] ∧
      ¬Options.widest {} (t.lines {} .arguments) ≤ Options.widest {} (t.lines {} .entries) := by
  intro t
  exact ⟨by with_unfolding_all rfl, by decide, by decide, by decide⟩

/-! ## A type that grows -/

/-- A generic type with an argument that is broken behind a name: `A<name::array{k: v}>`. -/
def namedShape (name : Text) : TypeExpr :=
  .generic (.named ['A'])
    [.constant (.named name) (.shape [.keyed (.named ['k']) false (.named ['v'])])]

/-- The type can be read, for any name. -/
theorem wellFormed_namedShape {name : Text} (hname : Token.IsName name) :
    WellFormed .top (namedShape name) := by
  have hletter (c : Char) (hc : Token.isNameChar c = true) : Token.IsName [c] :=
    .inr (.inr ⟨[c], List.cons_ne_nil _ _, List.forall_mem_singleton.2 hc, rfl⟩)
  have hshape : WellFormed .branch (.shape [.keyed (.named ['k']) false (.named ['v'])]) := by
    refine .shape (List.forall_mem_singleton.2 (.named (hletter 'v' rfl))) ?_
    refine List.forall_mem_singleton.2 fun key hkey => ?_
    obtain rfl := Option.mem_some.1 hkey
    exact .named (hletter 'k' rfl)
  refine .generic (hletter 'A' rfl) (by decide) (by decide) (List.cons_ne_nil _ _) ?_ ?_
  · exact List.forall_mem_singleton.2 (.constant rfl (.named hname) hshape)
  · exact List.forall_mem_singleton.2 trivial

section

variable (o : Options) (name : Text)

/-- The type in pieces. Nothing in it is expanded. -/
theorem layout_namedShape (expand : Bool) :
    (namedShape name).layout expand = [.word ['A'], .word ['<'], .gap .arguments 1 [],
      .word name, .word [':', ':'], .word ("array".toList ++ ['\x7b']), .gap .entries 2 [],
      .word ['k'], .word ": ".toList, .word ['v'], .gap .entries 1 [], .word ['\x7d'],
      .gap .arguments 0 [], .word ['>']] := rfl

/-- At the looser level the type has three lines, the first of them with the name. -/
theorem lines_namedShape_entries :
    (namedShape name).lines o .entries = [['A', '<'] ++ (name ++ "::array\x7b".toList),
      (o.indentUnit ++ o.indentUnit) ++ "k: v".toList, o.indentUnit ++ "\x7d>".toList] := by
  simp [lines, TypeExpr.render, layout_namedShape, Piece.render, WrapLevel.breaks, WrapLevel.rank]

/-- At the tighter level the name stands behind a unit of indentation. -/
theorem mem_lines_namedShape_arguments :
    o.indentUnit ++ (name ++ "::array\x7b".toList) ∈ (namedShape name).lines o .arguments := by
  simp [lines, TypeExpr.render, layout_namedShape, Piece.render, WrapLevel.breaks, WrapLevel.rank]

end

/-- With any unit of more than two columns the widest line of some type grows: what moves behind the
unit stood behind `A<`, and the line ends there at both levels. -/
theorem exists_widest_lt {o : Options} (hwide : 2 < o.columns o.indentUnit)
    (hfits : 2 * o.columns o.indentUnit + 8 < UInt64.size) :
    ∃ text t, parse [] text = .ok ⟨t, []⟩ ∧
      o.widest (t.lines o .entries) < o.widest (t.lines o .arguments) := by
  -- the name is as wide as the unit, so that no line of the shape is the widest
  obtain ⟨name, hname, hcolumns⟩ :
      ∃ name, Token.IsName name ∧ o.columns name = o.columns o.indentUnit := by
    refine ⟨List.replicate (o.columns o.indentUnit) 'N', .inr (.inr ⟨_, ?_, ?_, rfl⟩), ?_⟩
    · exact List.ne_nil_of_length_pos (by rw [List.length_replicate]; omega)
    · exact fun c hc => List.eq_of_mem_replicate hc ▸ rfl
    · rw [Options.columns_eq_length (by simp), List.length_replicate]
  have hgeneric : o.columns ['A', '<'] = 2 := Options.columns_eq_length (by decide)
  have hshape : o.columns "::array\x7b".toList = 8 := Options.columns_eq_length (by decide)
  have hentry : o.columns "k: v".toList = 4 := Options.columns_eq_length (by decide)
  have hend : o.columns "\x7d>".toList = 2 := Options.columns_eq_length (by decide)
  have hmoved : o.columns (o.indentUnit ++ (name ++ "::array\x7b".toList)) =
      2 * o.columns o.indentUnit + 8 := by
    rw [Options.columns_append, Options.columns_append, hcolumns, hshape]
    omega
  have htight : 2 * o.columns o.indentUnit + 8 ≤ o.widest ((namedShape name).lines o .arguments) :=
    hmoved ▸ Options.le_widest (mem_lines_namedShape_arguments o name) (hmoved ▸ hfits)
  have hloose : o.widest ((namedShape name).lines o .entries) ≤ 2 * o.columns o.indentUnit + 7 := by
    refine Options.widest_le fun l hl => ?_
    rw [lines_namedShape_entries] at hl
    simp only [List.mem_cons, List.not_mem_nil, or_false] at hl
    obtain rfl | rfl | rfl := hl
    all_goals simp only [Options.columns_append, hcolumns, hgeneric, hshape, hentry, hend]
    all_goals omega
  have hparse : parse [] ((namedShape name).written .never [] 0) = .ok ⟨namedShape name, []⟩ :=
    (wellFormed_namedShape hname).parse_written (List.forall_mem_nil _) [] 0
  exact ⟨_, _, hparse, Nat.lt_of_lt_of_le (Nat.lt_succ_of_le hloose) htight⟩

end Docblock
