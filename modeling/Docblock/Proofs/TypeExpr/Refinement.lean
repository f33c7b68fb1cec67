import Mathlib.Data.List.Forall2
import Docblock.Proofs.TypeExpr.Gaps

/-!
# The wrap levels refine each other

A tighter level breaks every gap that a looser one breaks. So the lines of the tighter form can be
cut into groups, one for each line of the looser form, and the line is its group glued together
again: the indentation after a break goes, and the gap shows what stands in it on one line
(`TypeExpr.lines_refines`). The tree need not be one that the reader builds.

The order of levels is all that is used of them: whether a gap breaks is decided by one comparison,
so the gaps that break at a looser level are among those that break at a tighter one. From the cut
into groups it follows that the tighter form has at least as many lines. Widths are not compared
here; a tighter form may have a wider line, as `Docblock.Proofs.TypeExpr.Widths` shows.
-/

namespace Docblock

open Text

/-- Lines that are glued together to one line: each but the first loses some steps of indentation,
and nothing or one space stands at the seam before it. -/
inductive Glued (unit : Text) : List Text → Text → Prop
  | single (line : Text) : Glued unit [line] line
  | seam {next line : Text} {rest : List Text} (first : Text) (depth : Nat) {inline : Text}
      (hinline : inline = [] ∨ inline = [' ']) (h : Glued unit (next :: rest) line) :
      Glued unit (first :: ((List.replicate depth unit).flatten ++ next) :: rest)
        (first ++ inline ++ line)

/-- Lines that can be cut into groups, each of which is glued together to one line of another row of
lines, in order. -/
def Refines (unit : Text) (fine coarse : List Text) : Prop :=
  ∃ groups : List (List Text), groups.flatten = fine ∧ List.Forall₂ (Glued unit) groups coarse

section Gluing

variable {unit : Text}

/-- A line is glued from one line at least. -/
theorem Glued.ne_nil {group : List Text} {line : Text} (h : Glued unit group line) :
    group ≠ [] := by
  cases h with
  | single => exact List.cons_ne_nil _ _
  | seam => exact List.cons_ne_nil _ _

/-- Text in front of the first line of a group stands in front of the glued line. -/
theorem Glued.prepend {first line : Text} {rest : List Text} (h : Glued unit (first :: rest) line)
    (text : Text) : Glued unit ((text ++ first) :: rest) (text ++ line) := by
  cases h with
  | single => exact .single _
  | seam _ depth hinline h =>
    rw [List.append_assoc, ← List.append_assoc, ← List.append_assoc]
    exact .seam _ depth hinline h

namespace Refines

/-- No lines refine no lines. -/
theorem nil : Refines unit [] [] := ⟨[], rfl, .nil⟩

/-- What refines a row of lines starts with the group of the first line. -/
theorem cons_iff {first line : Text} {fine coarse : List Text} :
    Refines unit (first :: fine) (line :: coarse) ↔
      ∃ group rest, fine = group ++ rest ∧ Glued unit (first :: group) line ∧
        Refines unit rest coarse := by
  constructor
  · rintro ⟨groups, hfine, hgroups⟩
    obtain ⟨group, groups', hglued, hgroups', rfl⟩ := List.forall₂_cons_right_iff.1 hgroups
    cases group with
    | nil => exact absurd rfl hglued.ne_nil
    | cons next group =>
      rw [List.flatten_cons, List.cons_append, List.cons.injEq] at hfine
      obtain ⟨rfl, hfine⟩ := hfine
      exact ⟨group, groups'.flatten, hfine.symm, hglued, groups', rfl, hgroups'⟩
  · rintro ⟨group, rest, rfl, hglued, groups, rfl, hgroups⟩
    exact ⟨(first :: group) :: groups, rfl, .cons hglued hgroups⟩

variable {first line : Text} {fine coarse : List Text}

/-- Text in front of both first lines. -/
theorem prepend (h : Refines unit (first :: fine) (line :: coarse)) (text : Text) :
    Refines unit ((text ++ first) :: fine) ((text ++ line) :: coarse) := by
  obtain ⟨group, rest, hfine, hglued, hrest⟩ := cons_iff.1 h
  exact cons_iff.2 ⟨group, rest, hfine, hglued.prepend text, hrest⟩

/-- A line break on both sides. -/
theorem broken (h : Refines unit fine coarse) (text : Text) :
    Refines unit (text :: fine) (text :: coarse) :=
  cons_iff.2 ⟨[], fine, rfl, .single text, h⟩

/-- A line break on the finer side alone. -/
theorem seam {inline : Text} (hinline : inline = [] ∨ inline = [' ']) (depth : Nat)
    (h : Refines unit (first :: fine) (line :: coarse)) :
    Refines unit ([] :: ((List.replicate depth unit).flatten ++ first) :: fine)
      ((inline ++ line) :: coarse) := by
  obtain ⟨group, rest, rfl, hglued, hrest⟩ := cons_iff.1 h
  apply cons_iff.2
  refine ⟨((List.replicate depth unit).flatten ++ first) :: group, rest, rfl, ?_, hrest⟩
  exact .seam [] depth hinline hglued

/-- No group is empty, so the finer row has at least as many lines. -/
theorem length_le {fine coarse : List Text} (h : Refines unit fine coarse) :
    coarse.length ≤ fine.length := by
  obtain ⟨groups, rfl, hgroups⟩ := h
  induction hgroups with
  | nil => exact Nat.le_refl 0
  | @cons group line groups coarse hglued _ ih =>
    have hpos : 0 < group.length := List.length_pos_iff.2 hglued.ne_nil
    rw [List.flatten_cons, List.length_append, List.length_cons]
    omega

end Refines

end Gluing

/-- A level breaks what every looser one breaks. -/
theorem WrapLevel.breaks_of_rank_le {loose tight gap : WrapLevel} (h : loose.rank ≤ tight.rank)
    (hbreaks : loose.breaks gap = true) : tight.breaks gap = true := by
  unfold breaks at hbreaks ⊢
  exact decide_eq_true (Nat.le_trans (of_decide_eq_true hbreaks) h)

/-- The step of the argument is one gap: it breaks at both levels, at the tighter one alone, or at
neither. -/
theorem Piece.render_refines (unit : Text) {loose tight : WrapLevel} (h : loose.rank ≤ tight.rank)
    {ps : List Piece} (hps : ∀ p ∈ ps, p.Narrow) :
    Refines unit ((render tight unit ps).1 :: (render tight unit ps).2)
      ((render loose unit ps).1 :: (render loose unit ps).2) := by
  induction ps with
  | nil => exact Refines.nil.broken []
  | cons p ps ih =>
    obtain ⟨hp, hps⟩ := List.forall_mem_cons.1 hps
    have hrest := ih hps
    cases p with
    | word text => exact hrest.prepend text
    | gap threshold depth inline =>
      by_cases hloose : loose.breaks threshold = true
      · have htight := WrapLevel.breaks_of_rank_le h hloose
        rw [render_gap_of_breaks _ _ _ hloose, render_gap_of_breaks _ _ _ htight]
        exact (hrest.prepend _).broken []
      · rw [render_gap_of_not_breaks _ _ _ hloose]
        by_cases htight : tight.breaks threshold = true
        · rw [render_gap_of_breaks _ _ _ htight]
          exact hrest.seam hp.2 depth
        · rw [render_gap_of_not_breaks _ _ _ htight]
          exact hrest.prepend inline

namespace TypeExpr

/-- The lines of a type at a level are those of a looser level, cut up further: they fall into
groups, one for each line of the looser level, and a group without the indentation after its breaks,
with nothing or one space at each seam, is that line. So there are never fewer lines at a tighter
level, and there is one line at the loosest. -/
theorem lines_refines (t : TypeExpr) (o : Options) {loose tight : WrapLevel}
    (h : loose.rank ≤ tight.rank) :
    Refines o.indentUnit (t.lines o tight) (t.lines o loose) ∧
      (t.lines o loose).length ≤ (t.lines o tight).length ∧ (t.lines o .never).length = 1 := by
  have hrefines : Refines o.indentUnit (t.lines o tight) (t.lines o loose) :=
    Piece.render_refines o.indentUnit h (narrow_pieces 0 (arrange o.expandNull t))
  refine ⟨hrefines, hrefines.length_le, ?_⟩
  have hnever : t.render o .never = (Piece.flat .never o.indentUnit (t.layout o.expandNull), []) :=
    Piece.render_never o.indentUnit (soft_pieces 0 (arrange o.expandNull t))
  unfold lines
  rw [hnever]
  rfl

/-- A shape inside the arguments of a generic type: the groups have two lines, one, and three. -/
theorem lines_refines_arguments :
    let shape : TypeExpr := .shape [.keyed (.named "a".toList) false (.named "int".toList)]
    let t : TypeExpr := .generic (.named "A".toList) [shape, .named "B".toList]
    let o : Options := { useTabs := true }
    let loose := ["A<array\x7b", "\t\ta: int", "\t\x7d, B>"].map String.toList
    let tight := ["A<", "\tarray\x7b", "\t\ta: int", "\t\x7d,", "\tB", ">"].map String.toList
    WrapLevel.entries.rank ≤ WrapLevel.arguments.rank ∧ t.lines o .entries = loose ∧
      t.lines o .arguments = tight ∧ Refines o.indentUnit tight loose := by
  intro shape t o loose tight
  have hrank : WrapLevel.entries.rank ≤ WrapLevel.arguments.rank := by decide
  have hloose : t.lines o .entries = loose := by decide
  have htight : t.lines o .arguments = tight := by decide
  refine ⟨hrank, hloose, htight, ?_⟩
  rw [← hloose, ← htight]
  exact (t.lines_refines o hrank).1

end TypeExpr

end Docblock
