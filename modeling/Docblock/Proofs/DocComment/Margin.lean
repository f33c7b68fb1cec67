import Docblock.DocComment.Render
import Docblock.Proofs.Comment.Reading

/-!
# Delimiters and margin

A comment with a line for each delimiter is its opening mark, rows with a margin, and its closing
mark (`multiLine_eq`). Read again it gives the lines it was made of, as long as these are trimmed
and the first and the last are not blank (`bodyLines_multiLine`).

The margin is put on and taken off by different rules. Putting it on writes ` * ` before a line and
trims the row; taking it off drops white space, a run of stars and one space. They undo each other
on lines that are trimmed, and on no others: a line with white space at its end loses it, and the
first and last line of a comment may be dropped if blank. The hypotheses of `bodyLines_multiLine`
are these. The lines composed for a comment begin and end with one that is not blank, and where they
are not trimmed they are compared with their trimmed forms (`Docblock.Proofs.DocComment.Rereading`).
-/

namespace Docblock.DocComment

open Text

/-- The print width has no part in the unit of indentation. -/
theorem indentUnit_withPrintWidth (o : Options) (width : UInt64) :
    (o.withPrintWidth width).indentUnit = o.indentUnit := rfl

/-- A comment is written anew from the lines composed for it, if there are any. The rest of its
shape depends on the text it had and on the indentation. -/
theorem format_eq_some_iff {o : Options} {indent text : Text} {formatted : Formatted} :
    format o indent text = some formatted ↔
      let nodes := Comment.parse text
      let lines := Comment.compose (o.withPrintWidth (bodyWidth o indent)) nodes
      lines ≠ [] ∧ formatted = ⟨render o indent text lines, typeErrors nodes⟩ := by
  dsimp only [format]
  generalize Comment.compose (o.withPrintWidth (bodyWidth o indent)) (Comment.parse text) = lines
  cases lines with
  | nil => simp
  | cons line lines =>
    simp only [ne_eq, reduceCtorEq, not_false_eq_true, true_and, Option.some.injEq]
    exact eq_comm

/-- The lines of a comment behind their margin, and the white space before the closing mark. -/
def marginRows (indent : Text) (lines : List Text) : List Text :=
  lines.map (marginLine indent) ++ [indent ++ [' ']]

/-- The comment as one row of lines between the two marks, with the closing mark on the last one. -/
theorem multiLine_eq (indent : Text) (lines : List Text) :
    multiLine indent lines =
      '/' :: '*' :: '*' :: (unpieces ([] :: marginRows indent lines) ++ ['*', '/']) := by
  have hfirst : unpieces ("/**".toList :: marginRows indent lines) =
      "/**".toList ++ unpieces ([] :: marginRows indent lines) :=
    unpieces_cons_append "/**".toList [] _
  have hend : multiLine indent lines =
      unpieces ("/**".toList :: marginRows indent lines) ++ ['*', '/'] := by
    have happend := unpieces_append_cons ("/**".toList :: lines.map (marginLine indent))
      (indent ++ [' ']) ['*', '/'] []
    rwa [List.append_assoc] at happend
  rw [hend, hfirst]
  rfl

/-- A line of a comment gives up its margin again. -/
theorem bodyLine_marginLine {indent line : Text} (hindent : ∀ c ∈ indent, isBlank c = true)
    (hline : trimEnd line = line) : Comment.bodyLine (marginLine indent line) = line := by
  have hspace : isBlank ' ' = true := by decide
  have hstar : isBlank '*' = false := by decide
  have hmargin (k : Text) :
      Comment.dropMargin (indent ++ ' ' :: '*' :: k) = k.dropWhile (· == '*') := by
    have hstart : trimStart (indent ++ ' ' :: '*' :: k) = '*' :: k := by
      rw [trimStart, List.dropWhile_append_of_pos hindent]
      simp [hspace, hstar]
    simp [Comment.dropMargin, hstart]
  cases line with
  | nil =>
    -- an empty line has no space behind its star
    have hwhole : marginLine indent [] = indent ++ ' ' :: '*' :: [] := by
      rw [marginLine]
      rfl
    simp only [Comment.bodyLine, hwhole, hmargin]
    rfl
  | cons c line =>
    have hfull : allBlank (c :: line) = false := allBlank_eq_false_of_trimEnd hline (by simp)
    have hwhole : marginLine indent (c :: line) = indent ++ ' ' :: '*' :: ' ' :: c :: line := by
      rw [marginLine, trimEnd_append hfull, hline]
      rfl
    have hdrop : dropStart? [' '] (' ' :: c :: line) = some (c :: line) :=
      dropStart?_eq_some_iff.2 rfl
    simp only [Comment.bodyLine, hwhole, hmargin]
    rw [List.dropWhile_cons_of_neg (by decide), hdrop]
    exact hline

/-- Pieces without carriage returns at their ends are the lines, if the last one is not empty. -/
theorem linesOfPieces_append {ls : List Text} {last : Text} (hlast : last ≠ [])
    (h : ∀ l ∈ ls, dropReturn l = l) : linesOfPieces (ls ++ [last]) = ls ++ [last] := by
  induction ls with
  | nil => simp [linesOfPieces, hlast]
  | cons l ls ih =>
    obtain ⟨hl, hls⟩ := List.forall_mem_cons.1 h
    cases ls with
    | nil => simp [linesOfPieces, hl, hlast]
    | cons next ls =>
      rw [List.cons_append, List.cons_append, linesOfPieces, hl]
      rw [← List.cons_append, ih hls]

/-- A trimmed line has no carriage return at its end. -/
theorem dropReturn_eq_self {t : Text} (h : trimEnd t = t) : dropReturn t = t := by
  cases hdrop : dropEnd? ['\r'] t with
  | none => simp [dropReturn, hdrop]
  | some r =>
    rw [dropEnd?_eq_some_iff] at hdrop
    rw [trimEnd_eq_self_iff, hdrop] at h
    have hreturn := h '\r' (by simp)
    exact absurd hreturn (by decide)

/-- A row of the margin has no white space at its end, also where the line is empty. -/
theorem trimEnd_marginLine (indent line : Text) :
    trimEnd (marginLine indent line) = marginLine indent line := by
  have hfull : allBlank (trimEnd (" * ".toList ++ line)) = false := by
    apply allBlank_eq_false_of_trimEnd (trimEnd_trimEnd _)
    have hstar : allBlank " * ".toList = false := by decide
    rw [ne_eq, trimEnd_eq_nil_iff, allBlank_append, hstar]
    simp
  rw [marginLine, trimEnd_append hfull, trimEnd_trimEnd]

/-- The margin adds no line feed. -/
theorem lf_not_mem_marginLine {indent line : Text} (hindent : '\n' ∉ indent)
    (hline : '\n' ∉ line) : '\n' ∉ marginLine indent line := by
  rw [marginLine, List.mem_append, not_or]
  refine ⟨hindent, fun hmem => ?_⟩
  have hmargin := (trimEnd_prefix_self _).subset hmem
  simp [hline] at hmargin

/-- A comment with a line for each delimiter is read as the lines it was made of. -/
theorem bodyLines_multiLine {indent : Text} (hindent : ∀ c ∈ indent, isBlank c = true)
    (hlf : '\n' ∉ indent) {lines : List Text}
    (hlines : ∀ l ∈ lines, trimEnd l = l ∧ '\n' ∉ l)
    (hfirst : ∀ l ∈ lines.head?, allBlank l = false)
    (hlast : ∀ l ∈ lines.getLast?, allBlank l = false) :
    Comment.bodyLines (multiLine indent lines) = lines := by
  -- the first delimiter leaves an empty row in front, the last one a row of the indentation behind
  set rows : List Text := [] :: lines.map (marginLine indent)
  have hrow : ∀ row ∈ rows, '\n' ∉ row ∧ dropReturn row = row := by
    refine List.forall_mem_cons.2 ⟨⟨by simp, rfl⟩, fun row hrow => ?_⟩
    obtain ⟨l, hl, rfl⟩ := List.mem_map.1 hrow
    exact ⟨lf_not_mem_marginLine hlf (hlines l hl).2, dropReturn_eq_self (trimEnd_marginLine _ _)⟩
  have hend : '\n' ∉ indent ++ [' '] := by simpa using hlf
  have hread : Text.lines (Comment.inner (multiLine indent lines)) = rows ++ [indent ++ [' ']] := by
    have hpieces : ∀ row ∈ rows ++ [indent ++ [' ']], '\n' ∉ row :=
      List.forall_mem_append.2 ⟨fun row h => (hrow row h).1, by simpa using hend⟩
    rw [multiLine_eq, Comment.inner_delimited, Text.lines]
    show linesOfPieces (pieces (unpieces (rows ++ [indent ++ [' ']]))) = _
    rw [pieces_unpieces (by simp) hpieces]
    exact linesOfPieces_append (by simp) fun row h => (hrow row h).2
  -- the margin of each row is taken off, and the two rows of the delimiters are blank and are
  -- dropped
  have hmap : (rows ++ [indent ++ [' ']]).map Comment.bodyLine =
      [] :: (lines ++ [Comment.bodyLine (indent ++ [' '])]) := by
    have hbody : lines.map (Comment.bodyLine ∘ marginLine indent) = lines := by
      conv_rhs => rw [← List.map_id lines]
      exact List.map_congr_left fun l hl => bodyLine_marginLine hindent (hlines l hl).1
    simp only [rows, List.cons_append, List.map_cons, List.map_append, List.map_map, hbody,
      List.map_nil]
    rfl
  have hblank : allBlank (Comment.bodyLine (indent ++ [' '])) = true := by
    rw [allBlank_iff]
    intro c hc
    rcases List.mem_append.1 ((Comment.bodyLine_infix_self _).subset hc) with hc | hc
    · exact hindent c hc
    · rw [List.mem_singleton.1 hc]
      decide
  rw [Comment.bodyLines, hread, hmap, List.dropWhile_cons_of_pos allBlank_nil,
    dropEndWhile_eq_rdropWhile]
  cases lines with
  | nil =>
    rw [List.nil_append, List.dropWhile_cons_of_pos hblank]
    rfl
  | cons l ls =>
    have hl : ¬ allBlank l = true := by simp [hfirst l rfl]
    rw [List.cons_append, List.dropWhile_cons_of_neg hl, ← List.cons_append,
      List.rdropWhile_concat_pos _ _ _ hblank, List.rdropWhile_eq_self_iff]
    intro hne
    simp [hlast _ (List.getLast?_eq_some_getLast hne)]

end Docblock.DocComment
