import Docblock.DocComment.Basic
import Docblock.Proofs.Source.Relexing
import Docblock.Proofs.Text.Cuts

/-!
# Where a doc comment stands in its file

A doc comment stands in its file between what is before it and what is after it, and begins with its
opening mark (`exists_eq_append_of_mem`). Its row and what stands before it in its line are told
from the text before it alone; they are right for the lines of the file: the line of that number
begins with that prefix, and goes on with the comment (`exists_line_eq`).

A row is a number of line feeds, and lines are cut with line feeds and carriage returns. So it has
to be shown that the two count alike: the piece in which a place stands has the number of line feeds
before it (`exists_pieces_getElem?_eq`), and the line of that number is this piece up to an end that
is dropped (`exists_linesOfPieces_getElem?_eq`). The caret of a warning relies on it
(`Docblock.Proofs.Diagnostic.Caret`), and the width that a comment has on its line
(`Docblock.Proofs.DocComment.OneLine`).

Nothing is said here of the columns within the line. The prefix is a text, and how wide a text is
depends on who measures it.
-/

namespace Docblock

namespace Text

/-- What stands in the last line of a text is on that line. -/
theorem lf_not_mem_lastPiece (t : Text) : '\n' ∉ lastPiece t := by
  rw [lastPiece, List.mem_reverse]
  exact fun hmem => absurd (List.mem_takeWhile_imp hmem) (by decide)

/-- A text is its last piece behind lines that are ended. -/
theorem exists_eq_append_lastPiece (t : Text) :
    ∃ above, t = above ++ lastPiece t ∧ ∀ c ∈ above.getLast?, c = '\n' := by
  refine ⟨(t.reverse.dropWhile (· != '\n')).reverse, ?_, fun c hc => ?_⟩
  · rw [lastPiece, ← List.reverse_append, List.takeWhile_append_dropWhile, List.reverse_reverse]
  · rw [List.getLast?_reverse] at hc
    have hhead := List.head?_dropWhile_not (· != '\n') t.reverse
    rw [Option.mem_def.1 hc] at hhead
    simpa using hhead

/-- There is one piece more than line feeds. -/
theorem length_pieces (t : Text) : (pieces t).length = t.count '\n' + 1 := by
  induction t with
  | nil => rfl
  | cons c t ih =>
    rw [pieces] at ih
    rw [pieces, List.splitOn_cons_eq_if_modifyHead, List.count_cons]
    split
    · rw [List.length_cons, ih]
    · rw [List.length_modifyHead, ih, Nat.add_zero]

/-- The piece in which a place of a text stands is counted by the line feeds before it. -/
theorem exists_pieces_getElem?_eq (before rest : Text) :
    ∃ first others, pieces rest = first :: others ∧
      (pieces (before ++ rest))[before.count '\n']? = some (lastPiece before ++ first) := by
  obtain ⟨above, hbefore, hlast⟩ := exists_eq_append_lastPiece before
  obtain ⟨first, others, hrest, hline⟩ :=
    pieces_append_of_lf_not_mem (lf_not_mem_lastPiece before) rest
  have hcount : before.count '\n' = above.count '\n' := by
    conv_lhs => rw [hbefore, List.count_append,
      List.count_eq_zero_of_not_mem (lf_not_mem_lastPiece before), Nat.add_zero]
  refine ⟨first, others, hrest, ?_⟩
  rw [hcount]
  conv_lhs => rw [hbefore, List.append_assoc]
  rcases List.eq_nil_or_concat above with rfl | ⟨lines, c, rfl⟩
  · rw [List.nil_append, hline]
    rfl
  · obtain rfl : c = '\n' := hlast c (by simp)
    rw [List.concat_eq_append, List.append_assoc, List.singleton_append, pieces,
      List.splitOn_append_cons_self, ← pieces, ← pieces, hline, List.count_append,
      List.getElem?_append_right (by rw [length_pieces]; simp), length_pieces]
    simp

/-- A carriage return is dropped at the very end only, so what stands before another character
stays. -/
theorem exists_dropReturn_eq {front r : Text} {c : Char} (hc : c ≠ '\r') :
    ∃ r', dropReturn (front ++ c :: r) = front ++ c :: r' := by
  rw [dropReturn]
  cases hdrop : dropEnd? ['\r'] (front ++ c :: r) with
  | none => exact ⟨r, rfl⟩
  | some t =>
    rw [dropEnd?_eq_some_iff] at hdrop
    rcases List.eq_nil_or_concat' r with rfl | ⟨r', last, rfl⟩
    · exact absurd (List.append_inj_right' hdrop rfl) (by simpa using hc)
    · rw [← List.cons_append, ← List.append_assoc] at hdrop
      exact ⟨r', (List.append_inj_left' hdrop rfl).symm⟩

/-- A line of a file keeps what stands in its piece up to a character that is no line end. -/
theorem exists_linesOfPieces_getElem?_eq {ps : List Text} {i : Nat} {front r : Text} {c : Char}
    (h : ps[i]? = some (front ++ c :: r)) (hc : c ≠ '\r') :
    ∃ r', (linesOfPieces ps)[i]? = some (front ++ c :: r') := by
  fun_induction linesOfPieces ps generalizing i with
  | case1 => simp at h
  | case2 last hempty =>
    -- a last piece with something in it is a line
    cases i with
    | zero =>
      obtain rfl := Option.some.inj h
      simp at hempty
    | succ i => simp at h
  | case3 last hfull => exact ⟨r, h⟩
  | case4 piece next rest ih =>
    cases i with
    | zero =>
      obtain rfl := Option.some.inj h
      obtain ⟨r', hr'⟩ := exists_dropReturn_eq hc
      exact ⟨r', congrArg some hr'⟩
    | succ i => exact ih h

end Text

open Text

namespace Source

/-- The doc comments among segments are the doc segments, each behind the text before it. -/
theorem exists_eq_append_of_mem_docCommentsAfter {before : Text} {rest : List Segment}
    {c : DocComment} (h : c ∈ docCommentsAfter before rest) :
    .doc c.text ∈ rest ∧
      ∃ after, before ++ rest.flatMap Segment.text = c.before ++ (c.text ++ after) := by
  induction rest generalizing before with
  | nil => exact absurd h List.not_mem_nil
  | cons segment rest ih =>
    cases segment with
    | code text =>
      obtain ⟨hmem, hafter⟩ := ih h
      rw [List.flatMap_cons, ← List.append_assoc]
      exact ⟨List.mem_cons_of_mem _ hmem, hafter⟩
    | doc text =>
      rcases List.mem_cons.1 h with rfl | h
      · exact ⟨List.mem_cons_self, _, by rw [List.flatMap_cons]; rfl⟩
      · obtain ⟨hmem, hafter⟩ := ih h
        rw [List.flatMap_cons, ← List.append_assoc]
        exact ⟨List.mem_cons_of_mem _ hmem, hafter⟩

/-- A doc comment stands in its file behind what is before it, and begins with a slash. -/
theorem exists_eq_append_of_mem {source : Text} {c : DocComment} (h : c ∈ docComments source) :
    ∃ after r, source = c.before ++ (c.text ++ after) ∧ c.text = '/' :: r := by
  obtain ⟨hdoc, after, hsource⟩ := exists_eq_append_of_mem_docCommentsAfter h
  obtain ⟨r, htext⟩ := exists_eq_of_doc_mem hdoc
  rw [List.nil_append, flatMap_text_segments] at hsource
  exact ⟨after, _, hsource, htext⟩

/-- The first doc comment of a file with code before it. -/
theorem mem_docComments_of_segments {source : Text} {c : DocComment} {rest : List Segment}
    (h : segments source = .code c.before :: .doc c.text :: rest) : c ∈ docComments source := by
  rw [docComments, h]
  exact List.mem_cons_self

end Source

namespace DocComment

/-- A doc comment stands in its file behind its line prefix, which begins a line. -/
theorem exists_eq_append_linePrefix {source : Text} {c : DocComment}
    (h : c ∈ Source.docComments source) :
    ∃ above after, source = above ++ (c.linePrefix ++ (c.text ++ after)) ∧
      (∀ d ∈ above.getLast?, d = '\n') ∧ '\n' ∉ c.linePrefix := by
  obtain ⟨after, -, hsource, -⟩ := Source.exists_eq_append_of_mem h
  obtain ⟨above, hbefore, hlast⟩ := exists_eq_append_lastPiece c.before
  refine ⟨above, after, ?_, hlast, lf_not_mem_lastPiece c.before⟩
  rw [hsource, linePrefix, ← List.append_assoc above, ← hbefore]

/-- The line of a file that is counted by a doc comment's row is the one it begins in: the comment
stands there behind its line prefix. -/
theorem exists_line_eq {source : Text} {c : DocComment} (h : c ∈ Source.docComments source) :
    ∃ rest, (Text.lines source)[c.row]? = some (c.linePrefix ++ '/' :: rest) := by
  obtain ⟨after, r, hsource, htext⟩ := Source.exists_eq_append_of_mem h
  obtain ⟨first, others, hfirst, hpiece⟩ := exists_pieces_getElem?_eq c.before (c.text ++ after)
  obtain ⟨first', rfl⟩ : ∃ first', first = '/' :: first' := by
    obtain ⟨first', rest', hrest⟩ := exists_pieces_eq_cons (r ++ after)
    have hslash : pieces ('/' :: (r ++ after)) = ('/' :: first') :: rest' := by
      rw [pieces] at hrest
      rw [pieces, List.splitOn_cons_eq_if_modifyHead, hrest]
      rfl
    rw [htext, List.cons_append, hslash] at hfirst
    exact ⟨first', (List.cons.inj hfirst).1.symm⟩
  rw [← hsource] at hpiece
  exact exists_linesOfPieces_getElem?_eq hpiece (by decide)

end DocComment

end Docblock
