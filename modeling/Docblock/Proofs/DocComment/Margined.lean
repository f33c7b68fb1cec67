import Docblock.Proofs.DocComment.Rereading

/-!
# The margin of a doc comment that was written

Every row of a doc comment on several lines, but the first, begins with the indentation and ` *`.
The margin is put before the lines that are composed for the comment, one margin for one line, and
before the closing mark. So the rows that lack it are those that a line is broken into by line feeds
of its own (`format_margined_iff`), and only the literals of types bring such line feeds along.

A literal with a line feed has to be kept as it is, so its second row cannot be given a margin
without changing the type; the row stands as it was written, as `format_unmargined_literal` shows.
Where no literal of the comment holds a line feed, every row has its margin: that is the second half
of the law.

The indentation is any blank text without a line feed. The first row is left out, for it stands
behind whatever the file has before the comment.
-/

namespace Docblock

namespace Text

/-- Lines put one under the other are cut at the line feeds between them and in them. -/
theorem pieces_unpieces_flatMap {ls : List Text} (hne : ls ≠ []) :
    pieces (unpieces ls) = ls.flatMap pieces := by
  induction ls with
  | nil => exact absurd rfl hne
  | cons a ls ih =>
    cases ls with
    | nil => simp [unpieces]
    | cons b ls =>
      rw [unpieces_cons_cons, pieces, List.splitOn_append_cons_self, ← pieces, ← pieces,
        ih (List.cons_ne_nil b ls), List.flatMap_cons (x := a)]

end Text

namespace DocComment

open Text

/-- A row begins with the indentation and the star of a margin. -/
def Margined (indent row : Text) : Prop := indent ++ [' ', '*'] <+: row

instance (indent row : Text) : Decidable (Margined indent row) :=
  inferInstanceAs (Decidable (_ <+: _))

/-- A line behind its margin, less the space of the margin if the line is blank. -/
theorem exists_marginLine_eq {indent : Text} (hlf : '\n' ∉ indent) (line : Text) :
    ∃ margin, marginLine indent line = margin ++ trimEnd line ∧ Margined indent margin ∧
      '\n' ∉ margin := by
  cases hblank : allBlank line with
  | true =>
    refine ⟨indent ++ [' ', '*'], ?_, List.prefix_refl _, by simpa using hlf⟩
    rw [marginLine, trimEnd_append_of_allBlank _ hblank, trimEnd_eq_nil_iff.2 hblank,
      List.append_nil]
    rfl
  | false =>
    refine ⟨indent ++ [' ', '*', ' '], ?_, ⟨[' '], by simp⟩, by simpa using hlf⟩
    rw [marginLine, trimEnd_append hblank, List.append_assoc]
    rfl

/-- The rows of a line behind its margin. The first has the margin, the others are rows of the
line. -/
theorem margined_marginLine_iff {indent : Text} (hlf : '\n' ∉ indent) (line : Text) :
    (∀ row ∈ pieces (marginLine indent line), Margined indent row) ↔
      ∀ row ∈ (pieces (trimEnd line)).tail, Margined indent row := by
  obtain ⟨margin, hline, hmargin, hmarginLf⟩ := exists_marginLine_eq hlf line
  obtain ⟨first, rest, htext, hrows⟩ := pieces_append_of_lf_not_mem hmarginLf (trimEnd line)
  have hfirst : Margined indent (margin ++ first) := hmargin.trans (List.prefix_append _ _)
  rw [hline, hrows, htext, List.forall_mem_cons, List.tail_cons]
  exact and_iff_right hfirst

/-- The rows of a comment on several lines have the margin, if the further rows of each of its lines
do. -/
theorem margined_multiLine_iff {indent : Text} (hlf : '\n' ∉ indent) (lines : List Text) :
    (∀ row ∈ (pieces (multiLine indent lines)).tail, Margined indent row) ↔
      ∀ l ∈ lines, ∀ row ∈ (pieces (trimEnd l)).tail, Margined indent row := by
  have hopen : pieces "/**".toList = ["/**".toList] := pieces_of_lf_not_mem (by decide)
  have hclose : pieces (indent ++ " */".toList) = [indent ++ " */".toList] :=
    pieces_of_lf_not_mem (by simpa using hlf)
  have hrows : (pieces (multiLine indent lines)).tail =
      (lines.map (marginLine indent)).flatMap pieces ++ [indent ++ " */".toList] := by
    rw [multiLine, pieces_unpieces_flatMap (by simp), List.cons_append, List.flatMap_cons,
      List.flatMap_append, List.flatMap_singleton, hopen, hclose]
    rfl
  have hlast : Margined indent (indent ++ " */".toList) := ⟨['/'], by simp⟩
  rw [hrows, List.forall_mem_append, List.forall_mem_singleton, and_iff_left hlast]
  simp only [List.mem_flatMap, List.mem_map, exists_exists_and_eq_and, forall_exists_index, and_imp]
  constructor
  · exact fun h l hl => (margined_marginLine_iff hlf l).1 fun row => h row l hl
  · exact fun h row l hl => (margined_marginLine_iff hlf l).2 (h l hl) row

/-- The rows of a comment that was written anew begin with its margin, the first row apart, if the
lines composed for it do so where they are broken again. No line is broken again if the literals of
the types in the comment are whole. -/
theorem format_margined_iff {o : Options} (hunit : ∀ c ∈ o.indentUnit, c = ' ' ∨ c = '\t')
    {indent : Text} (hlf : '\n' ∉ indent) {text : Text} {formatted : Formatted}
    (h : format o indent text = some formatted) :
    let lines := Comment.compose (o.withPrintWidth (bodyWidth o indent)) (Comment.parse text)
    ((∀ row ∈ (pieces formatted.text).tail, Margined indent row) ↔
      ∀ l ∈ lines, ∀ row ∈ (pieces (trimEnd l)).tail, Margined indent row) ∧
      (Comment.WholeLiterals text → ∀ row ∈ (pieces formatted.text).tail, Margined indent row) := by
  intro lines
  have hwhole : Comment.WholeLiterals text → ∀ l ∈ lines, '\n' ∉ l :=
    lf_not_mem_of_wholeLiterals hunit indent
  have hunbroken {l : Text} (hl : '\n' ∉ l) :
      ∀ row ∈ (pieces (trimEnd l)).tail, Margined indent row := by
    rw [pieces_of_lf_not_mem fun hmem => hl ((trimEnd_prefix_self l).subset hmem)]
    exact List.forall_mem_nil _
  have hrows : (∀ row ∈ (pieces formatted.text).tail, Margined indent row) ↔
      ∀ l ∈ lines, ∀ row ∈ (pieces (trimEnd l)).tail, Margined indent row := by
    obtain ⟨-, rfl⟩ := format_eq_some_iff.1 h
    dsimp only
    obtain ⟨line, hline, htext, -, hrender⟩ | hrender := render_cases o indent text lines
    -- a comment on one line has no line feed to hold, so no literal in it does
    · have hlines : ∀ l ∈ lines, '\n' ∉ l := hwhole (Comment.wholeLiterals_of_lf_not_mem htext)
      have hsingle : '\n' ∉ singleLine line := by
        have hl : '\n' ∉ line := hlines line (by rw [hline]; exact List.mem_singleton_self line)
        rw [singleLine, List.mem_append, List.mem_append, not_or, not_or]
        exact ⟨⟨by decide, hl⟩, by decide⟩
      rw [hrender, pieces_of_lf_not_mem hsingle]
      exact iff_of_true (List.forall_mem_nil _) fun l hl => hunbroken (hlines l hl)
    · rw [hrender]
      exact margined_multiLine_iff hlf lines
  exact ⟨hrows, fun hliterals => hrows.2 fun l hl => hunbroken (hwhole hliterals l hl)⟩

/-- A type on several lines, in the place of one. -/
theorem format_margined_shape :
    let o : Options := { printWidth := 20 }
    let text := "/** @var array\x7ba: int\x7d $a */".toList
    ∃ formatted, format o ['\t'] text = some formatted ∧
      formatted.text = "/**\n\t * @var array\x7b\n\t *     a: int\n\t * \x7d $a\n\t */".toList ∧
      ∀ row ∈ (pieces formatted.text).tail, Margined ['\t'] row := by
  intro o text
  have hparse : Comment.parse text = [.tag ⟨"@var".toList, "$a".toList,
      .typed (.shape [.keyed (.named "a".toList) false (.named "int".toList)])⟩] := by
    with_unfolding_all rfl
  have hlines : Comment.compose (o.withPrintWidth (bodyWidth o ['\t'])) (Comment.parse text) =
      ["@var array\x7b", "    a: int", "\x7d $a"].map String.toList := by
    rw [hparse]
    decide +kernel
  have hformat : format o ['\t'] text =
      some ⟨"/**\n\t * @var array\x7b\n\t *     a: int\n\t * \x7d $a\n\t */".toList, []⟩ := by
    refine format_eq_some_iff.2 ⟨?_, ?_⟩
    · rw [hlines]
      exact List.cons_ne_nil _ _
    · rw [hlines, hparse]
      rfl
  have htext : '\n' ∉ text := by decide
  have hrows := (format_margined_iff (by decide) (by decide) hformat).2
    (Comment.wholeLiterals_of_lf_not_mem htext)
  exact ⟨_, hformat, rfl, hrows⟩

/-- A literal with a line feed in it is written back without the margin behind the line feed. -/
theorem format_unmargined_literal :
    let text := "/**\n * @var 'a\n * b'\n */".toList
    ∃ formatted, format {} [] text = some formatted ∧
      formatted.text = "/**\n * @var 'a\nb'\n */".toList ∧
      "b'".toList ∈ (pieces formatted.text).tail ∧ ¬ Margined [] "b'".toList := by
  intro text
  have hparse : Comment.parse text =
      [.tag ⟨"@var".toList, [], .typed (.literal .single "a\nb".toList)⟩] := by
    with_unfolding_all rfl
  have hformat : format {} [] text = some ⟨"/**\n * @var 'a\nb'\n */".toList, []⟩ := by
    refine format_eq_some_iff.2 ?_
    simp only [hparse]
    exact ⟨by decide, by with_unfolding_all rfl⟩
  exact ⟨_, hformat, rfl, by decide +kernel, by decide⟩

end DocComment

end Docblock
