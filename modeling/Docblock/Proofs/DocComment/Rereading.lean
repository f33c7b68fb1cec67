import Docblock.Proofs.Comment.Composed
import Docblock.Proofs.Comment.Content
import Docblock.Proofs.DocComment.FixedPoint

/-!
# Reading a doc comment that was written

A doc comment that was written anew is read as the lines it was composed of, less the white space at
their ends, and there are two exceptions (`bodyLines_format_iff`). A line with a line feed inside a
literal has no margin after the line feed, so it is read as several lines. And on one line a star in
front is taken for the margin, which is not written there.

The two exceptions are told as an `iff`, so neither can be left out, and the example with a star
loses it (`bodyLines_format_star`). What is read instead is not told in general: the rows of a
broken line are cut by the margin's own rule, which may find stars of the literal. The law has no
hypothesis on the descriptions of the comment; it speaks of lines, and what their words are is told
in `Docblock.Proofs.Comment.Content`.
-/

namespace Docblock

namespace DocComment

open Text

/-! ## Several lines -/

/-- White space at the end of a line is dropped with the margin's own. -/
theorem marginLine_trimEnd (indent line : Text) :
    marginLine indent (trimEnd line) = marginLine indent line := by
  unfold marginLine
  cases hblank : allBlank line with
  | true =>
    rw [trimEnd_eq_nil_iff.2 hblank, List.append_nil, trimEnd_append_of_allBlank _ hblank]
  | false =>
    rw [trimEnd_append hblank, trimEnd_append (by rwa [allBlank_trimEnd]), trimEnd_trimEnd]

/-- A comment with a line for each delimiter is read as its lines less the white space at their
ends, whatever ends they had. -/
theorem bodyLines_multiLine_map {indent : Text} (hindent : ∀ c ∈ indent, isBlank c = true)
    (hlf : '\n' ∉ indent) {lines : List Text} (hlines : ∀ l ∈ lines, '\n' ∉ trimEnd l)
    (hfirst : ∀ l ∈ lines.head?, allBlank l = false)
    (hlast : ∀ l ∈ lines.getLast?, allBlank l = false) :
    Comment.bodyLines (multiLine indent lines) = lines.map trimEnd := by
  have hrows : multiLine indent lines = multiLine indent (lines.map trimEnd) := by
    unfold multiLine
    rw [List.map_map]
    simp only [Function.comp_def, marginLine_trimEnd]
  have htrim {l? : Option Text} (h : ∀ l ∈ l?, allBlank l = false) :
      ∀ l ∈ l?.map trimEnd, allBlank l = false := by
    intro l hl
    obtain ⟨k, hk, rfl⟩ := Option.map_eq_some_iff.1 hl
    rw [allBlank_trimEnd, h k hk]
  rw [hrows]
  apply bodyLines_multiLine hindent hlf
  · intro l hl
    obtain ⟨k, hk, rfl⟩ := List.mem_map.1 hl
    exact ⟨trimEnd_trimEnd k, hlines k hk⟩
  · rw [List.head?_map]
    exact htrim hfirst
  · rw [List.getLast?_map]
    exact htrim hlast

/-! ## One line -/

section SingleLine

variable {line : Text}

/-- The line that is read off a comment on one line. -/
theorem bodyLines_singleLine (hlf : '\n' ∉ line) : Comment.bodyLines (singleLine line) =
    dropEndWhile allBlank
      ([Comment.bodyLine (' ' :: (line ++ [' ']))].dropWhile allBlank) := by
  have hwhole : singleLine line = '/' :: '*' :: '*' :: (' ' :: (line ++ [' ']) ++ ['*', '/']) := by
    show "/** ".toList ++ line ++ [' ', '*', '/'] = _
    simp
  have hinner : '\n' ∉ ' ' :: (line ++ [' ']) := by simpa using hlf
  unfold Comment.bodyLines Text.lines
  rw [hwhole, Comment.inner_delimited, pieces_of_lf_not_mem hinner]
  rfl

variable (hfull : allBlank line = false)

include hfull

/-- What stands between the delimiters of one line is the line between two spaces. -/
theorem trimStart_spaced : trimStart (' ' :: (line ++ [' '])) = trimStart line ++ [' '] :=
  trimStart_append hfull [' ']

/-- A line without a star in front is read off one line as it is, less the white space at its end.
-/
theorem bodyLine_of_no_star (hstar : (trimStart line).head? ≠ some '*') :
    Comment.bodyLine (' ' :: (line ++ [' '])) = trimEnd line := by
  have hmargin : Comment.dropMargin (' ' :: (line ++ [' '])) = ' ' :: (line ++ [' ']) := by
    unfold Comment.dropMargin
    rw [trimStart_spaced hfull]
    obtain ⟨c, r, hr⟩ := List.exists_cons_of_ne_nil (trimStart_ne_nil hfull)
    rw [hr] at hstar ⊢
    split
    · next heq =>
      injection heq with hc
      exact absurd (congrArg some hc) hstar
    · rfl
  have hspace : dropStart? [' '] (' ' :: (line ++ [' '])) = some (line ++ [' ']) :=
    dropStart?_eq_some_iff.2 rfl
  unfold Comment.bodyLine
  rw [hmargin]
  dsimp only
  rw [hspace, Option.getD_some, trimEnd_append_of_allBlank _ rfl]

/-- A star in front is lost, so what is read says less. -/
theorem bodyLine_ne_of_star (hstar : (trimStart line).head? = some '*') :
    Comment.bodyLine (' ' :: (line ++ [' '])) ≠ trimEnd line := by
  obtain ⟨r, hr⟩ := List.head?_eq_some_iff.1 hstar
  have hmargin : Comment.dropMargin (' ' :: (line ++ [' '])) <:+ r ++ [' '] := by
    unfold Comment.dropMargin
    rw [trimStart_spaced hfull, hr]
    exact List.dropWhile_suffix _
  have hbody : Comment.bodyLine (' ' :: (line ++ [' '])) <:+: r ++ [' '] := by
    unfold Comment.bodyLine
    exact (trimEnd_prefix_self _).isInfix.trans
      ((getD_dropStart?_rear _ _).trans hmargin).isInfix
  intro heq
  have hle : (ink line).length ≤ (ink r).length := by
    have hink := (hbody.sublist.filter (!isBlank ·)).length_le
    rw [heq] at hink
    have hr : ink (r ++ [' ']) = ink r := by simp
    rwa [← hr, ← ink_trimEnd line]
  have hlt : (ink line).length = (ink r).length + 1 := by
    rw [← ink_trimStart, hr]
    rfl
  omega

/-- A comment on one line is read as its line if no star stands in front. -/
theorem bodyLines_singleLine_iff (hlf : '\n' ∉ line) :
    Comment.bodyLines (singleLine line) = [trimEnd line] ↔
      (trimStart line).head? ≠ some '*' := by
  rw [bodyLines_singleLine hlf]
  constructor
  · intro heq hstar
    have hmem : trimEnd line ∈ [Comment.bodyLine (' ' :: (line ++ [' ']))] := by
      have hmem := List.mem_singleton_self (trimEnd line)
      rw [← heq, dropEndWhile_eq_rdropWhile] at hmem
      exact (List.dropWhile_suffix _).subset ((List.rdropWhile_prefix _ _).subset hmem)
    exact bodyLine_ne_of_star hfull hstar (List.mem_singleton.1 hmem).symm
  · intro hstar
    have hline : ¬allBlank (trimEnd line) = true := by
      rw [allBlank_trimEnd, hfull]
      exact Bool.false_ne_true
    rw [bodyLine_of_no_star hfull hstar, List.dropWhile_cons_of_neg hline]
    exact List.rdropWhile_concat_neg allBlank [] _ hline

end SingleLine

/-! ## Either form -/

/-- A comment is written on one line only if it stood on one line and fits. -/
theorem render_cases (o : Options) (indent old : Text) (lines : List Text) :
    (∃ line, lines = [line] ∧ '\n' ∉ old ∧ fitsOneLine o indent line = true ∧
      render o indent old lines = singleLine line) ∨
      render o indent old lines = multiLine indent lines := by
  unfold render
  split
  · next line =>
    by_cases hfits : (!old.contains '\n' && fitsOneLine o indent line) = true
    · rw [if_pos hfits]
      obtain ⟨hold, hfits⟩ := Bool.and_eq_true_iff.1 hfits
      exact .inl ⟨line, rfl, by simpa using hold, hfits, rfl⟩
    · rw [if_neg hfits]
      exact .inr rfl
  · exact .inr rfl

/-- Lines that are written in place of a comment are read back, less the white space at their ends,
if none is broken again and none that stands alone begins with a star. -/
theorem bodyLines_render_iff (o : Options) {indent : Text}
    (hindent : ∀ c ∈ indent, isBlank c = true) (hlf : '\n' ∉ indent) {old : Text}
    {lines : List Text} (hold : '\n' ∉ old → ∀ l ∈ lines, '\n' ∉ l)
    (hfirst : ∀ l ∈ lines.head?, allBlank l = false)
    (hlast : ∀ l ∈ lines.getLast?, allBlank l = false) :
    Comment.bodyLines (render o indent old lines) = lines.map trimEnd ↔
      (∀ l ∈ lines, '\n' ∉ trimEnd l) ∧
        ('\n' ∉ render o indent old lines → ∀ l ∈ lines, (trimStart l).head? ≠ some '*') := by
  obtain ⟨line, rfl, hsingle, -, hrender⟩ | hrender := render_cases o indent old lines
  · have hline : '\n' ∉ line := hold hsingle line (List.mem_singleton_self line)
    have htrim : '\n' ∉ trimEnd line := fun hmem => hline ((trimEnd_prefix_self line).subset hmem)
    have htext : '\n' ∉ singleLine line := by
      rw [singleLine, List.mem_append, List.mem_append, not_or, not_or]
      exact ⟨⟨by decide, hline⟩, by decide⟩
    rw [hrender, List.map_singleton, bodyLines_singleLine_iff (hfirst line rfl) hline,
      List.forall_mem_singleton, List.forall_mem_singleton]
    exact ⟨fun hstar => ⟨htrim, fun _ => hstar⟩, fun h => h.2 htext⟩
  · rw [hrender]
    constructor
    · intro heq
      -- a comment on several lines holds line feeds, so only the one on a single line has a
      -- condition on stars
      refine ⟨fun l hl => ?_, fun hnot => absurd (lf_mem_multiLine indent lines) hnot⟩
      have hmem : trimEnd l ∈ Comment.bodyLines (multiLine indent lines) := by
        rw [heq]
        exact List.mem_map_of_mem hl
      exact (Comment.trimmed_of_mem_bodyLines hmem).2
    · rintro ⟨hlines, -⟩
      exact bodyLines_multiLine_map hindent hlf hlines hfirst hlast

/-- No line that is composed for a comment is broken again, if its literals are in one piece. -/
theorem lf_not_mem_of_wholeLiterals {o : Options} (hunit : ∀ c ∈ o.indentUnit, c = ' ' ∨ c = '\t')
    (indent : Text) {text : Text} (hwhole : Comment.WholeLiterals text) :
    ∀ l ∈ Comment.compose (o.withPrintWidth (bodyWidth o indent)) (Comment.parse text),
      '\n' ∉ l := by
  refine Comment.lf_not_mem_compose ?_ hwhole
  rw [indentUnit_withPrintWidth]
  exact fun hmem => by simpa using hunit _ hmem

/-- A comment that was written anew is read as the lines it was composed of, less the white space at
their ends, unless a line is broken again or, on one line, begins with a star. Only a literal with a
line feed in it breaks a line again. -/
theorem bodyLines_format_iff {o : Options} (hunit : ∀ c ∈ o.indentUnit, c = ' ' ∨ c = '\t')
    {indent : Text} (hindent : ∀ c ∈ indent, isBlank c = true) (hlf : '\n' ∉ indent) {text : Text}
    {formatted : Formatted} (h : format o indent text = some formatted) :
    let lines := Comment.compose (o.withPrintWidth (bodyWidth o indent)) (Comment.parse text)
    (Comment.bodyLines formatted.text = lines.map trimEnd ↔
      (∀ l ∈ lines, '\n' ∉ trimEnd l) ∧
        ('\n' ∉ formatted.text → ∀ l ∈ lines, (trimStart l).head? ≠ some '*')) ∧
      (Comment.WholeLiterals text → ∀ l ∈ lines, '\n' ∉ l) := by
  intro lines
  have hwhole : Comment.WholeLiterals text → ∀ l ∈ lines, '\n' ∉ l :=
    lf_not_mem_of_wholeLiterals hunit indent
  have hends : (∀ l ∈ lines.head?, allBlank l = false) ∧
      ∀ l ∈ lines.getLast?, allBlank l = false :=
    Comment.ends_compose (o.withPrintWidth (bodyWidth o indent)) text
  have hread := bodyLines_render_iff o hindent hlf
    (fun htext => hwhole (Comment.wholeLiterals_of_lf_not_mem htext)) hends.1 hends.2
  obtain ⟨-, hformatted⟩ := format_eq_some_iff.1 h
  rw [hformatted]
  dsimp only
  exact ⟨hread, hwhole⟩

/-- A tag on one line. -/
theorem bodyLines_format_var :
    let text := "/** @var  int|null  $a */".toList
    let line := "@var null | int $a".toList
    ∃ formatted, format {} ['\t'] text = some formatted ∧
      formatted.text = "/** @var null | int $a */".toList ∧
      Comment.bodyLines formatted.text = [line] := by
  intro text line
  have hparse : Comment.parse text = [.tag ⟨"@var".toList, "$a".toList,
      .typed (.union [.named "int".toList, .named "null".toList])⟩] := by
    with_unfolding_all rfl
  have hformat : format {} ['\t'] text = some ⟨"/** @var null | int $a */".toList, []⟩ := by
    refine format_eq_some_iff.2 ?_
    simp only [hparse]
    exact ⟨by decide, by with_unfolding_all rfl⟩
  have hlines : Comment.compose (({} : Options).withPrintWidth (bodyWidth {} ['\t']))
      (Comment.parse text) = [line] := by
    rw [hparse]
    with_unfolding_all rfl
  have hread := (bodyLines_format_iff (by decide) (by decide) (by decide) hformat).1
  rw [hlines] at hread
  refine ⟨_, hformat, rfl, hread.2 ⟨by decide, fun _ => ?_⟩⟩
  rw [List.forall_mem_singleton]
  decide

/-- On one line a star in front of the text is taken for a margin. -/
theorem bodyLines_format_star :
    let text := "/** * * foo */".toList
    Comment.compose (({} : Options).withPrintWidth (bodyWidth {} [])) (Comment.parse text) =
        ["* foo".toList] ∧
      ∃ formatted, format {} [] text = some formatted ∧
        formatted.text = "/** * foo */".toList ∧
        Comment.bodyLines formatted.text = ["foo".toList] := by
  intro text
  have hparse : Comment.parse text = [.prose "* foo".toList] := by with_unfolding_all rfl
  have hlines : Comment.compose (({} : Options).withPrintWidth (bodyWidth {} []))
      (Comment.parse text) = ["* foo".toList] := by
    rw [hparse]
    with_unfolding_all rfl
  have hformat : format {} [] text = some ⟨"/** * foo */".toList, []⟩ := by
    refine format_eq_some_iff.2 ?_
    simp only [hparse]
    exact ⟨by decide, by with_unfolding_all rfl⟩
  exact ⟨hlines, _, hformat, rfl, by with_unfolding_all rfl⟩

end DocComment

end Docblock
