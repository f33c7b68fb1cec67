import Docblock.Proofs.Comment.Blocks
import Docblock.Proofs.DocComment.Margin

/-!
# Formatting a doc comment again

A doc comment on several lines that was written anew stays as it is when it is formatted again
(`format_format`). Its margin gives up the lines it was made of, and these are composed to
themselves.

What is asked is what can break it. White space that is no space, tab or line feed would end a type
in one run and not in the other, so the comment has plain blanks. A brace in front of a description
may become the shape of the type before it, once a `null` has moved, so no description of a typed
tag begins with one. A line feed in a literal would have the literal cut into lines. And a comment
on one line has no margin, so a star that it starts with would be read as one; such comments are
left to `Docblock.Proofs.DocComment.Rereading`, where this is one of two exceptions.

The proof has no induction of its own: the margin gives the lines back, their blocks are composed to
themselves (`Docblock.Proofs.Comment.Blocks`), and a comment with a line feed is never put on one
line. Expanding nullable types is switched off; what a second run does to expanded types is told in
`Docblock.Proofs.TypeExpr.ExpandedAgain`.
-/

namespace Docblock.DocComment

open Text

/-- A comment that was written on several lines gets a line for each delimiter. -/
theorem render_of_lf_mem {old : Text} (h : '\n' ∈ old) (o : Options) (indent : Text)
    (lines : List Text) : render o indent old lines = multiLine indent lines := by
  have hcontains : old.contains '\n' = true := List.contains_iff_mem.2 h
  unfold render
  split
  · rw [hcontains]
    rfl
  · rfl

/-- A comment on several lines has a line feed, at least the one behind its opening mark. -/
theorem lf_mem_multiLine (indent : Text) (lines : List Text) : '\n' ∈ multiLine indent lines := by
  rw [multiLine_eq, marginRows]
  cases lines <;> simp [unpieces_cons]

/-- A doc comment on several lines is formatted to a text that formatting leaves as it is. The white
space of the comment is plain, no literal of a type is broken, and no description that follows a
type begins with a brace. -/
theorem format_format {o : Options} (hexpand : o.expandNull = false)
    (hunit : ∀ c ∈ o.indentUnit, c = ' ' ∨ c = '\t') {indent : Text}
    (hindent : ∀ c ∈ indent, isBlank c = true) (hlf : '\n' ∉ indent) {text : Text}
    (hplain : PlainBlanks text) (hbroken : '\n' ∈ text)
    (htags : ∀ t type, .tag t ∈ Comment.parse text → t.type = .typed type →
      type.Leaves (fun _ => True) ('\n' ∉ ·) ∧
        (t.description.dropWhile fun c => c == ' ' || c == '\t' || c == '\n').head? ≠ some '{')
    {formatted : Formatted} (h : format o indent text = some formatted) :
    ∃ again, format o indent formatted.text = some again ∧ again.text = formatted.text := by
  have htrim : ∀ t type, .tag t ∈ Comment.parse text → t.type = .typed type →
      type.Leaves (fun _ => True) ('\n' ∉ ·) ∧ (trimStart t.description).head? ≠ some '{' := by
    intro t type ht htype
    have hdescription : PlainBlanks t.description := Comment.description_has handed_plainBlanks
      (handed_plainBlanks.part hplain (Comment.inner_infix_self text)) ht
    have hcut := dropWhile_eq_trimStart (p := fun c => c == ' ' || c == '\t' || c == '\n')
      (by simp +contextual [isBlank, or_imp]) (by decide) hdescription
    rw [← hcut]
    exact htags t type ht htype
  set o' := o.withPrintWidth (bodyWidth o indent)
  obtain ⟨prose, blocks, hlines, hprose⟩ :=
    Comment.exists_blocks fun l (hl : l ∈ Comment.bodyLines text) =>
      Comment.trimmed_of_mem_bodyLines hl
  obtain ⟨blocks', hread⟩ := Comment.exists_forall₂_readBack (o := o') hexpand
    (by rwa [indentUnit_withPrintWidth]) hplain htrim hprose hlines
  set lines := Comment.proseLines o' prose (Comment.tagsOf blocks) ++
    blocks'.flatMap Comment.Block.lines
  have hcompose : Comment.compose o' (Comment.parse text) = lines := by
    rw [Comment.parse_of_bodyLines hprose hlines, Comment.compose_blocks hprose hread]
  obtain ⟨hne, hformatted⟩ := format_eq_some_iff.1 h
  rw [hcompose] at hne hformatted
  rw [render_of_lf_mem hbroken] at hformatted
  -- the margin gives up the lines that were composed
  have hbody : Comment.bodyLines formatted.text = lines := by
    rw [hformatted]
    have hends := Comment.allBlank_ends_bodyLines text
    rw [hlines] at hends
    refine bodyLines_multiLine hindent hlf ?_ (Comment.head?_composed ?_)
      (Comment.getLast?_composed hread hends.2)
    · refine List.forall_mem_append.2 ⟨fun l hl => ?_, fun l hl => ?_⟩
      · have hmade := Comment.made_of_mem_proseLines hprose _ l hl
        exact ⟨hmade.trimmed, hmade.lf_not_mem⟩
      · obtain ⟨b, -, hl⟩ := List.mem_flatMap.1 hl
        exact b.trimmed_of_mem l hl
    · intro l hl
      refine hends.1 l ?_
      rw [List.head?_append, Option.mem_def.1 hl]
      rfl
  have hagain : Comment.compose o' (Comment.parse formatted.text) = lines :=
    Comment.compose_parse_eq_self hprose hread hbody
  refine ⟨_, format_eq_some_iff.2 ⟨by rwa [hagain], rfl⟩, ?_⟩
  dsimp only
  rw [hagain, render_of_lf_mem]
  · rw [hformatted]
  · rw [hformatted]
    exact lf_mem_multiLine indent lines

/-- Prose and a typed tag without a margin: the second run finds what the first has written. -/
theorem format_format_param :
    let text := "/** Sum.\n  @param  int|null   $a  the\n   first */".toList
    let written := "/**\n * Sum.\n *\n * @param null | int $a the\n *   first\n */".toList
    PlainBlanks text ∧ '\n' ∈ text ∧
      (∃ formatted, format {} [] text = some formatted ∧ formatted.text = written) ∧
      ∃ again, format {} [] written = some again ∧ again.text = written := by
  intro text written
  have hparse : Comment.parse text =
      [.prose "Sum.".toList, .tag ⟨"@param".toList, "$a  the\n  first".toList,
        .typed (.union [.named "int".toList, .named "null".toList])⟩] := by
    with_unfolding_all rfl
  have htags : ∀ t type, .tag t ∈ Comment.parse text → t.type = .typed type →
      type.Leaves (fun _ => True) ('\n' ∉ ·) ∧
        (t.description.dropWhile fun c => c == ' ' || c == '\t' || c == '\n').head? ≠ some '{' := by
    rw [hparse]
    intro t type ht htype
    obtain rfl : t = _ := by simpa using ht
    obtain rfl := TagType.typed.inj htype
    refine ⟨.union fun b hb => ?_, by decide⟩
    obtain rfl | rfl : b = .named "int".toList ∨ b = .named "null".toList := by simpa using hb
    all_goals exact .named trivial
  have hformat : ∃ formatted, format {} [] text = some formatted ∧ formatted.text = written := by
    refine ⟨⟨written, []⟩, format_eq_some_iff.2 ?_, rfl⟩
    simp only [hparse]
    exact ⟨by decide, by with_unfolding_all rfl⟩
  have hplain : PlainBlanks text := by unfold PlainBlanks; decide
  refine ⟨hplain, by decide, hformat, ?_⟩
  obtain ⟨formatted, hformatted, hwritten⟩ := hformat
  rw [← hwritten]
  exact format_format rfl (by decide) (by simp) (by simp) hplain (by decide) htags hformatted

end Docblock.DocComment
