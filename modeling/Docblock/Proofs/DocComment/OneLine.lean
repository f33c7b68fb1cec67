import Docblock.Proofs.DocComment.Rereading
import Docblock.Proofs.Source.Places
import Docblock.Proofs.Text.Columns

/-!
# Comments kept on one line

A comment is kept on one line if it fits behind its indentation. The indentation stands for what is
before the comment in its line, and is as wide as that but for one case: behind code a tab is
counted as one column (`columns_linePrefix_le`). By what is lost there, and by no more, a comment on
one line may reach beyond the width it has (`format_oneLine_fits`).

The bound is reached. The comment with its delimiters fits behind the indentation, by the width the
printer measures; what the line has in front of the comment is wider than the indentation by no more
than the shortfall (`columns_linePrefix_le`). So a comment that is kept on one line ends within the
width plus the shortfall, and `format_oneLine_tab` reaches that bound.

A comment that is spread over several lines is not bounded here. What its lines need is the subject
of `Docblock.Proofs.Comment.Fitting`. Widths are columns that do not wrap around, so the theorem
asks for texts of fewer than 2^64 columns where it passes from one to the other.
-/

namespace Docblock.DocComment

open Text

/-- The columns by which the indentation falls short of what stands before the comment: a tab behind
code is one column of the indentation. -/
def shortfall (o : Options) (c : DocComment) : Nat :=
  if allBlank c.linePrefix then 0 else c.linePrefix.count '\t' * (o.tabWidth.toNat - 1)

section Shortfall

variable {o : Options} {c : DocComment}

/-- Nothing is lost if there is only white space before the comment, no tab, or a tab as wide as a
space. -/
theorem shortfall_eq_zero_iff : c.shortfall o = 0 ↔
    allBlank c.linePrefix = true ∨ '\t' ∉ c.linePrefix ∨ o.tabWidth.toNat ≤ 1 := by
  unfold shortfall
  split
  · next hblank => exact iff_of_true rfl (.inl hblank)
  · next hcode =>
    rw [or_iff_right hcode, Nat.mul_eq_zero, List.count_eq_zero, Nat.sub_eq_zero_iff_le]

/-- The indentation of a comment is as wide as what stands before it, less the shortfall. -/
theorem columns_linePrefix_le : o.columns c.linePrefix ≤ o.columns c.indent + c.shortfall o := by
  unfold indent shortfall
  split
  · exact Nat.le_add_right _ _
  · have hspaces : o.columns (List.replicate c.linePrefix.length ' ') = c.linePrefix.length := by
      rw [Options.columns_eq_length (by simp), List.length_replicate]
    have htabs := o.columns_add_count_tab c.linePrefix
    rw [hspaces, Nat.mul_sub_one]
    omega

end Shortfall

/-- A doc comment that is kept on one line fits behind what stands before it in its line, up to the
shortfall of its indentation. -/
theorem format_oneLine_fits {o : Options} {source : Text} {c : DocComment}
    (hc : c ∈ Source.docComments source) {formatted : Formatted}
    (h : format o c.indent c.text = some formatted) (hline : '\n' ∉ formatted.text)
    (hexact : o.columns c.indent + o.columns formatted.text < UInt64.size) :
    (∃ above after, source = above ++ (c.linePrefix ++ (c.text ++ after)) ∧
      (∀ d ∈ above.getLast?, d = '\n') ∧ '\n' ∉ c.linePrefix) ∧
      o.columns c.linePrefix + o.columns formatted.text ≤ o.docWidth.toNat + c.shortfall o ∧
      (allBlank c.linePrefix = true ∨ '\t' ∉ c.linePrefix ∨ o.tabWidth.toNat ≤ 1 →
        o.columns c.linePrefix + o.columns formatted.text ≤ o.docWidth.toNat) := by
  -- the test that keeps a comment on one line measures the indentation
  have hfits : o.columns c.indent + o.columns formatted.text ≤ o.docWidth.toNat := by
    obtain ⟨-, hformatted⟩ := format_eq_some_iff.1 h
    have htext := congrArg Formatted.text hformatted
    dsimp only at htext
    obtain ⟨line, -, -, hfits, hrender⟩ | hrender := render_cases o c.indent c.text
      (Comment.compose (o.withPrintWidth (bodyWidth o c.indent)) (Comment.parse c.text))
    · rw [hrender] at htext
      rw [fitsOneLine, decide_eq_true_eq, ← htext] at hfits
      exact (Options.displayWidth_add_le_iff hexact _).1 hfits
    · rw [htext, hrender] at hline
      exact absurd (lf_mem_multiLine _ _) hline
  have hprefix : o.columns c.linePrefix ≤ o.columns c.indent + c.shortfall o :=
    columns_linePrefix_le
  refine ⟨exists_eq_append_linePrefix hc, by omega, fun hexcept => ?_⟩
  rw [shortfall_eq_zero_iff.2 hexcept] at hprefix
  omega

/-- A comment on one line stays there if it fits. -/
theorem render_of_fitsOneLine {o : Options} {indent old line : Text} (hold : '\n' ∉ old)
    (hfits : fitsOneLine o indent line = true) : render o indent old [line] = singleLine line := by
  have hsingle : old.contains '\n' = false := by simpa using hold
  rw [render, hsingle, hfits]
  rfl

/-- A comment with a space too many, where it is kept on one line. -/
theorem format_spaced_var {o : Options} {indent : Text}
    (hlines : Comment.compose (o.withPrintWidth (bodyWidth o indent))
      [.tag ⟨"@var".toList, [], .typed (.named "int".toList)⟩] = ["@var int".toList])
    (hfits : fitsOneLine o indent "@var int".toList = true) :
    format o indent "/** @var  int */".toList = some ⟨"/** @var int */".toList, []⟩ := by
  have hparse : Comment.parse "/** @var  int */".toList =
      [.tag ⟨"@var".toList, [], .typed (.named "int".toList)⟩] := by
    with_unfolding_all rfl
  have htext : '\n' ∉ "/** @var  int */".toList := by decide
  have hrender := render_of_fitsOneLine htext hfits
  refine format_eq_some_iff.2 ⟨?_, ?_⟩
  · rw [hparse, hlines]
    exact List.cons_ne_nil _ _
  · rw [hparse, hlines, hrender]
    rfl

/-- Behind code with an accented letter, which is one column. -/
theorem format_oneLine_fits_accented :
    let o : Options := { printWidth := 24 }
    let source := "<?php\n$é = 1; /** @var  int */\n".toList
    let c : DocComment := ⟨"<?php\n$é = 1; ".toList, "/** @var  int */".toList⟩
    c ∈ Source.docComments source ∧
      ∃ formatted, format o c.indent c.text = some formatted ∧
        formatted.text = "/** @var int */".toList ∧
        o.columns c.linePrefix + o.columns formatted.text ≤ o.docWidth.toNat := by
  intro o source c
  have hsegments : Source.segments source = [.code c.before, .doc c.text, .code ['\n']] := by
    with_unfolding_all rfl
  have hc := Source.mem_docComments_of_segments hsegments
  have hformat : format o c.indent c.text = some ⟨"/** @var int */".toList, []⟩ :=
    format_spaced_var (by decide +kernel) (by decide +kernel)
  obtain ⟨-, -, hfits⟩ := format_oneLine_fits hc hformat (by decide) (by decide +kernel)
  exact ⟨hc, _, hformat, rfl, hfits (.inr (.inl (by decide)))⟩

/-- Behind a tab and code, a comment reaches beyond the width by all that the tab is wider than one
column. -/
theorem format_oneLine_tab :
    let o : Options := { printWidth := 24 }
    let source := "<?php\n\t$a = 1; /** @var  int */\n".toList
    let c : DocComment := ⟨"<?php\n\t$a = 1; ".toList, "/** @var  int */".toList⟩
    c ∈ Source.docComments source ∧
      ∃ formatted, format o c.indent c.text = some formatted ∧ '\n' ∉ formatted.text ∧
        o.docWidth.toNat < o.columns c.linePrefix + o.columns formatted.text ∧
        o.columns c.linePrefix + o.columns formatted.text = o.docWidth.toNat + c.shortfall o := by
  intro o source c
  have hsegments : Source.segments source = [.code c.before, .doc c.text, .code ['\n']] := by
    with_unfolding_all rfl
  have hformat : format o c.indent c.text = some ⟨"/** @var int */".toList, []⟩ :=
    format_spaced_var (by decide +kernel) (by decide +kernel)
  exact ⟨Source.mem_docComments_of_segments hsegments, _, hformat, by decide, by decide +kernel,
    by decide +kernel⟩

end Docblock.DocComment
