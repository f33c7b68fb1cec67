import Docblock.Proofs.Source.Rewriting

/-!
# A file changes exactly if it has an edit

Each edit of a report puts a new text in the place of a doc comment. Several edits could make up for
each other, as one comment grows and another shrinks; but the formatted text has the new doc
comments as its own (`segments_replaceDocs`), so it is the old text only if each comment is
(`editsOf_eq_nil`).

Whether a file changed is reported by comparing texts, and what changed by the row of edits. The
theorem says that the two reports never disagree: not the edits without a change, and not a change
without an edit. The proof does not look at lengths. It reads the formatted text again and compares
segment by segment, so it needs what reading again needs, doc comments with closing marks and an
indent unit of blanks.
-/

namespace Docblock

open Text Source

namespace Source

/-- If segments stay as they are with other texts for their doc comments, each of these texts is the
old one. -/
theorem eq_text_of_replaceDocs_eq {f : DocComment → Text} {before : Text} {segments : List Segment}
    (h : replaceDocs f before segments = segments) :
    ∀ c ∈ docCommentsAfter before segments, f c = c.text := by
  induction segments generalizing before with
  | nil => exact List.forall_mem_nil _
  | cons segment segments ih =>
    cases segment with
    | code text => exact ih (List.cons.inj h).2
    | doc text =>
      obtain ⟨hdoc, hrest⟩ := List.cons.inj h
      exact List.forall_mem_cons.2 ⟨Segment.doc.inj hdoc, ih hrest⟩

end Source

/-- Without edits a text stays as it is. -/
theorem Edit.apply_nil (source : Text) : apply source [] = .ok source := by
  have hfront : splitAtByte? 0 source = some ([], source) := splitAtByte?_append [] source
  rw [apply, List.mergeSort_nil, applyFrom, hfront]
  rfl

namespace Report

/-- Doc comments that keep their texts give no edits. -/
theorem editsAfter_eq_nil {o : Options} {source before : Text} {segments : List Segment}
    (hsource : source = before ++ segments.flatMap Segment.text)
    (h : ∀ c ∈ docCommentsAfter before segments, replacement o source c = c.text) :
    editsAfter o source before segments = [] := by
  induction segments generalizing before with
  | nil => rfl
  | cons segment segments ih =>
    have hsource' : source = before ++ segment.text ++ segments.flatMap Segment.text := by
      rw [hsource, List.flatMap_cons, List.append_assoc]
    cases segment with
    | code text => exact ih hsource' h
    | doc text =>
      obtain ⟨hsame, hrest⟩ := List.forall_mem_cons.1 h
      rcases editsAfter_doc o hsource with ⟨-, hedits⟩ | hedits
      · rw [hedits]
        exact ih hsource' hrest
      · -- the edit would put the comment's own text in its place
        have hmem := hedits ▸ List.mem_cons_self
        have hslice : slice? (byteSize before) (byteSize before + byteSize text) source =
            some text := by
          rw [hsource, List.flatMap_cons]
          exact slice?_append before text _
        have hnoop := (List.mem_filter.1 hmem).2
        simp [Edit.isNoop, hslice, hsame] at hnoop

/-- A file whose doc comments stay as they are has no edits. -/
theorem editsOf_eq_nil {o : Options} {source : Text}
    (h : replaceDocs (replacement o source) [] (segments source) = segments source) :
    editsOf o source = [] := by
  rw [editsOf_eq_editsAfter]
  exact editsAfter_eq_nil (flatMap_text_segments source).symm (eq_text_of_replaceDocs_eq h)

/-- Formatting a file never fails, and the file is changed exactly if there is an edit. -/
theorem ofSource_changed_iff {o : Options} (hunit : ∀ c ∈ o.indentUnit, isBlank c = true)
    (path : Text) {source : Text} (hterminated : ∀ c ∈ docComments source, Terminated c.text) :
    ∃ report, ofSource o path source = .ok report ∧
      (report.changed = true ↔ report.edits ≠ []) := by
  have hsegments := segments_replacement hunit hterminated
  have happly := apply_editsOf o source
  generalize (replaceDocs (replacement o source) [] (segments source)).flatMap Segment.text =
    formatted at hsegments happly
  refine ⟨⟨path, source, formatted, editsOf o source, warningsOf o path source⟩,
    by rw [ofSource, happly]; rfl, ?_⟩
  rw [changed, bne_iff_ne]
  refine not_congr ⟨fun hsame => ?_, fun hnone => ?_⟩
  · obtain rfl : formatted = source := hsame
    exact editsOf_eq_nil hsegments.symm
  · have hnone : editsOf o source = [] := hnone
    rw [hnone, Edit.apply_nil] at happly
    exact (Except.ok.inj happly).symm

/-- Two comments that make up for each other: the first loses two characters, the second gains
two. -/
theorem ofSource_changed_iff_balanced :
    let source := "<?php /**   @var a */ /** @var b|c */".toList
    (∀ c ∈ docComments source, Terminated c.text) ∧
      ∃ report, ofSource {} [] source = .ok report ∧ report.changed = true ∧
        report.edits = [⟨6, 21, "/** @var a */".toList⟩, ⟨22, 37, "/** @var b | c */".toList⟩] := by
  intro source
  have hsegments : segments source =
      [.code "<?php ".toList, .doc "/**   @var a */".toList, .code [' '],
        .doc "/** @var b|c */".toList] := by
    with_unfolding_all rfl
  have hterminated : ∀ c ∈ docComments source, Terminated c.text := by
    rw [docComments, hsegments]
    unfold Terminated
    decide
  have hedits : editsOf {} source =
      [⟨6, 21, "/** @var a */".toList⟩, ⟨22, 37, "/** @var b | c */".toList⟩] := by
    with_unfolding_all rfl
  obtain ⟨report, hreport, hchanged⟩ := ofSource_changed_iff (o := {}) (by decide) [] hterminated
  have hreported : report.edits = editsOf {} source := by
    rw [ofSource, apply_editsOf] at hreport
    cases hreport
    rfl
  rw [hreported, hedits] at hchanged
  exact ⟨hterminated, report, hreport, hchanged.2 (by simp), hreported.trans hedits⟩

end Report

end Docblock
