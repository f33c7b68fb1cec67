import Docblock.Proofs.Comment.Closing

/-!
# Formatting rewrites doc comments and nothing else

A file whose doc comments are all terminated has a report, and the formatted text is the file with
other texts for its doc comments: the code between them is the same, and read again the new file has
the same number of doc comments, with the new texts, in the same order.

The theorem is put together from three parts that know nothing of each other: the edits lead to the
new segments (`Docblock.Proofs.Source.Splice`), the lexer finds these segments again
(`Docblock.Proofs.Source.Relexing`), and what is rendered for a comment is a comment again
(`Docblock.Proofs.Comment.Closing`). What the new texts say is no part of it; it holds of a comment
that is kept, since it asks to be ignored or since it reads as nothing, as well as of one that is
written anew.
-/

namespace Docblock

open Text Source

namespace Source

/-- Each doc segment is one of the doc comments of the file. -/
theorem exists_mem_docCommentsAfter {before t : Text} {segments : List Segment}
    (h : .doc t ∈ segments) : ∃ c ∈ docCommentsAfter before segments, c.text = t := by
  induction segments generalizing before with
  | nil => simp at h
  | cons segment segments ih =>
    cases segment with
    | code text => exact ih (by simpa using h)
    | doc text =>
      rcases List.mem_cons.1 h with heq | h
      · obtain rfl : t = text := Segment.doc.inj heq
        exact ⟨⟨before, t⟩, List.mem_cons_self, rfl⟩
      · obtain ⟨c, hc, htext⟩ : ∃ c ∈ docCommentsAfter (before ++ text) segments, c.text = t := ih h
        exact ⟨c, List.mem_cons_of_mem _ hc, htext⟩

end Source

namespace Report

/-- What takes the place of a doc comment is a doc comment. -/
theorem replacement_isDocComment {o : Options} (hunit : ∀ c ∈ o.indentUnit, isBlank c = true)
    (source before : Text) {t : Text} (h : IsDocComment t) :
    IsDocComment (replacement o source ⟨before, t⟩) := by
  unfold replacement
  split
  · exact h
  · cases hformat : DocComment.format o (DocComment.indent ⟨before, t⟩) t with
    | none => exact h
    | some formatted =>
      exact DocComment.format_isDocComment hunit (DocComment.allBlank_indent _) h hformat

/-- The formatted text of a file has the code of the file between its new doc comments. -/
theorem segments_replacement {o : Options} (hunit : ∀ c ∈ o.indentUnit, isBlank c = true)
    {source : Text} (hterminated : ∀ c ∈ docComments source, Terminated c.text) :
    segments ((replaceDocs (replacement o source) [] (segments source)).flatMap Segment.text) =
      replaceDocs (replacement o source) [] (segments source) := by
  refine segments_replaceDocs (fun before _ => replacement_isDocComment hunit source before) ?_
  intro t ht
  obtain ⟨c, hc, rfl⟩ := exists_mem_docCommentsAfter ht
  exact hterminated c hc

/-- Formatting a file never fails. The formatted text has the code of the file with a new text for
each doc comment, and read again it has just these doc comments. -/
theorem ofSource_replaces_docs {o : Options} (hunit : ∀ c ∈ o.indentUnit, isBlank c = true)
    (path : Text) {source : Text} (hterminated : ∀ c ∈ docComments source, Terminated c.text) :
    ∃ report, ofSource o path source = .ok report ∧
      report.formatted =
        (replaceDocs (replacement o source) [] (segments source)).flatMap Segment.text ∧
      segments report.formatted = replaceDocs (replacement o source) [] (segments source) ∧
      (docComments report.formatted).map DocComment.text =
        (docComments source).map (replacement o source) := by
  have hsegments := segments_replacement hunit hterminated
  refine ⟨_, by rw [ofSource, apply_editsOf]; rfl, rfl, hsegments, ?_⟩
  rw [docComments, hsegments]
  exact docTexts_replaceDocs _ _ _ _

/-- Two doc comments on one line: the first is written anew, the second asks to be kept. -/
theorem ofSource_replaces_docs_kept :
    let source := "<?php /** @var  int|null */ /**  phpdoc-fmt-ignore */ f();".toList
    let docs := ["/** @var null | int */".toList, "/**  phpdoc-fmt-ignore */".toList]
    (∀ c ∈ docComments source, Terminated c.text) ∧
      ∃ report, ofSource {} [] source = .ok report ∧
        report.formatted =
          "<?php /** @var null | int */ /**  phpdoc-fmt-ignore */ f();".toList ∧
        (docComments report.formatted).map DocComment.text = docs := by
  intro source docs
  have hsegments : segments source =
      [.code "<?php ".toList, .doc "/** @var  int|null */".toList, .code [' '],
        .doc "/**  phpdoc-fmt-ignore */".toList, .code " f();".toList] := by
    with_unfolding_all rfl
  have hrewritten : replacement {} source ⟨"<?php ".toList, "/** @var  int|null */".toList⟩ =
      "/** @var null | int */".toList := by
    with_unfolding_all rfl
  have hkept (before : Text) : replacement {} source ⟨before, "/**  phpdoc-fmt-ignore */".toList⟩ =
      "/**  phpdoc-fmt-ignore */".toList := if_pos rfl
  have hterminated : ∀ c ∈ docComments source, Terminated c.text := by
    rw [docComments, hsegments]
    unfold Terminated
    decide
  obtain ⟨report, hreport, hformatted, -, hdocs⟩ :=
    ofSource_replaces_docs (o := {}) (by decide) [] hterminated
  rw [hsegments] at hformatted
  rw [docComments, docComments, hsegments] at hdocs
  refine ⟨hterminated, report, hreport, hformatted.trans ?_, hdocs.trans ?_⟩
  · simp only [replaceDocs, List.nil_append, hrewritten, hkept]
    rfl
  · simp only [docCommentsAfter, List.map_cons, List.nil_append, hrewritten, hkept]
    rfl

end Report

end Docblock
