import Docblock.Proofs.Text.Offsets
import Docblock.Report

/-!
# The edits of a file as a new row of segments

The edits that replace doc comments are given by byte offsets. Applied to the file they lead to the
file's segments with other texts for the doc comments, and nothing else is touched
(`apply_editsOf`): the offsets fall on the borders of segments, the edits are in order, and no two
of them share bytes.

The induction goes along the segments and carries two texts: what the pass has put out already
(`done`) and the code that it has looked past since (`kept`). An edit that would change nothing is
not among the edits, so a comment that keeps its text is kept as if it were code, and joins `kept`.
That the edits are in order, which makes sorting them do nothing, follows from the places of the
comments (`pairwise_editsAfter`).

Edits of other origin are the subject of `Docblock.Proofs.Edit.Simultaneous`, where neither order
nor disjointness is given.
-/

namespace Docblock

open Text

namespace Report

/-- The text that takes the place of a doc comment. -/
def replacement (o : Options) (source : Text) (c : DocComment) : Text :=
  if Ignore.comment source c.text then c.text
  else ((DocComment.format o c.indent c.text).map DocComment.Formatted.text).getD c.text

/-- The new form of a doc comment, if it is written anew. -/
def rewritten? (o : Options) (source : Text) (c : DocComment) :
    Option (DocComment × DocComment.Formatted) :=
  if Ignore.comment source c.text then none
  else (DocComment.format o c.indent c.text).map fun formatted => (c, formatted)

/-- The edit that puts the new form of a doc comment in its place. -/
def editTo (c : DocComment) (formatted : DocComment.Formatted) : Edit :=
  ⟨c.start, c.stop, formatted.text⟩

/-- A doc comment that is written anew is not ignored, and is formatted. -/
theorem of_rewritten?_eq_some {o : Options} {source : Text} {c d : DocComment}
    {formatted : DocComment.Formatted} (h : rewritten? o source c = some (d, formatted)) :
    d = c ∧ ¬ Ignore.comment source c.text = true ∧
      DocComment.format o c.indent c.text = some formatted := by
  unfold rewritten? at h
  split at h
  · exact nomatch h
  · next hkept =>
    obtain ⟨formatted', hformat, heq⟩ := Option.map_eq_some_iff.1 h
    cases heq
    exact ⟨rfl, hkept, hformat⟩

/-- A file that is ignored as a whole has no doc comment written anew, as if each of them were
ignored. -/
theorem reformatted_eq_filterMap (o : Options) (source : Text) :
    reformatted o source = (Source.docComments source).filterMap (rewritten? o source) := by
  unfold reformatted rewritten? Ignore.comment
  cases Ignore.wholeFile source <;> simp

end Report

namespace Source

/-- Segments that stand after the text `before`, with another text for each doc comment. -/
def replaceDocs (f : DocComment → Text) (before : Text) : List Segment → List Segment
  | [] => []
  | .code text :: rest => .code text :: replaceDocs f (before ++ text) rest
  | .doc text :: rest => .doc (f ⟨before, text⟩) :: replaceDocs f (before ++ text) rest

/-- The doc comments keep their number and their order. -/
theorem docTexts_replaceDocs (f : DocComment → Text) (before before' : Text)
    (segments : List Segment) :
    (docCommentsAfter before' (replaceDocs f before segments)).map DocComment.text =
      (docCommentsAfter before segments).map f := by
  induction segments generalizing before before' with
  | nil => rfl
  | cons segment segments ih =>
    cases segment with
    | code text => exact ih (before ++ text) (before' ++ text)
    | doc text =>
      simp only [replaceDocs, docCommentsAfter, List.map_cons, ih (before ++ text)]

end Source

open Source

namespace Report

variable {o : Options} {source : Text}

/-- The edits of the doc comments among segments that stand after the text `before`. -/
def editsAfter (o : Options) (source before : Text) (segments : List Segment) : List Edit :=
  (((docCommentsAfter before segments).filterMap (rewritten? o source)).map
    fun (c, formatted) => editTo c formatted).filter fun e => !e.isNoop source

/-- The edits of a file are those of its segments, from the front. -/
theorem editsOf_eq_editsAfter : editsOf o source = editsAfter o source [] (segments source) := by
  rw [editsOf, reformatted_eq_filterMap]
  rfl

/-- Code has no edits, but moves what comes after it. -/
theorem editsAfter_code (before text : Text) (rest : List Segment) :
    editsAfter o source before (.code text :: rest) = editsAfter o source (before ++ text) rest :=
  rfl

/-- A doc comment that is written anew with another text gives one edit, every other none. -/
theorem editsAfter_doc (o : Options) {before text : Text} {rest : List Segment}
    (hsource : source = before ++ (.doc text :: rest).flatMap Segment.text) :
    (replacement o source ⟨before, text⟩ = text ∧
      editsAfter o source before (.doc text :: rest) =
        editsAfter o source (before ++ text) rest) ∨
    editsAfter o source before (.doc text :: rest) =
      ⟨byteSize before, byteSize before + byteSize text, replacement o source ⟨before, text⟩⟩ ::
        editsAfter o source (before ++ text) rest := by
  cases hrewritten : rewritten? o source ⟨before, text⟩ with
  | none =>
    refine .inl ⟨?_, ?_⟩
    · unfold rewritten? at hrewritten
      unfold replacement
      split at hrewritten
      · next hkept => rw [if_pos hkept]
      · next hkept =>
        rw [if_neg hkept, Option.map_eq_none_iff.1 hrewritten]
        rfl
    · simp [editsAfter, docCommentsAfter, hrewritten]
  | some pair =>
    obtain ⟨c, formatted⟩ := pair
    obtain ⟨rfl, hkept, hformat⟩ := of_rewritten?_eq_some hrewritten
    have hreplacement : replacement o source ⟨before, text⟩ = formatted.text := by
      rw [replacement, if_neg hkept, hformat]
      rfl
    have hslice :
        slice? (byteSize before) (byteSize before + byteSize text) source = some text := by
      rw [hsource, List.flatMap_cons]
      exact slice?_append before text _
    have hnoop : (editTo ⟨before, text⟩ formatted).isNoop source = (text == formatted.text) := by
      show (slice? (byteSize before) (byteSize before + byteSize text) source ==
        some formatted.text) = _
      rw [hslice]
      rfl
    -- an edit that changes nothing is dropped before the edits are applied
    by_cases hsame : text = formatted.text
    · refine .inl ⟨hreplacement.trans hsame.symm, ?_⟩
      have hdrop : (editTo ⟨before, text⟩ formatted).isNoop source = true := by
        rw [hnoop]
        exact beq_iff_eq.2 hsame
      simp [editsAfter, docCommentsAfter, hrewritten, hdrop]
    · refine .inr ?_
      have hkeep : (editTo ⟨before, text⟩ formatted).isNoop source = false := by
        rw [hnoop]
        exact beq_eq_false_iff_ne.2 hsame
      rw [hreplacement]
      simp only [editsAfter, docCommentsAfter, List.filterMap_cons, hrewritten, List.map_cons,
        List.filter_cons, hkeep]
      rfl

/-- Each edit starts behind the text before the segments, and ends behind its start. -/
theorem bounds_of_mem_editsAfter {before : Text} {segments : List Segment} {e : Edit}
    (he : e ∈ editsAfter o source before segments) :
    byteSize before ≤ e.start ∧ e.start ≤ e.stop := by
  obtain ⟨hmem, -⟩ := List.mem_filter.1 he
  obtain ⟨⟨c, formatted⟩, hpair, rfl⟩ := List.mem_map.1 hmem
  obtain ⟨d, hd, hrewritten⟩ := List.mem_filterMap.1 hpair
  obtain ⟨rfl, -⟩ := of_rewritten?_eq_some hrewritten
  refine ⟨?_, by simp [editTo, DocComment.stop]⟩
  clear hrewritten hpair hmem he
  show byteSize before ≤ byteSize c.before
  induction segments generalizing before with
  | nil => simp [docCommentsAfter] at hd
  | cons segment segments ih =>
    cases segment with
    | code text =>
      have := ih hd
      rw [byteSize_append] at this
      omega
    | doc text =>
      rcases List.mem_cons.1 hd with rfl | hd
      · exact Nat.le_refl _
      · have := ih hd
        rw [byteSize_append] at this
        omega

/-- The edits are in the order in which they are applied. -/
theorem pairwise_editsAfter {before : Text} {segments : List Segment}
    (hsource : source = before ++ segments.flatMap Segment.text) :
    (editsAfter o source before segments).Pairwise fun a b => Edit.le a b = true := by
  induction segments generalizing before with
  | nil => exact .nil
  | cons segment segments ih =>
    cases segment with
    | code text => exact ih (by simpa [Segment.text] using hsource)
    | doc text =>
      have hrest : (editsAfter o source (before ++ text) segments).Pairwise _ :=
        ih (by simpa [Segment.text] using hsource)
      rcases editsAfter_doc o hsource with ⟨-, heq⟩ | heq
      · rw [heq]
        exact hrest
      · rw [heq]
        refine .cons (fun e he => ?_) hrest
        obtain ⟨hstart, hstop⟩ := bounds_of_mem_editsAfter he
        rw [byteSize_append] at hstart
        simp only [Edit.le, Bool.or_eq_true, decide_eq_true_eq, Bool.and_eq_true, beq_iff_eq]
        omega

/-- From a border on, the edits make the text up to the segments and the segments with their new
texts. -/
theorem applyFrom_editsAfter (done kept : Text) {segments : List Segment}
    (hsource : source = done ++ kept ++ segments.flatMap Segment.text) :
    Edit.applyFrom source (byteSize done) (editsAfter o source (done ++ kept) segments) =
      .ok (kept ++ (replaceDocs (replacement o source) (done ++ kept) segments).flatMap
        Segment.text) := by
  induction segments generalizing done kept with
  | nil =>
    have hsplit : splitAtByte? (byteSize done) source = some (done, kept) := by
      rw [hsource]
      simpa using splitAtByte?_append done kept
    show Edit.applyFrom source (byteSize done) [] = _
    simp [Edit.applyFrom, hsplit, replaceDocs]
  | cons segment segments ih =>
    cases segment with
    | code text =>
      have hkeep := ih done (kept ++ text) (by simpa [Segment.text] using hsource)
      simpa [editsAfter_code, replaceDocs, Segment.text] using hkeep
    | doc text =>
      rcases editsAfter_doc o hsource with ⟨hsame, heq⟩ | heq
      -- a doc comment that is not edited is kept like code
      · have hkeep := ih done (kept ++ text) (by simpa [Segment.text] using hsource)
        rw [heq]
        simpa [replaceDocs, Segment.text, hsame] using hkeep
      -- the border moves behind the comment that is replaced, and nothing is kept yet behind it
      · have hnext := ih (done ++ kept ++ text) [] (by simpa [Segment.text] using hsource)
        have hslice :
            slice? (byteSize done) (byteSize done + byteSize kept) source = some kept := by
          rw [hsource, List.append_assoc, slice?_append]
        have hle : ¬ byteSize done + byteSize kept < byteSize done := by omega
        simp only [List.append_nil, byteSize_append] at hnext
        rw [heq]
        simp only [Edit.applyFrom, byteSize_append, hle, if_false, hslice, hnext]
        simp [replaceDocs, Segment.text, bind, Except.bind, pure, Except.pure]

/-- The edits of a file lead to its segments with new texts for the doc comments. -/
theorem apply_editsOf (o : Options) (source : Text) :
    Edit.apply source (editsOf o source) =
      .ok ((replaceDocs (replacement o source) [] (segments source)).flatMap Segment.text) := by
  have hsource : source = [] ++ (segments source).flatMap Segment.text := by
    simp [flatMap_text_segments]
  have hbounds : (editsOf o source).all (fun e => e.start ≤ e.stop) = true := by
    rw [editsOf_eq_editsAfter, List.all_eq_true]
    intro e he
    simpa using (bounds_of_mem_editsAfter he).2
  rw [Edit.apply, if_pos hbounds, editsOf_eq_editsAfter,
    List.mergeSort_of_pairwise (pairwise_editsAfter hsource)]
  exact applyFrom_editsAfter [] [] hsource

end Report

end Docblock
