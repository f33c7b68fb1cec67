import Docblock.Proofs.Source.Lexing
import Docblock.Proofs.Source.Splice

/-!
# The segments of a file with other doc comments

If each doc comment of a file is replaced by a text that is a doc comment again, the new file has
the same code between the same number of doc comments (`segments_replaceDocs`). The induction
follows the lexical steps of the old file; the step before a comment is the same in the new one
because it looks no further than the comment's opening mark.

A doc comment that is a comment again begins with `/**`, holds a closing mark at its end and holds
none before (`IsDocComment`). That is asked of every replacement, and of the comments of the old
file (`Terminated`): a comment that runs to the end of the file without a closing mark could swallow
code once something is written after it, and such files are left out here.

The rules of the lexer do not appear in the induction. Between comments it needs `step_congr`, at a
comment `step_isDocComment`, and both come from `Docblock.Proofs.Source.Lexing`.
-/

namespace Docblock.Source

open Text

/-- A doc comment that is closed at its end and nowhere before. -/
def IsDocComment (t : Text) : Prop := ∃ m, t = docStart m ∧ Closed ('*' :: m)

/-- The doc comment has its closing mark, which is not part of the opening one. -/
def Terminated (t : Text) : Prop := ['*', '/'] <:+ t.drop 2

/-- A step that takes a doc comment begins with its opening mark, and stays in the code. -/
theorem eq_of_isDoc_step {state : State} {s : Text} (h : (step state s).isDoc = true) :
    ∃ r, s = docStart r ∧ state.mode = .code ∧
      step state s = ⟨1 + through "*/".toList ('*' :: r), state, true⟩ := by
  obtain ⟨mode, stack⟩ := state
  cases mode with
  | outside =>
    simp only [step, stepOutside] at h
    split at h
    · simp at h
    · split at h <;> simp at h
  | quoted quote =>
    simp only [step, stepQuoted] at h
    split at h <;> simp at h
  | heredoc label raw lineStart =>
    simp only [step] at h
    split at h
    · simp at h
    · unfold stepHeredoc at h
      simp only at h
      split at h <;> first | (split at h <;> simp at h) | simp at h
  | code =>
    simp only [step, stepCode] at h
    split at h
    -- the case of a comment that begins with a slash and a star
    case h_2 r =>
      simp only [decide_eq_true_eq] at h
      obtain ⟨r', rfl⟩ := List.head?_eq_some_iff.1 h
      exact ⟨r', rfl, rfl, rfl⟩
    all_goals first | (split at h <;> simp at h) | simp at h

/-- A closed doc comment is taken whole, whatever follows it. -/
theorem step_isDocComment {state : State} (hcode : state.mode = .code) {m : Text}
    (hm : Closed ('*' :: m)) (k : Text) :
    step state (docStart m ++ k) = ⟨2 + m.length, state, true⟩ := by
  obtain ⟨mode, stack⟩ := state
  obtain rfl : mode = .code := hcode
  have hthrough := hm.through k
  rw [List.cons_append] at hthrough
  simp only [step, docStart, List.cons_append, stepCode, hthrough, List.length_cons,
    List.head?_cons, decide_true, Step.mk.injEq, and_true]
  omega

/-- Code in front of segments brings no doc comment along. -/
@[simp] theorem doc_mem_prependCode {t text : Text} {rest : List Segment} :
    .doc t ∈ prependCode text rest ↔ .doc t ∈ rest := by
  unfold prependCode
  split <;> simp

/-- A doc segment is its opening mark, and what follows through the first closing mark. -/
theorem exists_eq_of_doc_mem {state : State} {s t : Text} (h : .doc t ∈ segmentsFrom state s) :
    ∃ r, t = '/' :: '*' :: ('*' :: r).take (through "*/".toList ('*' :: r)) := by
  fun_induction segmentsFrom state s with
  | case1 => simp at h
  | case2 state c r next taken rest hdoc ih =>
    rcases List.mem_cons.1 h with heq | hmem
    · obtain ⟨r', hs, -, hstep⟩ := eq_of_isDoc_step hdoc
      obtain ⟨rfl, rfl⟩ := List.cons.inj hs
      refine ⟨r', ?_⟩
      rw [Segment.doc.inj heq]
      show '/' :: List.take (step state _).extra _ = _
      rw [hstep, Nat.add_comm, List.take_succ_cons]
    · exact ih hmem
  | case3 state c r next taken rest hcode ih => exact ih (doc_mem_prependCode.1 h)

/-- A doc segment that is terminated is closed at its end and nowhere before. -/
theorem isDocComment_of_mem {state : State} {s t : Text} (h : .doc t ∈ segmentsFrom state s)
    (ht : Terminated t) : IsDocComment t := by
  obtain ⟨r, htaken⟩ := exists_eq_of_doc_mem h
  have hclosed : Closed (('*' :: r).take (through "*/".toList ('*' :: r))) := by
    rcases through_spec ('*' :: r) with ⟨hopen, hlength⟩ | hclosed
    · rw [htaken, hlength, List.take_length] at ht
      exact absurd ht.isInfix hopen
    · exact hclosed
  cases hlength : through "*/".toList ('*' :: r) with
  | zero =>
    rw [hlength] at hclosed
    obtain ⟨b, hb, -⟩ := hclosed
    simp at hb
  | succ n =>
    rw [hlength] at htaken hclosed
    exact ⟨r.take n, htaken, hclosed⟩

/-! ## Replacing doc comments -/

/-- Code in front of segments moves the places of the doc comments, and changes nothing else. -/
theorem replaceDocs_prependCode (f : DocComment → Text) (before text : Text)
    (rest : List Segment) :
    replaceDocs f before (prependCode text rest) =
      prependCode text (replaceDocs f (before ++ text) rest) := by
  cases rest with
  | nil => rfl
  | cons segment rest =>
    cases segment with
    | code code => simp [prependCode, replaceDocs]
    | doc doc => rfl

/-- Without doc comments nothing is replaced. -/
theorem replaceDocs_of_no_doc (f : DocComment → Text) {rest : List Segment}
    (h : ∀ t, .doc t ∉ rest) (before : Text) : replaceDocs f before rest = rest := by
  induction rest generalizing before with
  | nil => rfl
  | cons segment rest ih =>
    cases segment with
    | code code =>
      rw [replaceDocs, ih fun t ht => h t (List.mem_cons_of_mem _ ht)]
    | doc doc => exact absurd List.mem_cons_self (h doc)

/-- Up to the opening mark of the first doc comment the texts of old and new segments agree. -/
theorem exists_docStart {f : DocComment → Text} {rest : List Segment}
    (hdocs : ∀ t, .doc t ∈ rest → IsDocComment t)
    (hf : ∀ before t, IsDocComment t → IsDocComment (f ⟨before, t⟩)) (before : Text) {t : Text}
    (ht : .doc t ∈ rest) :
    ∃ a x y, rest.flatMap Segment.text = a ++ docStart x ∧
      (replaceDocs f before rest).flatMap Segment.text = a ++ docStart y := by
  induction rest generalizing before with
  | nil => simp at ht
  | cons segment rest ih =>
    cases segment with
    | code code =>
      have ht' : .doc t ∈ rest := by simpa using ht
      obtain ⟨a, x, y, hx, hy⟩ :=
        ih (fun t ht => hdocs t (List.mem_cons_of_mem _ ht)) (before ++ code) ht'
      refine ⟨code ++ a, x, y, ?_, ?_⟩
      · rw [List.flatMap_cons, hx, List.append_assoc]
        rfl
      · rw [replaceDocs, List.flatMap_cons, hy, List.append_assoc]
        rfl
    | doc doc =>
      -- here the old and the new text part, behind the opening mark of both
      have hdoc := hdocs doc List.mem_cons_self
      obtain ⟨m', hm', -⟩ := hf before doc hdoc
      obtain ⟨m, rfl, -⟩ := hdoc
      refine ⟨[], m ++ rest.flatMap Segment.text,
        m' ++ (replaceDocs f (before ++ docStart m) rest).flatMap Segment.text, ?_, ?_⟩
      · simp [Segment.text]
      · rw [replaceDocs, List.flatMap_cons, hm']
        rfl

/-- The segments of a text whose first step is known. -/
theorem segmentsFrom_cons {state : State} {c : Char} {a s : Text} {next : Step}
    (hstep : step state (c :: (a ++ s)) = next) (hlength : a.length = next.extra) :
    segmentsFrom state (c :: (a ++ s)) =
      if next.isDoc then .doc (c :: a) :: segmentsFrom next.state s
      else prependCode (c :: a) (segmentsFrom next.state s) := by
  rw [segmentsFrom, hstep, ← hlength, List.take_left, List.drop_left]

/-- With other doc comments in place of its own, a text has the same segments with these. -/
theorem segmentsFrom_replaceDocs {f : DocComment → Text}
    (hf : ∀ before t, IsDocComment t → IsDocComment (f ⟨before, t⟩)) {state : State}
    (hstate : state.Labelled) (s before : Text)
    (hdocs : ∀ t, .doc t ∈ segmentsFrom state s → Terminated t) :
    segmentsFrom state ((replaceDocs f before (segmentsFrom state s)).flatMap Segment.text) =
      replaceDocs f before (segmentsFrom state s) := by
  fun_induction segmentsFrom state s generalizing before with
  | case1 => rw [replaceDocs, List.flatMap_nil, segmentsFrom]
  | case2 state c r next taken rest hdoc ih =>
    have hsegments : segmentsFrom state (c :: r) = .doc taken :: rest := by
      rw [segmentsFrom, if_pos hdoc]
    have htaken : IsDocComment taken :=
      isDocComment_of_mem (by rw [hsegments]; exact List.mem_cons_self)
        (hdocs taken List.mem_cons_self)
    obtain ⟨r', -, hmode, hstep⟩ := eq_of_isDoc_step hdoc
    have hnext : next.state = state := congrArg Step.state hstep
    obtain ⟨m, hm, hclosed⟩ := hf before taken htaken
    have hrest : segmentsFrom next.state
        ((replaceDocs f (before ++ taken) rest).flatMap Segment.text) =
          replaceDocs f (before ++ taken) rest :=
      ih (hnext ▸ hstate) (before ++ taken) fun t ht => hdocs t (List.mem_cons_of_mem _ ht)
    -- the new comment is taken whole by one step, so the rest is read in the same state
    rw [hnext] at hrest
    rw [replaceDocs, List.flatMap_cons]
    show segmentsFrom state (f ⟨before, taken⟩ ++ _) = _
    rw [hm]
    have hdocStep := step_isDocComment hmode hclosed
      ((replaceDocs f (before ++ taken) rest).flatMap Segment.text)
    refine (segmentsFrom_cons (a := '*' :: '*' :: m) hdocStep ?_).trans ?_
    · simp
      omega
    · simp only [if_true]
      rw [hrest]
  | case3 state c r next taken rest hcode ih =>
    have hrest : segmentsFrom next.state
        ((replaceDocs f (before ++ taken) rest).flatMap Segment.text) =
          replaceDocs f (before ++ taken) rest :=
      ih (labelled_step hstate _) (before ++ taken) fun t ht => hdocs t (doc_mem_prependCode.2 ht)
    have htext : rest.flatMap Segment.text = r.drop next.extra := flatMap_text_segmentsFrom _ _
    rw [replaceDocs_prependCode, flatMap_text_prependCode]
    -- without another comment nothing changes behind the step, and it need not stop early
    by_cases hany : ∃ t, .doc t ∈ rest
    · obtain ⟨t, ht⟩ := hany
      obtain ⟨a, x, y, hx, hy⟩ := exists_docStart (fun t ht =>
        isDocComment_of_mem ht (hdocs t (doc_mem_prependCode.2 ht))) hf (before ++ taken) ht
      have hr : r.take next.extra ++ a ++ docStart x = r := by
        rw [List.append_assoc, ← hx, htext, List.take_append_drop]
      have hlength : (r.take next.extra).length = next.extra := by
        have hdrop := congrArg List.length (htext.symm.trans hx)
        simp only [List.length_drop, List.length_append, List.length_cons] at hdrop
        rw [List.length_take]
        omega
      -- the step reads the old text no further than the comment's opening mark
      have hstep : step state (c :: (r.take next.extra ++ a ++ docStart y)) = next := by
        have hsame : step state (c :: (r.take next.extra ++ a ++ docStart x)) = next := by rw [hr]
        rw [step_congr hstate c _ y, hsame]
        rw [hsame, List.length_append]
        omega
      rw [List.append_assoc] at hstep
      rw [hy]
      show segmentsFrom state (c :: (r.take next.extra ++ (a ++ docStart y))) = _
      rw [segmentsFrom_cons hstep hlength, if_neg hcode, ← hy, hrest]
    · have hnone : ∀ t, .doc t ∉ rest := fun t ht => hany ⟨t, ht⟩
      rw [replaceDocs_of_no_doc f hnone, htext]
      show segmentsFrom state (c :: (r.take next.extra ++ r.drop next.extra)) = _
      rw [List.take_append_drop, segmentsFrom, if_neg hcode]

/-- With other doc comments in place of its own, a file has the same segments with these. -/
theorem segments_replaceDocs {f : DocComment → Text}
    (hf : ∀ before t, IsDocComment t → IsDocComment (f ⟨before, t⟩)) {source : Text}
    (hdocs : ∀ t, .doc t ∈ segments source → Terminated t) :
    segments ((replaceDocs f [] (segments source)).flatMap Segment.text) =
      replaceDocs f [] (segments source) := by
  have hstate : State.Labelled ⟨.outside, []⟩ := ⟨trivial, by simp⟩
  exact segmentsFrom_replaceDocs hf hstate source [] hdocs

end Docblock.Source
