import Docblock.Proofs.Comment.Tags
import Docblock.Proofs.TypeExpr.Boundary

/-!
# A tag with a type is read back from its lines

The description of a tag goes on behind the type. Set anew it has the same words, so it does not go
on with the type in a way in which the old one did not, and the type is read back from its lines as
the arranged tree. That tree has the same lines at every level, the first word behind them is the
same, and so the same level is chosen again.

Three things have to be the same the second time: the text at the front that is read as the type,
the type's lines at each level, and the level. The first is by the reader's own law for printed
types (`Docblock.Proofs.TypeExpr.RoundTrip`), which asks that the text behind the type does not go
on with it; with plain white space that can be seen from its first word (`EndsBefore.of_words`). The
second is that arranging an arranged tree changes nothing. The third is that the first word behind
the type, and nothing else of the description, has a say in the level.

A description that begins with a brace is left out by hypothesis, for a type that did not have it
may take it as a shape after its `null` has moved. A literal with a line feed is left out as well.
-/

namespace Docblock

open Text

/-! ## What stands behind a type -/

/-- Any predicate that tells spaces, tabs and line feeds trims a text of plain white space. -/
theorem dropWhile_eq_trimStart {p : Char → Bool} (hp : ∀ c, p c = true → isBlank c = true)
    (hpos : p ' ' = true ∧ p '\t' = true ∧ p '\n' = true) {s : Text} (hs : PlainBlanks s) :
    s.dropWhile p = trimStart s := by
  have hsame : ∀ c ∈ s, p c = isBlank c := by
    intro c hc
    cases hblank : isBlank c with
    | true => rcases hs c hc hblank with rfl | rfl | rfl <;> simp [hpos]
    | false =>
      rw [← Bool.not_eq_true]
      intro hpc
      rw [hp c hpc] at hblank
      cases hblank
  exact dropWhile_congr hsame

/-- What the reader of types skips is white space. -/
theorem isBlank_of_isLayout {c : Char} (h : Token.isLayout c = true) : isBlank c = true := by
  simp only [Token.isLayout, Bool.or_eq_true, beq_iff_eq] at h
  rcases h with ((rfl | rfl) | rfl) | rfl <;> decide

/-- In plain white space the reader of types skips all of it. -/
theorem skip_eq_trimStart {s : Text} (hs : PlainBlanks s) : Token.skip s = trimStart s :=
  dropWhile_eq_trimStart (fun _ => isBlank_of_isLayout) (by decide) hs

/-- Marks hold no white space. -/
theorem Mark.not_isBlank_text (m : Mark) : ∀ c ∈ m.text, isBlank c = false := by
  cases m <;> decide

/-- Whether a mark stands at the front of a text can be seen from its first word. -/
theorem Mark.absent_iff_words {m : Mark} {s : Text} (hs : PlainBlanks s) :
    m.Absent s ↔ ∀ w ∈ (words s).head?, ¬ m.text <+: w := by
  rw [Mark.Absent, skip_eq_trimStart hs]
  cases hblank : allBlank s with
  | true =>
    have hstart := trimStart_eq_nil_iff.2 hblank
    have hpos := m.text_length_pos
    rw [hstart, words_of_allBlank hblank]
    simp only [List.head?_nil, Option.not_mem_none, false_implies, implies_true, iff_true,
      List.prefix_nil]
    rintro htext
    simp [htext] at hpos
  | false =>
    rw [words_eq_cons hblank]
    simp only [List.head?_cons, Option.mem_some_iff, forall_eq']
    refine not_congr ⟨?_, fun h => h.trans (firstWord_prefix_self _)⟩
    rintro ⟨k, hk⟩
    have hletters : ∀ c ∈ m.text, (!isBlank c) = true := by simpa using m.not_isBlank_text
    rw [firstWord, ← hk, List.takeWhile_append_of_pos hletters]
    exact List.prefix_append _ _

/-- A text with the same words does not go on with a type where the other does not. -/
theorem EndsBefore.of_words {t : TypeExpr} {r k : Text} (h : EndsBefore .top t r)
    (hr : PlainBlanks r) (hk : PlainBlanks k) (hwords : words k = words r) :
    EndsBefore .top t k := by
  refine h.imp fun m hm => ?_
  rw [Mark.absent_iff_words hk, hwords]
  exact (Mark.absent_iff_words hr).1 hm

/-- Plain texts put together are plain. -/
theorem plainBlanks_append {a b : Text} (ha : PlainBlanks a) (hb : PlainBlanks b) :
    PlainBlanks (a ++ b) := by
  intro c hc
  rcases List.mem_append.1 hc with hc | hc
  · exact ha c hc
  · exact hb c hc

/-- Parts of a plain text are plain, and so are plain lines joined by line feeds. -/
theorem handed_plainBlanks : Handed PlainBlanks where
  part := fun hu h c hc => hu c (h.subset hc)
  unpieces := by
    intro ls hls
    cases ls with
    | nil => simp [unpieces, PlainBlanks]
    | cons l ls =>
      obtain ⟨hl, hls⟩ := List.forall_mem_cons.1 hls
      rw [unpieces_cons]
      refine plainBlanks_append hl fun c hc hblank => ?_
      obtain ⟨k, hk, hc⟩ := List.mem_flatMap.1 hc
      rcases List.mem_cons.1 hc with rfl | hc
      · exact .inr (.inr rfl)
      · exact hls k hk c hc hblank

/-! ## Lines of a type with words behind them -/

/-- A line of a type with words behind it is like one without. -/
theorem TypeLine.append_spaced {l : Text} (h : TypeLine l) {ws : List Text}
    (hws : ∀ w ∈ ws, Unbroken w) : TypeLine (l ++ spaced ws) where
  trimmed := trimEnd_append_spaced h.trimmed hws
  allBlank := by simp [h.allBlank]
  lf_not_mem := by simp [h.lf_not_mem, lf_not_mem_spaced hws]
  noTag := h.noTag.append_of_full h.allBlank _

/-- A line is no tag if it begins with no `@`. -/
theorem Comment.tagLine?_eq_none_iff_beginsNoTag {l : Text} :
    Comment.tagLine? l = none ↔ BeginsNoTag l := by
  rw [Comment.tagLine?_eq_none_iff, BeginsNoTag, head?_trim_eq]

/-- A loose line does not begin a tag. -/
theorem Comment.Loose.beginsNoTag {l : Text} (h : Comment.Loose l) : BeginsNoTag l :=
  Comment.tagLine?_eq_none_iff_beginsNoTag.1 h.tagLine?

/-- A line of a type is a loose line. -/
theorem TypeLine.loose {l : Text} (h : TypeLine l) : Comment.Loose l where
  trimmed := h.trimmed
  lf_not_mem := h.lf_not_mem
  tagLine? := Comment.tagLine?_eq_none_iff_beginsNoTag.2 h.noTag

namespace Comment

/-- A line with a word more has one space more. -/
theorem plainBlanks_appendWord (line word : Text) (hline : PlainBlanks line)
    (hword : PlainBlanks word) : PlainBlanks (appendWord line word) := by
  unfold appendWord
  split
  · exact plainBlanks_append hline hword
  · refine plainBlanks_append hline (plainBlanks_append (a := [' ']) ?_ hword)
    simp [PlainBlanks]

/-- Words behind spaces are plain. -/
theorem plainBlanks_spaced {ws : List Text} (hws : ∀ w ∈ ws, Unbroken w) :
    PlainBlanks (spaced ws) := by
  intro c hc hblank
  obtain ⟨w, hw, hc⟩ := List.mem_flatMap.1 hc
  rcases List.mem_cons.1 hc with rfl | hc
  · exact .inl rfl
  · rw [(hws w hw).not_isBlank c hc] at hblank
    cases hblank

/-- The words behind a type, and the lines that are made of the others and of more paragraphs. -/
theorem plainBlanks_madeLines {o : Options} {ws vs paragraphs : List Text}
    (hws : ∀ w ∈ ws, Unbroken w) (hvs : ∀ w ∈ vs, Unbroken w)
    (h : ∀ p ∈ paragraphs, PlainBlanks p) :
    PlainBlanks (spaced ws ++ (collapseBlank false
      (fillRest o vs ++ paragraphs.flatMap (fillParagraph o []))).flatMap ('\n' :: ·)) := by
  have hnil : PlainBlanks [] := by simp [PlainBlanks]
  rw [← unpieces_cons]
  refine handed_plainBlanks.unpieces (List.forall_mem_cons.2 ⟨plainBlanks_spaced hws, ?_⟩)
  intro l hl
  rcases mem_of_mem_collapseBlank hl with rfl | hl
  · exact hnil
  rcases List.mem_append.1 hl with hl | hl
  · refine has_of_mem_fillRest handed_plainBlanks.part plainBlanks_appendWord
      (fun w hw c hc hblank => ?_) l hl
    rw [(hvs w hw).not_isBlank c hc] at hblank
    cases hblank
  · obtain ⟨p, hp, hl⟩ := List.mem_flatMap.1 hl
    exact has_of_mem_fillParagraph handed_plainBlanks.part plainBlanks_appendWord hnil (h p hp) l hl

/-- The lines that are made of a description have its words, in order. -/
theorem flatMap_words_madeLines {o : Options} {vs : List Text} (hvs : ∀ w ∈ vs, Unbroken w)
    {paragraphs : List Text} :
    (collapseBlank false (fillRest o vs ++ paragraphs.flatMap (fillParagraph o []))).flatMap words =
      vs ++ paragraphs.flatMap words := by
  rw [flatMap_words_collapseBlank, List.flatMap_append, flatMap_words_fillRest o hvs,
    List.flatMap_assoc]
  simp only [flatMap_words_fillParagraph]

/-! ## The lines of a tag with a type -/

/-- The first words of a description stand behind the last line of the type, and the others are
filled as they are without the type. -/
theorem typedLines_unpieces (o : Options) (name : Text) (type : TypeExpr) {first : Text}
    {rest : List Text} (hfirst : '\n' ∉ first) (hbegins : first = [] ∨ allBlank first = false)
    (hrest : ∀ l ∈ rest, '\n' ∉ l)
    (hseed : ∀ level, (headRow o name type level).getLast (headRow_ne_nil _ _ _ _) ≠ []) :
    typedLines o name (unpieces (first :: rest)) type =
      let row := headRow o name type (chooseLevel o name type (words first).head?)
      row.dropLast ++
        (fillWords o (row.getLast (headRow_ne_nil _ _ _ _) ++ spaced ((words first).take 1))
          ((words first).drop 1) ++ rest.flatMap (fillParagraph o [])) := by
  have hfill {seed first : Text} (hne : seed ≠ []) (hfirst : '\n' ∉ first) :
      fill o seed (unpieces (first :: rest)) =
        fillWords o seed (words first) ++ rest.flatMap (fillParagraph o []) := by
    rw [fill_unpieces o seed hfirst hrest, fillParagraph_of_ne_nil o hne]
  rw [typedLines_eq]
  -- without a word on the first line the type ends its line, and otherwise one word stands behind
  -- it
  rcases hbegins with rfl | hfull
  · rw [splitFirstWord_of_nil]
    simp only [withWord, words_nil, List.head?_nil, List.take_nil, List.drop_nil, spaced_nil,
      List.append_nil]
    rw [hfill (hseed _) (by simp)]
    rfl
  · have hafter : '\n' ∉ trimStart (afterFirstWord (trimStart first)) := fun hmem =>
      hfirst ((((trimStart_suffix _).trans (afterFirstWord_suffix _)).trans
        (trimStart_suffix first)).subset hmem)
    rw [splitFirstWord_of_full hfirst hfull, words_eq_cons hfull]
    simp only [withWord, List.head?_cons, List.take_succ_cons, List.take_zero, List.drop_succ_cons,
      List.drop_zero, spaced_cons, spaced_nil, List.append_nil]
    rw [hfill (by simp) hafter, words_trimStart]

/-! ## A text behind the last of several lines -/

/-- The lines with a text behind the last. -/
def hang (k : Text) : List Text → List Text
  | [] => [k]
  | [l] => [l ++ k]
  | l :: next :: ls => l :: hang k (next :: ls)

/-- Replacing the last of several lines by a longer one is hanging a text behind it. -/
theorem dropLast_append_getLast {ls : List Text} (h : ls ≠ []) (k : Text) :
    ls.dropLast ++ [ls.getLast h ++ k] = hang k ls := by
  induction ls with
  | nil => exact absurd rfl h
  | cons l ls ih =>
    cases ls with
    | nil => rfl
    | cons next ls => simpa [hang] using ih (by simp)

/-- The first line goes on as it was, and what stands in front of it stays there. -/
theorem exists_hang (k l : Text) (ls : List Text) :
    ∃ l' ls', l <+: l' ∧ ∀ a, hang k ((a ++ l) :: ls) = (a ++ l') :: ls' := by
  cases ls with
  | nil => exact ⟨l ++ k, [], List.prefix_append _ _, fun a => by simp [hang]⟩
  | cons next ls => exact ⟨l, hang k (next :: ls), List.prefix_refl l, fun a => rfl⟩

/-- A text that hangs behind the last line stands behind the joined lines. -/
theorem unpieces_hang_append (k l : Text) (ls rest : List Text) :
    unpieces (hang k (l :: ls) ++ rest) =
      unpieces (l :: ls) ++ (k ++ rest.flatMap ('\n' :: ·)) := by
  induction ls generalizing l with
  | nil => simp [hang, unpieces_cons]
  | cons next ls ih =>
    obtain ⟨l', ls', -, hls⟩ := exists_hang k next ls
    have hnext : hang k (next :: ls) = l' :: ls' := hls []
    have hrest := ih next
    rw [hnext, List.cons_append] at hrest
    rw [hang, hnext, List.cons_append, List.cons_append, unpieces_cons_cons, unpieces_cons_cons,
      hrest, List.append_assoc, List.cons_append]

/-- What holds of lines, with the text behind them and without, holds of all that are left. -/
theorem forall_hang {P : Text → Prop} {k : Text} {ls : List Text} (hne : ls ≠ [])
    (h : ∀ l ∈ ls, P l) (hk : ∀ l ∈ ls, P (l ++ k)) : ∀ l ∈ hang k ls, P l := by
  induction ls with
  | nil => exact absurd rfl hne
  | cons l ls ih =>
    obtain ⟨hl, hls⟩ := List.forall_mem_cons.1 h
    obtain ⟨hkl, hkls⟩ := List.forall_mem_cons.1 hk
    cases ls with
    | nil => simpa [hang] using hkl
    | cons next ls => exact List.forall_mem_cons.2 ⟨hl, ih (by simp) hls hkls⟩

/-! ## The description behind a type -/

/-- What is left of a description behind its type: the rest of a line, and lines of the
description. -/
theorem exists_rest_eq_unpieces {b : Block} (hplain : PlainBlanks b.tag.description)
    {parsed : TypeExpr.Parsed}
    (hparsed : TypeExpr.parse b.tag.name b.tag.description = .ok parsed) :
    ∃ line lines, parsed.rest = unpieces (line :: lines) ∧ '\n' ∉ line ∧
      (line = [] ∨ allBlank line = false) ∧ lines <:+ b.rest := by
  obtain ⟨line, lines, hpieces⟩ := exists_pieces_eq_cons parsed.rest
  have hsuffix := parse_rest_suffix hparsed
  have hrest : parsed.rest = unpieces (line :: lines) := by rw [← hpieces, unpieces_pieces]
  have hlf : '\n' ∉ line := lf_not_mem_of_mem_pieces (by rw [hpieces]; exact List.mem_cons_self)
  refine ⟨line, lines, hrest, hlf, ?_, ?_⟩
  · cases line with
    | nil => exact .inl rfl
    | cons c line =>
      -- the rest of a description begins with no space and no tab
      obtain ⟨r, -, hcut⟩ := parse_eq_ok_iff.1 hparsed
      have hhead := List.head?_dropWhile_not (fun c => c == ' ' || c == '\t') r
      rw [← hcut, hrest, unpieces_cons] at hhead
      have hblank : isBlank c = false := by
        by_contra hc
        have hmem : c ∈ b.tag.description := hsuffix.subset (by rw [hrest, unpieces_cons]; simp)
        rcases hplain c hmem (by simpa using hc) with rfl | rfl | rfl
        · simp at hhead
        · simp at hhead
        · exact hlf List.mem_cons_self
      exact .inr (by simp [allBlank_cons, hblank])
  · have htail := tail_pieces_suffix hsuffix
    have hlines : ∀ l ∈ b.description :: b.rest, '\n' ∉ l :=
      List.forall_mem_cons.2 ⟨b.lf_not_mem_description, fun l hl => (b.loose l hl).lf_not_mem⟩
    rwa [hpieces, Block.tag, pieces_unpieces (by simp) hlines] at htail

/-- What is read behind a type is cut at its spaces, so the first of the words begins the rest. -/
theorem dropWhile_spaced_append {ws : List Text} (hws : ∀ w ∈ ws, Unbroken w) (ls : List Text) :
    (spaced ws ++ ls.flatMap ('\n' :: ·)).dropWhile (fun c => c == ' ' || c == '\t') =
      unpieces (trimStart (spaced ws) :: ls) := by
  rw [unpieces_cons]
  cases ws with
  | nil =>
    cases ls with
    | nil => rfl
    | cons l ls => simp [trimStart]
  | cons w ws =>
    have hw := hws w List.mem_cons_self
    obtain ⟨c, r, rfl⟩ := List.exists_cons_of_ne_nil hw.ne_nil
    have hc := hw.not_isBlank c List.mem_cons_self
    have hspace : isBlank ' ' = true := by decide
    have hne : (c == ' ' || c == '\t') = false := by
      rw [Bool.eq_false_iff]
      intro h
      simp only [Bool.or_eq_true, beq_iff_eq] at h
      rcases h with rfl | rfl <;> exact absurd hc (by decide)
    simp [trimStart, hspace, hc, hne]

/-! ## Reading again -/

/-- The lines of a type with its name are trimmed, and none is blank. -/
theorem of_mem_headRow {o : Options} {name : Text} (hname : Unbroken name) {type : TypeExpr}
    {level : WrapLevel} (h : ∀ l ∈ type.lines o level, TypeLine l) :
    ∀ l ∈ headRow o name type level, trimEnd l = l ∧ allBlank l = false := by
  obtain ⟨hfirst, hrest⟩ := List.forall_mem_cons.1 h
  refine List.forall_mem_cons.2
    ⟨⟨?_, ?_⟩, fun l hl => ⟨(hrest l hl).trimmed, (hrest l hl).allBlank⟩⟩
  · have happend := trimEnd_append (a := name ++ [' ']) hfirst.allBlank
    rw [hfirst.trimmed, List.append_assoc] at happend
    exact happend
  · simp [headLines, hname.allBlank_eq_false]

/-- The last line of a type is not empty, so filling goes on from it. -/
theorem getLast_headRow_ne_nil {o : Options} {name : Text} (hname : Unbroken name)
    {type : TypeExpr} (h : ∀ level, ∀ l ∈ type.lines o level, TypeLine l) (level : WrapLevel) :
    (headRow o name type level).getLast (headRow_ne_nil _ _ _ _) ≠ [] := by
  intro hnil
  have hlast := (of_mem_headRow hname (h level) _ (List.getLast_mem (headRow_ne_nil _ _ _ _))).2
  rw [hnil] at hlast
  cases hlast

/-- The row of a type with its name, at the level that is chosen for the first word behind it. -/
def chosenRow (o : Options) (name : Text) (type : TypeExpr) (word : Option Text) : List Text :=
  headRow o name type (chooseLevel o name type word)

/-- The words run behind the last line of a row, the first of them without being asked. -/
def RunsBehind (o : Options) (row : List Text) (ws : List Text) : Prop :=
  ∀ last ∈ row.getLast?, Runs o (last ++ spaced (ws.take 1)) (ws.drop 1) (last ++ spaced ws)

/-- The lines of a tag with a type: some words of the description stand behind the type, and the
others make lines of their own. -/
theorem exists_typedLines {o : Options} {name : Text} (hname : Unbroken name) {type : TypeExpr}
    (htype : ∀ level, ∀ l ∈ type.lines o level, TypeLine l) {line : Text} {lines : List Text}
    (hline : '\n' ∉ line) (hbegins : line = [] ∨ allBlank line = false)
    (hlines : ∀ l ∈ lines, '\n' ∉ l) :
    ∃ ws vs, ws ++ vs = words line ∧ ws.head? = (words line).head? ∧
      RunsBehind o (chosenRow o name type ws.head?) ws ∧ (∀ w ∈ vs.head?, w.head? ≠ some '@') ∧
      typedLines o name (unpieces (line :: lines)) type =
        hang (spaced ws) (chosenRow o name type ws.head?) ++
          (fillRest o vs ++ lines.flatMap (fillParagraph o [])) := by
  set row := chosenRow o name type (words line).head? with hrow
  have hne : row ≠ [] := headRow_ne_nil _ _ _ _
  obtain ⟨htrim, hfull⟩ := of_mem_headRow hname (htype _) _ (List.getLast_mem hne)
  have hwords : ∀ w ∈ words line, Unbroken w := fun _ => unbroken_of_mem_words
  have hfilled : allBlank (row.getLast hne ++ spaced ((words line).take 1)) = false := by
    simp [hfull]
  have hothers : ∀ w ∈ (words line).drop 1, Unbroken w :=
    fun w hw => hwords w (List.mem_of_mem_drop hw)
  obtain ⟨us, vs, hsplit, hruns, hhead, hfill⟩ := exists_fillWords o hfilled hothers
  have husWords : ∀ w ∈ us, Unbroken w :=
    fun w hw => hothers w (hsplit ▸ List.mem_append_left vs hw)
  rw [trimEnd_append_spaced (trimEnd_append_spaced htrim fun w hw => hwords w
    (List.mem_of_mem_take hw)) husWords] at hfill
  -- if there is no first word there are no others
  have hfirst : ((words line).take 1 ++ us).take 1 = (words line).take 1 ∧
      ((words line).take 1 ++ us).drop 1 = us ∧
      ((words line).take 1 ++ us).head? = (words line).head? := by
    cases hcases : words line with
    | nil =>
      rw [hcases, List.drop_nil] at hsplit
      simp [(List.append_eq_nil_iff.1 hsplit).1]
    | cons w ws => simp
  refine ⟨(words line).take 1 ++ us, vs, ?_, hfirst.2.2, ?_, hhead, ?_⟩
  · rw [List.append_assoc, hsplit, List.take_append_drop]
  · intro last hlast
    rw [hfirst.2.2, ← hrow, List.getLast?_eq_some_getLast hne] at hlast
    obtain rfl : row.getLast hne = last := by simpa using hlast
    rw [hfirst.1, hfirst.2.1, spaced_append, ← List.append_assoc]
    exact hruns
  · rw [typedLines_unpieces o name type hline hbegins hlines (getLast_headRow_ne_nil hname htype),
      hfirst.2.2, ← hrow]
    show row.dropLast ++ (fillWords o (row.getLast hne ++ _) _ ++ _) = _
    rw [hfill, ← dropLast_append_getLast hne, spaced_append]
    simp

/-- Words that run behind a type do so again, and lines that are made stay as they are. -/
theorem typedLines_of_runsBehind {o : Options} {name : Text} (hname : Unbroken name)
    {type : TypeExpr} (htype : ∀ level, ∀ l ∈ type.lines o level, TypeLine l) {ws : List Text}
    (hws : ∀ w ∈ ws, Unbroken w) (hruns : RunsBehind o (chosenRow o name type ws.head?) ws)
    {lines : List Text} (hlines : ∀ l ∈ lines, Made o l) :
    typedLines o name (unpieces (trimStart (spaced ws) :: lines)) type =
      hang (spaced ws) (chosenRow o name type ws.head?) ++ lines := by
  have hwords : words (trimStart (spaced ws)) = ws := words_trimStart_spaced hws
  have hlf : '\n' ∉ trimStart (spaced ws) :=
    fun hmem => lf_not_mem_spaced hws ((trimStart_suffix _).subset hmem)
  have hbegins : trimStart (spaced ws) = [] ∨ allBlank (trimStart (spaced ws)) = false := by
    cases ws with
    | nil => exact .inl rfl
    | cons w ws =>
      refine .inr (Bool.eq_false_iff.2 fun hblank => ?_)
      rw [words_of_allBlank hblank] at hwords
      cases hwords
  rw [typedLines_unpieces o name type hlf hbegins (fun l hl => (hlines l hl).lf_not_mem)
    (getLast_headRow_ne_nil hname htype), hwords,
    flatMap_fillParagraph fun l hl => (hlines l hl).filled]
  set row := chosenRow o name type ws.head?
  have hne : row ≠ [] := headRow_ne_nil _ _ _ _
  obtain ⟨htrim, -⟩ := of_mem_headRow hname (htype _) _ (List.getLast_mem hne)
  have hline := (hruns _ (List.getLast?_eq_some_getLast hne)).fillWords_eq
  show row.dropLast ++
    (fillWords o (row.getLast hne ++ spaced (ws.take 1)) (ws.drop 1) ++ lines) = _
  rw [hline, trimEnd_append_spaced htrim hws, ← List.append_assoc, dropLast_append_getLast]

/-- Trees that are written alike are set at the same level. -/
theorem chosenRow_congr {o : Options} {type type' : TypeExpr}
    (h : ∀ level, type'.render o level = type.render o level) (name : Text) (word : Option Text) :
    chosenRow o name type' word = chosenRow o name type word := by
  have hhead : headLines o name type' = headLines o name type := by
    funext level
    simp only [headLines, h]
  simp only [chosenRow, headRow, chooseLevel, hhead]

/-- The words of a text and of lines below it are those of the one and then of the others. -/
theorem words_append_lines (a : Text) (ls : List Text) :
    words (a ++ ls.flatMap ('\n' :: ·)) = words a ++ ls.flatMap words := by
  induction ls generalizing a with
  | nil => simp
  | cons l ls ih =>
    have hcut : words (a ++ '\n' :: l) = words a ++ words l := words_append_blank (by decide) a l
    have hrow := ih (a ++ '\n' :: l)
    rw [hcut] at hrow
    simpa using hrow

/-- Spaces and tabs in front do not change the words. -/
theorem words_dropWhile (s : Text) :
    words (s.dropWhile fun c => c == ' ' || c == '\t') = words s := by
  have hblank : allBlank (s.takeWhile fun c => c == ' ' || c == '\t') = true := by
    refine allBlank_iff.2 fun c hc => ?_
    rcases eq_space_or_tab_of_mem_takeWhile hc with rfl | rfl <;> decide
  conv_rhs => rw [← List.takeWhile_append_dropWhile (p := fun c => c == ' ' || c == '\t') (l := s)]
  rw [words_append_of_allBlank hblank]

/-- The type and the rest of its description are read back from the lines of a tag, whose words are
those of the rest. -/
theorem parse_hang {location text : Text} (hplain : PlainBlanks text) {parsed : TypeExpr.Parsed}
    (hparsed : TypeExpr.parse location text = .ok parsed)
    (hbrace : Mark.openBrace.Absent parsed.rest) {o : Options} (hexpand : o.expandNull = false)
    (hunit : ∀ c ∈ o.indentUnit, c = ' ' ∨ c = '\t') (level : WrapLevel) {ws : List Text}
    (hws : ∀ w ∈ ws, Unbroken w) {lines : List Text}
    (hkplain : PlainBlanks (spaced ws ++ lines.flatMap ('\n' :: ·)))
    (hwords : ws ++ lines.flatMap words = words parsed.rest) :
    TypeExpr.parse location (unpieces (hang (spaced ws) (parsed.type.lines o level) ++ lines)) =
      .ok ⟨TypeExpr.arrange false parsed.type, unpieces (trimStart (spaced ws) :: lines)⟩ := by
  set k := spaced ws ++ lines.flatMap ('\n' :: ·)
  obtain ⟨r, hreads, hrest⟩ := parse_eq_ok_iff.1 hparsed
  obtain ⟨hwf, hend, -⟩ : WellFormed .top parsed.type ∧ EndsBefore .top parsed.type r ∧ _ :=
    hreads.shaped
  have hrplain : PlainBlanks r := handed_plainBlanks.part hplain hreads.suffix.isInfix
  have hkwords : words k = words r := by
    have hspaced := words_append_spaced [] hws
    simp only [List.nil_append, words_nil] at hspaced
    rw [words_append_lines, hspaced, hwords, hrest, words_dropWhile]
  -- whether a brace stands next is a matter of the words, so it is the same in front of `k` and of
  -- `r`
  have hkbrace : Mark.openBrace.Absent k := by
    have hrestplain : PlainBlanks parsed.rest :=
      handed_plainBlanks.part hplain (parse_rest_suffix hparsed).isInfix
    rw [Mark.absent_iff_words hrestplain] at hbrace
    rw [Mark.absent_iff_words hkplain, hkwords]
    rwa [hrest, words_dropWhile] at hbrace
  have hword : Token.EndsWord Token.isNameChar k := by
    intro c hc
    cases ws with
    | nil =>
      cases lines with
      | nil => simp [k] at hc
      | cons l ls =>
        obtain rfl : '\n' = c := by simpa [k] using hc
        decide
    | cons w ws =>
      obtain rfl : ' ' = c := by simpa [k] using hc
      decide
  have hlayout : ∀ c ∈ o.indentUnit, Token.isLayout c = true := by
    intro c hc
    rcases hunit c hc with rfl | rfl <;> decide
  have hcut : unpieces (hang (spaced ws) (parsed.type.lines o level) ++ lines) =
      unpieces (parsed.type.lines o level) ++ k := unpieces_hang_append _ _ _ _
  rw [hcut, parse_unpieces_lines_append hparsed hexpand hlayout level location hword
    (hwf.endsBefore_arrange (hend.of_words hrplain hkplain hkwords) fun _ => hkbrace)]
  rw [dropWhile_spaced_append hws]

/-- The lines of a type with words behind the last, and the same lines with a name in front. -/
theorem exists_hang_headRow {o : Options} {type : TypeExpr} {level : WrapLevel}
    (htype : ∀ l ∈ type.lines o level, TypeLine l)
    (hfull : ∃ c ∈ (type.render o level).1.head?, isBlank c = false) {ws : List Text}
    (hws : ∀ w ∈ ws, Unbroken w) (name : Text) :
    ∃ first rest, hang (spaced ws) (type.lines o level) = first :: rest ∧
      hang (spaced ws) (headRow o name type level) = (name ++ ' ' :: first) :: rest ∧
      trimStart first = first ∧ ∀ l ∈ first :: rest, TypeLine l := by
  obtain ⟨first, rest, ⟨k, hfirst⟩, hhang⟩ :=
    exists_hang (spaced ws) (type.render o level).1 (type.render o level).2
  have hlines : hang (spaced ws) (type.lines o level) = first :: rest := hhang []
  refine ⟨first, rest, hlines, ?_, ?_, ?_⟩
  · have hnamed := hhang (name ++ [' '])
    simp only [List.append_assoc, List.singleton_append] at hnamed
    exact hnamed
  · obtain ⟨c, hc, hblank⟩ := hfull
    refine trimStart_eq_self fun d hd => ?_
    rw [← hfirst, List.head?_append, Option.mem_def.1 hc] at hd
    rwa [← Option.some.inj hd]
  · rw [← hlines]
    exact forall_hang (List.cons_ne_nil _ _) htype fun l hl => (htype l hl).append_spaced hws

/-- A row with words behind it is trimmed, and no line of it is blank. -/
theorem of_mem_hang_headRow {o : Options} {name : Text} (hname : Unbroken name) {type : TypeExpr}
    {level : WrapLevel} (htype : ∀ l ∈ type.lines o level, TypeLine l) {ws : List Text}
    (hws : ∀ w ∈ ws, Unbroken w) :
    ∀ l ∈ hang (spaced ws) (headRow o name type level), trimEnd l = l ∧ allBlank l = false := by
  have hmem := of_mem_headRow hname htype
  refine forall_hang (headRow_ne_nil _ _ _ _) hmem fun l hl => ⟨?_, by simp [(hmem l hl).2]⟩
  exact trimEnd_append_spaced (hmem l hl).1 hws

/-- A tag whose type was read is read back from its lines. -/
theorem readBack_typed {o : Options} (hexpand : o.expandNull = false)
    (hunit : ∀ c ∈ o.indentUnit, c = ' ' ∨ c = '\t') {b : Block}
    (hplain : PlainBlanks b.tag.description) (htitle : b.tag.title ∈ Tag.typedTitles)
    {parsed : TypeExpr.Parsed}
    (hparsed : TypeExpr.parse b.tag.name b.tag.description = .ok parsed)
    (hliterals : parsed.type.Leaves (fun _ => True) ('\n' ∉ ·))
    (hbrace : Mark.openBrace.Absent parsed.rest) : ∃ b', ReadBack o b b' := by
  obtain ⟨line, lines, hrest, hlf, hbegins, hsuffix⟩ := exists_rest_eq_unpieces hplain hparsed
  have htype : ∀ level, ∀ l ∈ parsed.type.lines o level, TypeLine l :=
    typeLine_of_mem_lines hparsed hplain hliterals hexpand hunit
  have hlines : ∀ l ∈ lines, Loose l := fun l hl => b.loose l (hsuffix.subset hl)
  -- `ws` are the words that run behind the type, `vs` those of its paragraph that follow on lines
  -- of their own
  obtain ⟨ws, vs, hsplit, -, hruns, hat, htyped⟩ := exists_typedLines b.unbroken htype hlf hbegins
    fun l hl => (hlines l hl).lf_not_mem
  obtain ⟨hws, hvs⟩ : (∀ w ∈ ws, Unbroken w) ∧ ∀ w ∈ vs, Unbroken w := by
    rw [← List.forall_mem_append, hsplit]
    exact fun _ => unbroken_of_mem_words
  set level := chooseLevel o b.name parsed.type ws.head?
  set made := collapseBlank false (fillRest o vs ++ lines.flatMap (fillParagraph o []))
  have hmade : ∀ l ∈ made, Made o l := made_of_mem_collapseBlank (List.forall_mem_append.2
    ⟨made_of_mem_fillRest hvs hat, made_of_mem_flatMap hlines⟩) false
  obtain ⟨first, rest, hlinesType, hrow, hbegin, htypeLines⟩ := exists_hang_headRow (htype level)
    (neat_unpieces_lines hparsed hplain hliterals hexpand hunit level).head?_unpieces hws b.name
  have hparsed' : TypeExpr.parse b.name (unpieces (first :: (rest ++ made))) =
      .ok ⟨TypeExpr.arrange false parsed.type, unpieces (trimStart (spaced ws) :: made)⟩ := by
    have hdescription : ∀ l ∈ lines, PlainBlanks l := fun l hl =>
      handed_plainBlanks.part hplain
        ((infix_unpieces_of_mem (List.mem_cons_of_mem line hl)).trans
          (hrest ▸ (parse_rest_suffix hparsed).isInfix))
    rw [← List.cons_append, ← hlinesType]
    refine parse_hang hplain hparsed hbrace hexpand hunit level hws
      (plainBlanks_madeLines hws hvs hdescription) ?_
    rw [flatMap_words_madeLines hvs, ← List.append_assoc, hsplit, hrest, unpieces_cons,
      words_append_lines]
  have hrowLines := of_mem_hang_headRow b.unbroken (htype level) hws
  rw [hrow] at hrowLines
  have hcollapse (ls : List Text) :
      collapseBlank false (hang (spaced ws) (headRow o b.name parsed.type level) ++ ls) =
        (b.name ++ ' ' :: first) :: (rest ++ collapseBlank false ls) := by
    rw [hrow, collapseBlank_append_of_forall (List.cons_ne_nil _ _) fun l hl => (hrowLines l hl).2,
      List.cons_append]
  have hloose : ∀ l ∈ rest ++ made, Loose l := List.forall_mem_append.2
    ⟨fun l hl => (htypeLines l (List.mem_cons_of_mem _ hl)).loose, fun l hl => (hmade l hl).toLoose⟩
  have hlf' : '\n' ∉ ' ' :: first := by simp [(htypeLines first List.mem_cons_self).lf_not_mem]
  have hdescription : trimStart (' ' :: first) = first := by
    rw [trimStart, List.dropWhile_cons_of_pos (by decide)]
    exact hbegin
  have hblank : ∀ c ∈ (' ' :: first).head?, isBlank c = true := by simp [isBlank]
  have htrim := (hrowLines (b.name ++ ' ' :: first) List.mem_cons_self).1
  -- the block that is read back has the lines just made as its description, on which the same type
  -- is read
  set b' := b.rewrite hblank htrim hlf' hdescription hloose with hb'
  have hread := readType_of_ok htitle hparsed
  have hread' := readType_of_ok (t := b'.tag) htitle hparsed'
  refine ⟨b', ?_, ?_, by rw [hread', hread]; rfl, ?_⟩
  · rw [hread, hb', Block.lines_rewrite]
    show collapseBlank false (typedLines o b.name parsed.rest parsed.type) = _
    rw [hrest, htyped]
    exact hcollapse _
  · have hrender := render_arrange hparsed hexpand
    have hchosen := chosenRow_congr hrender b.name ws.head?
    have htype' : ∀ level,
        ∀ l ∈ (TypeExpr.arrange false parsed.type).lines o level, TypeLine l := by
      intro level
      simp only [TypeExpr.lines, hrender]
      exact htype level
    rw [hread', hb', Block.lines_rewrite]
    show collapseBlank false (typedLines o b.name _ (TypeExpr.arrange false parsed.type)) = _
    rw [typedLines_of_runsBehind b.unbroken htype' hws (by rwa [hchosen]) hmade, hchosen]
    exact (hcollapse made).trans (by rw [collapseBlank_collapseBlank])
  · intro hlast l hl
    have hlinesLast : ∀ l ∈ lines.getLast?, allBlank l = false := by
      obtain ⟨front, hfront⟩ := hsuffix
      intro l hl
      refine hlast l ?_
      rw [← hfront, List.getLast?_append, Option.mem_def.1 hl]
      rfl
    rcases mem_getLast?_append hl with hl | ⟨-, hl⟩
    · exact getLast?_collapseBlank_of_full (getLast?_paragraphs o hvs hlinesLast) false l hl
    · exact (htypeLines l (List.mem_cons_of_mem _ (List.mem_of_getLast? hl))).allBlank

end Comment

end Docblock
