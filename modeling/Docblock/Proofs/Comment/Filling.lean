import Docblock.Comment.Fill
import Docblock.Proofs.Comment.Reading
import Docblock.Proofs.Text.Words

/-!
# Filling again

A line that filling has made is filled to itself (`Filled`). The reason is that filling decides
about a word from the line before it alone: the words of a line that was made without a break run
through the same lines again (`Runs`), and a line that begins after a break begins with its word.

A second run sees other paragraphs than the first, since each line that filling has made is a
paragraph of its own. So it is not a law of a paragraph that is wanted but one of a line, and `Made`
collects what is known of the lines: they are trimmed, in one piece, no tags, and filled. That no
such line is taken for a tag is by the rule that no break is made before a word with `@`.

The last section is about lines of any kind: what a property of texts must be closed under for
filling to keep it (`has_of_mem_fill`). That lines are not broken too early is the subject of
`Docblock.Proofs.Comment.Greedy`.
-/

namespace Docblock.Comment

open Text

/-- The words can be set after a line without a break, and lead to another line. -/
inductive Runs (o : Options) : Text → List Text → Text → Prop
  | nil {line} : Runs o line [] line
  | cons {line word words last} : breaksBefore o line word = false →
      Runs o (appendWord line word) words last → Runs o line (word :: words) last

/-- Two runs that meet make one. -/
theorem Runs.append {o : Options} {line middle last : Text} {us vs : List Text}
    (h : Runs o line us middle) (h' : Runs o middle vs last) : Runs o line (us ++ vs) last := by
  induction h with
  | nil => exact h'
  | cons hbreak _ ih => exact .cons hbreak (ih h')

/-- Words that run without a break only move the line from which filling goes on. -/
theorem Runs.fillWords_append {o : Options} {line last : Text} {us : List Text}
    (h : Runs o line us last) (vs : List Text) :
    fillWords o line (us ++ vs) = fillWords o last vs := by
  induction h with
  | nil => rfl
  | cons hbreak _ ih => simpa [fillWords, hbreak] using ih

/-- Words that run without a break fill one line. -/
theorem Runs.fillWords_eq {o : Options} {line last : Text} {us : List Text}
    (h : Runs o line us last) : fillWords o line us = [trimEnd last] := by
  simpa [fillWords] using h.fillWords_append []

/-- No break is made while nothing stands on the line. -/
theorem breaksBefore_of_allBlank {o : Options} {line : Text} (h : allBlank line = true)
    (word : Text) : breaksBefore o line word = false := by
  simp [breaksBefore, h]

/-! ## Lines that are filled -/

/-- Filling the line as a paragraph gives the line back. -/
def Filled (o : Options) (line : Text) : Prop := fillParagraph o [] line = [line]

/-- A line that grows from white space, word by word and without a break. -/
structure Grown (o : Options) (line : Text) : Prop where
  runs : Runs o (line.takeWhile isBlank) (words line) line
  trimmed : allBlank line = true ∨ trimEnd line = line

/-- Without a seed a paragraph begins with its own indentation. -/
theorem fillParagraph_nil (o : Options) (paragraph : Text) :
    fillParagraph o [] paragraph =
      fillWords o (paragraph.takeWhile isBlank) (words paragraph) := rfl

/-- With a seed a paragraph loses its indentation. -/
theorem fillParagraph_of_ne_nil (o : Options) {seed : Text} (hne : seed ≠ []) (paragraph : Text) :
    fillParagraph o seed paragraph = fillWords o seed (words paragraph) := by
  have hempty : seed.isEmpty = false := by simpa using hne
  rw [fillParagraph, hempty]
  rfl

/-- Filling gives a line, also without words. -/
theorem fillWords_ne_nil (o : Options) (line : Text) (ws : List Text) :
    fillWords o line ws ≠ [] := by
  induction ws generalizing line with
  | nil => simp [fillWords]
  | cons word ws ih =>
    rw [fillWords]
    split
    · exact List.cons_ne_nil _ _
    · exact ih _

/-- Every paragraph has a line. -/
theorem fillParagraph_ne_nil (o : Options) (seed paragraph : Text) :
    fillParagraph o seed paragraph ≠ [] := fillWords_ne_nil o _ _

/-- An empty line is filled to itself. -/
theorem filled_nil (o : Options) : Filled o [] := by simp [Filled, fillParagraph_nil, fillWords]

/-- A grown line is filled once its end is trimmed. -/
theorem Grown.filled {o : Options} {line : Text} (h : Grown o line) : Filled o (trimEnd line) := by
  rcases h.trimmed with hblank | htrim
  · rw [trimEnd_eq_nil_iff.2 hblank]
    exact filled_nil o
  · rw [htrim, Filled, fillParagraph_nil, h.runs.fillWords_eq, htrim]

/-- White space is where lines grow from. -/
theorem grown_of_allBlank (o : Options) {line : Text} (h : allBlank line = true) :
    Grown o line := by
  refine ⟨?_, .inl h⟩
  have htake : line.takeWhile isBlank = line := by
    simpa [allBlank_iff] using h
  rw [htake, words_of_allBlank h]
  exact .nil

/-- The indentation of a line that is not blank does not change as the line goes on. -/
theorem takeWhile_isBlank_append {a : Text} (ha : allBlank a = false) (b : Text) :
    (a ++ b).takeWhile isBlank = a.takeWhile isBlank := by
  rw [List.takeWhile_append, if_neg]
  intro hlength
  have htake : a.takeWhile isBlank = a := (List.takeWhile_prefix _).eq_of_length hlength
  rw [← htake, allBlank_takeWhile] at ha
  cases ha

/-- A grown line grows by a word that needs no break. -/
theorem Grown.appendWord {o : Options} {line word : Text} (h : Grown o line)
    (hword : Unbroken word) (hbreak : breaksBefore o line word = false) :
    Grown o (Comment.appendWord line word) := by
  -- on white space the word is the first of the line, and otherwise it stands behind a space
  cases hblank : allBlank line with
  | true =>
    have happend : Comment.appendWord line word = line ++ word := by
      simp [Comment.appendWord, hblank]
    have hstart : word.takeWhile isBlank = [] := by
      cases word with
      | nil => rfl
      | cons c word => simp [hword.not_isBlank c List.mem_cons_self]
    have htake : (line ++ word).takeWhile isBlank = line := by
      rw [List.takeWhile_append_of_pos (allBlank_iff.1 hblank), hstart, List.append_nil]
    have hwords : words (line ++ word) = [word] := by
      rw [words_append_of_allBlank hblank, words_unbroken hword]
    refine ⟨?_, .inr ?_⟩
    · rw [happend, htake, hwords]
      refine .cons hbreak ?_
      rw [happend]
      exact .nil
    · rw [happend, trimEnd_append hword.allBlank_eq_false, hword.trimEnd_eq]
  | false =>
    have happend : Comment.appendWord line word = line ++ spaced [word] := by
      simp [Comment.appendWord, hblank]
    have hrow : ∀ w ∈ [word], Unbroken w := by simpa using hword
    have htrim : trimEnd line = line := by
      rcases h.trimmed with hall | htrim
      · rw [hall] at hblank
        cases hblank
      · exact htrim
    refine ⟨?_, .inr ?_⟩
    · rw [happend, takeWhile_isBlank_append hblank, words_append_spaced _ hrow]
      refine h.runs.append (.cons hbreak ?_)
      rw [happend]
      exact .nil
    · rw [happend]
      exact trimEnd_append_spaced htrim hrow

/-- A word that begins a line is a grown line. -/
theorem grown_of_unbroken (o : Options) {word : Text} (h : Unbroken word) : Grown o word := by
  have hgrown := (grown_of_allBlank o allBlank_nil).appendWord h
    (breaksBefore_of_allBlank allBlank_nil word)
  simpa [Comment.appendWord] using hgrown

/-! ## What filling makes -/

/-- A line of a comment that is no tag: trimmed at its end, and of one piece. -/
structure Loose (line : Text) : Prop where
  trimmed : trimEnd line = line
  lf_not_mem : '\n' ∉ line
  tagLine? : tagLine? line = none

theorem loose_nil : Loose [] := ⟨rfl, by simp, by decide⟩

/-- A line is a tag if its first word begins with `@`. -/
theorem tagLine?_eq_none_iff_words {line : Text} :
    tagLine? line = none ↔ ∀ w ∈ (words line).head?, w.head? ≠ some '@' := by
  rw [tagLine?_eq_none_iff, head?_trim]
  cases (words line).head? <;> simp

/-- A line that filling has begun after a break, or for a paragraph of its own. -/
structure Made (o : Options) (line : Text) : Prop extends Loose line where
  filled : Filled o line

/-- Filling makes an empty line of an empty paragraph. -/
theorem made_nil (o : Options) : Made o [] := ⟨loose_nil, filled_nil o⟩

/-- A line with a word more has that word as its last. -/
theorem words_appendWord {line word : Text} (hword : Unbroken word) :
    words (appendWord line word) = words line ++ [word] := by
  unfold appendWord
  split
  · next hblank => rw [words_append_of_allBlank hblank, words_of_allBlank hblank,
      words_unbroken hword, List.nil_append]
  · rw [words_append_blank (by decide), words_unbroken hword]

/-- What holds of a break: something stands on the line, and the word does not begin a tag. -/
theorem of_breaksBefore {o : Options} {line word : Text} (h : breaksBefore o line word = true) :
    allBlank line = false ∧ word.head? ≠ some '@' := by
  simp only [breaksBefore, Bool.and_eq_true, Bool.not_eq_true', bne_iff_ne] at h
  exact ⟨h.1.1.1, h.1.2⟩

/-- A grown line, trimmed, is one that filling has made, unless it begins as a tag does. -/
theorem Grown.made {o : Options} {line : Text} (h : Grown o line) (hlf : '\n' ∉ line)
    (htag : ∀ w ∈ (words line).head?, w.head? ≠ some '@') : Made o (trimEnd line) where
  trimmed := trimEnd_trimEnd line
  lf_not_mem := fun hmem => hlf ((trimEnd_prefix_self line).subset hmem)
  tagLine? := tagLine?_eq_none_iff_words.2 (by rwa [words_trimEnd])
  filled := h.filled

/-- Words put no line feed on a line. -/
theorem lf_not_mem_appendWord {line word : Text} (hline : '\n' ∉ line) (hword : '\n' ∉ word) :
    '\n' ∉ appendWord line word := by
  unfold appendWord
  split <;> simp_all

/-- All lines that are made from a grown line and more words, if these begin no tag. -/
theorem made_of_mem_fillWords {o : Options} {line : Text} {ws : List Text} (hline : Grown o line)
    (hlf : '\n' ∉ line) (hws : ∀ w ∈ ws, Unbroken w)
    (htag : ∀ w ∈ (words line ++ ws).head?, w.head? ≠ some '@') :
    ∀ l ∈ fillWords o line ws, Made o l := by
  induction ws generalizing line with
  | nil =>
    rw [List.append_nil] at htag
    simpa [fillWords] using hline.made hlf htag
  | cons word ws ih =>
    obtain ⟨hword, hws⟩ := List.forall_mem_cons.1 hws
    rw [fillWords]
    split
    · next hbreak =>
      obtain ⟨hblank, hat⟩ := of_breaksBefore hbreak
      refine List.forall_mem_cons.2 ⟨hline.made hlf fun w hw => htag w ?_, ?_⟩
      · rw [List.head?_append, Option.mem_def.1 hw]
        rfl
      · refine ih (grown_of_unbroken o hword) hword.lf_not_mem hws ?_
        simpa [words_unbroken hword] using hat
    · next hbreak =>
      refine ih (hline.appendWord hword (by simpa using hbreak))
        (lf_not_mem_appendWord hlf hword.lf_not_mem) hws ?_
      simpa [words_appendWord hword] using htag

/-- Something stands on each line that is made, if there is a word. -/
theorem allBlank_of_mem_fillWords {o : Options} {line : Text} {ws : List Text}
    (hws : ∀ w ∈ ws, Unbroken w) (hne : words line ++ ws ≠ []) :
    ∀ l ∈ fillWords o line ws, allBlank l = false := by
  have htrim {l : Text} (h : words l ≠ []) : allBlank (trimEnd l) = false := by
    rwa [Bool.eq_false_iff, ne_eq, ← words_eq_nil_iff, words_trimEnd]
  induction ws generalizing line with
  | nil =>
    rw [List.append_nil] at hne
    simpa [fillWords] using htrim hne
  | cons word ws ih =>
    obtain ⟨hword, hws⟩ := List.forall_mem_cons.1 hws
    rw [fillWords]
    split
    · next hbreak =>
      have hblank := (of_breaksBefore hbreak).1
      refine List.forall_mem_cons.2 ⟨htrim fun h => ?_, ih hws (by simp [words_unbroken hword])⟩
      rw [words_eq_nil_iff.1 h] at hblank
      cases hblank
    · exact ih hws (by simp [words_appendWord hword])

/-- Filling keeps the words in their order. -/
theorem flatMap_words_fillWords (o : Options) (line : Text) {ws : List Text}
    (hws : ∀ w ∈ ws, Unbroken w) :
    (fillWords o line ws).flatMap words = words line ++ ws := by
  induction ws generalizing line with
  | nil => simp [fillWords]
  | cons word ws ih =>
    obtain ⟨hword, hrest⟩ := List.forall_mem_cons.1 hws
    rw [fillWords]
    split
    · rw [List.flatMap_cons, ih word hrest, words_trimEnd, words_unbroken hword]
      rfl
    · rw [ih _ hrest, words_appendWord hword, List.append_assoc]
      rfl

/-- The lines of words the first of which begins a line. -/
def fillRest (o : Options) : List Text → List Text
  | [] => []
  | word :: ws => fillWords o word ws

/-- All lines are made by filling where the first word begins a line of its own. -/
theorem made_of_mem_fillRest {o : Options} {ws : List Text} (hws : ∀ w ∈ ws, Unbroken w)
    (hhead : ∀ w ∈ ws.head?, w.head? ≠ some '@') : ∀ l ∈ fillRest o ws, Made o l := by
  cases ws with
  | nil => simp [fillRest]
  | cons word ws =>
    obtain ⟨hword, hrest⟩ := List.forall_mem_cons.1 hws
    refine made_of_mem_fillWords (grown_of_unbroken o hword) hword.lf_not_mem hrest ?_
    simpa [words_unbroken hword] using hhead

/-- The words stand on these lines in their order. -/
theorem flatMap_words_fillRest (o : Options) {ws : List Text} (hws : ∀ w ∈ ws, Unbroken w) :
    (fillRest o ws).flatMap words = ws := by
  cases ws with
  | nil => rfl
  | cons word ws =>
    obtain ⟨hword, hrest⟩ := List.forall_mem_cons.1 hws
    rw [fillRest, flatMap_words_fillWords o word hrest, words_unbroken hword]
    rfl

/-- The words after a line on which something stands: some go on with the line, and the rest make
lines of their own. -/
theorem exists_fillWords (o : Options) {line : Text} (hblank : allBlank line = false)
    {ws : List Text} (hws : ∀ w ∈ ws, Unbroken w) :
    ∃ us vs, us ++ vs = ws ∧ Runs o line us (line ++ spaced us) ∧
      (∀ w ∈ vs.head?, w.head? ≠ some '@') ∧
      fillWords o line ws = trimEnd (line ++ spaced us) :: fillRest o vs := by
  induction ws generalizing line with
  | nil => exact ⟨[], [], rfl, by simpa using .nil, by simp, by simp [fillWords, fillRest]⟩
  | cons word ws ih =>
    obtain ⟨hword, hrest⟩ := List.forall_mem_cons.1 hws
    cases hbreak : breaksBefore o line word with
    | true =>
      -- the line breaks before this word, so no word goes on with it
      refine ⟨[], word :: ws, rfl, by simpa using .nil, ?_, ?_⟩
      · simpa using (of_breaksBefore hbreak).2
      · simp [fillWords, fillRest, hbreak]
    | false =>
      have happend : appendWord line word = line ++ spaced [word] := by simp [appendWord, hblank]
      have hnext : allBlank (line ++ spaced [word]) = false := by simp [hblank]
      obtain ⟨us, vs, hwords, hruns, hhead, heq⟩ := ih hnext hrest
      have hline : line ++ spaced [word] ++ spaced us = line ++ spaced (word :: us) := by simp
      rw [hline] at hruns heq
      refine ⟨word :: us, vs, by simp [hwords], .cons hbreak ?_, hhead, ?_⟩
      · rwa [happend]
      · simpa [fillWords, hbreak, happend] using heq

/-! ## Paragraphs -/

/-- A paragraph keeps its words in their order. -/
theorem flatMap_words_fillParagraph (o : Options) (paragraph : Text) :
    (fillParagraph o [] paragraph).flatMap words = words paragraph := by
  rw [fillParagraph_nil, flatMap_words_fillWords o _ fun _ => unbroken_of_mem_words,
    words_of_allBlank (allBlank_takeWhile _), List.nil_append]

/-- The lines of a paragraph that is no tag are made by filling. -/
theorem made_of_mem_fillParagraph {o : Options} {paragraph : Text} (h : Loose paragraph) :
    ∀ l ∈ fillParagraph o [] paragraph, Made o l := by
  have hblank := allBlank_takeWhile paragraph
  rw [fillParagraph_nil]
  refine made_of_mem_fillWords (grown_of_allBlank o hblank)
    (fun hmem => h.lf_not_mem ((List.takeWhile_prefix _).subset hmem))
    (fun _ => unbroken_of_mem_words) ?_
  rw [words_of_allBlank hblank, List.nil_append]
  exact tagLine?_eq_none_iff_words.1 h.tagLine?

/-- The lines of several paragraphs that are no tags are made by filling. -/
theorem made_of_mem_flatMap {o : Options} {paragraphs : List Text}
    (h : ∀ p ∈ paragraphs, Loose p) :
    ∀ l ∈ paragraphs.flatMap (fillParagraph o []), Made o l := by
  intro l hl
  obtain ⟨p, hp, hl⟩ := List.mem_flatMap.1 hl
  exact made_of_mem_fillParagraph (h p hp) l hl

/-- Lines that are filled stay as they are. -/
theorem flatMap_fillParagraph {o : Options} {lines : List Text} (h : ∀ l ∈ lines, Filled o l) :
    lines.flatMap (fillParagraph o []) = lines := by
  induction lines with
  | nil => rfl
  | cons l lines ih =>
    obtain ⟨hl, hlines⟩ := List.forall_mem_cons.1 h
    rw [List.flatMap_cons, hl, ih hlines]
    rfl

/-- Something stands on each line of a paragraph on which something stands. -/
theorem allBlank_of_mem_fillParagraph {o : Options} {paragraph : Text}
    (h : allBlank paragraph = false) : ∀ l ∈ fillParagraph o [] paragraph, allBlank l = false := by
  rw [fillParagraph_nil]
  refine allBlank_of_mem_fillWords (fun _ => unbroken_of_mem_words) ?_
  rw [words_of_allBlank (allBlank_takeWhile _), List.nil_append, ne_eq, words_eq_nil_iff, h]
  simp

/-- Something stands on each line of a paragraph that continues a seed on which something stands. -/
theorem allBlank_of_mem_fillParagraph_of_seed {o : Options} {seed : Text}
    (h : allBlank seed = false) (paragraph : Text) :
    ∀ l ∈ fillParagraph o seed paragraph, allBlank l = false := by
  rw [fillParagraph_of_ne_nil o (ne_nil_of_allBlank_eq_false h)]
  apply allBlank_of_mem_fillWords fun _ => unbroken_of_mem_words
  rw [ne_eq, List.append_eq_nil_iff, not_and]
  intro hnil
  rw [words_eq_nil_iff, h] at hnil
  cases hnil

/-- Each of these lines holds a word. -/
theorem allBlank_of_mem_fillRest {o : Options} {ws : List Text} (hws : ∀ w ∈ ws, Unbroken w) :
    ∀ l ∈ fillRest o ws, allBlank l = false := by
  cases ws with
  | nil => simp [fillRest]
  | cons word ws =>
    obtain ⟨hword, hrest⟩ := List.forall_mem_cons.1 hws
    exact allBlank_of_mem_fillWords hrest (by simp [words_unbroken hword])

/-- Paragraphs the last of which says something end with a line that does. -/
theorem getLast?_flatMap_fillParagraph (o : Options) {paragraphs : List Text}
    (h : ∀ p ∈ paragraphs.getLast?, allBlank p = false) :
    ∀ l ∈ (paragraphs.flatMap (fillParagraph o [])).getLast?, allBlank l = false := by
  cases paragraphs using List.reverseRecOn with
  | nil => simp
  | append_singleton ps last =>
    have hfull := allBlank_of_mem_fillParagraph (o := o) (h last (by simp))
    intro l hl
    rw [List.flatMap_append, List.flatMap_singleton] at hl
    rcases mem_getLast?_append hl with hl | ⟨hnil, -⟩
    · exact hfull l (List.mem_of_getLast? hl)
    · exact absurd hnil (fillParagraph_ne_nil o [] last)

/-- The lines that follow the first of a filled tag end with something if the tag does. -/
theorem getLast?_paragraphs (o : Options) {ws paragraphs : List Text}
    (hws : ∀ w ∈ ws, Unbroken w) (h : ∀ p ∈ paragraphs.getLast?, allBlank p = false) :
    ∀ l ∈ (fillRest o ws ++ paragraphs.flatMap (fillParagraph o [])).getLast?,
      allBlank l = false := by
  intro l hl
  rcases mem_getLast?_append hl with hl | ⟨-, hl⟩
  · exact getLast?_flatMap_fillParagraph o h l hl
  · exact allBlank_of_mem_fillRest hws l (List.mem_of_getLast? hl)

section Has

variable {P : Text → Prop} (hpart : ∀ {t u : Text}, P u → t <:+: u → P t)
  (happend : ∀ line word, P line → P word → P (appendWord line word))

include hpart happend

/-- What passes to parts of a text and to lines that grow by a word is known of all lines. -/
theorem has_of_mem_fillWords {o : Options} {line : Text} {ws : List Text} (hline : P line)
    (hws : ∀ w ∈ ws, P w) : ∀ l ∈ fillWords o line ws, P l := by
  have htrim {l : Text} (hl : P l) : P (trimEnd l) := hpart hl (trimEnd_prefix_self l).isInfix
  induction ws generalizing line with
  | nil => simpa [fillWords] using htrim hline
  | cons word ws ih =>
    obtain ⟨hword, hws⟩ := List.forall_mem_cons.1 hws
    rw [fillWords]
    split
    · exact List.forall_mem_cons.2 ⟨htrim hline, ih hword hws⟩
    · exact ih (happend _ _ hline hword) hws

/-- What holds of words, and of a line with a word more, holds of the lines they are set to. -/
theorem has_of_mem_fillRest {o : Options} {ws : List Text} (hws : ∀ w ∈ ws, P w) :
    ∀ l ∈ fillRest o ws, P l := by
  cases ws with
  | nil => simp [fillRest]
  | cons word ws =>
    obtain ⟨hword, hrest⟩ := List.forall_mem_cons.1 hws
    exact has_of_mem_fillWords hpart happend hword hrest

/-- What holds of the seed and of the paragraph holds of the lines. -/
theorem has_of_mem_fillParagraph {o : Options} {seed paragraph : Text} (hseed : P seed)
    (hparagraph : P paragraph) : ∀ l ∈ fillParagraph o seed paragraph, P l := by
  unfold fillParagraph
  refine has_of_mem_fillWords hpart happend ?_ fun w hw => hpart hparagraph (infix_of_mem_words hw)
  split
  · exact hpart hparagraph (List.takeWhile_prefix _).isInfix
  · exact hseed

/-- What holds of the seed and of each line of the text holds of the lines it is filled to. -/
theorem has_of_mem_fill {o : Options} {seed text : Text} (hnil : P []) (hseed : P seed)
    (htext : ∀ piece ∈ pieces text, P piece) : ∀ l ∈ fill o seed text, P l := by
  unfold fill
  split
  · exact List.forall_mem_nil _
  · next first rest heq =>
    rw [heq, List.forall_mem_cons] at htext
    refine List.forall_mem_append.2
      ⟨has_of_mem_fillParagraph hpart happend hseed htext.1, fun l hl => ?_⟩
    obtain ⟨piece, hpiece, hl⟩ := List.mem_flatMap.1 hl
    exact has_of_mem_fillParagraph hpart happend hnil (htext.2 piece hpiece) l hl

end Has

/-- Filling puts no line feed on a line. -/
theorem lf_not_mem_fill (o : Options) {seed : Text} (hseed : '\n' ∉ seed) (text : Text) :
    ∀ l ∈ fill o seed text, '\n' ∉ l :=
  has_of_mem_fill (P := ('\n' ∉ ·)) (fun hu hpart hmem => hu (hpart.subset hmem))
    (fun _ _ => lf_not_mem_appendWord) List.not_mem_nil hseed
    fun _ => lf_not_mem_of_mem_pieces

/-- The first paragraph of a text goes on with the seed, and the others stand for themselves. -/
theorem fill_of_pieces (o : Options) (seed : Text) {text first : Text} {rest : List Text}
    (h : pieces text = first :: rest) :
    fill o seed text = fillParagraph o seed first ++ rest.flatMap (fillParagraph o []) := by
  rw [fill, h]

/-- The lines of several paragraphs, the first of which continues the seed. -/
theorem fill_unpieces (o : Options) (seed : Text) {first : Text} {rest : List Text}
    (hfirst : '\n' ∉ first) (hrest : ∀ l ∈ rest, '\n' ∉ l) :
    fill o seed (unpieces (first :: rest)) =
      fillParagraph o seed first ++ rest.flatMap (fillParagraph o []) := by
  exact fill_of_pieces o seed
    (pieces_unpieces (List.cons_ne_nil _ _) (List.forall_mem_cons.2 ⟨hfirst, hrest⟩))

/-- The lines of a text that goes on behind something: some words on that line, and lines that begin
no tag. -/
theorem exists_fill_seed (o : Options) {seed text first : Text} {rest : List Text}
    (hfull : allBlank seed = false) (hpieces : pieces text = first :: rest) :
    ∃ us vs, us ++ vs = words first ∧ (∀ w ∈ vs.head?, w.head? ≠ some '@') ∧
      fill o seed text = trimEnd (seed ++ spaced us) ::
        (fillRest o vs ++ rest.flatMap (fillParagraph o [])) := by
  obtain ⟨us, vs, hsplit, -, hat, hlines⟩ :=
    exists_fillWords o hfull fun w (hw : w ∈ words first) => unbroken_of_mem_words hw
  refine ⟨us, vs, hsplit, hat, ?_⟩
  rw [fill_of_pieces o seed hpieces, fillParagraph_of_ne_nil o (ne_nil_of_allBlank_eq_false hfull),
    hlines, List.cons_append]

/-- A text without a line feed is one paragraph. -/
theorem fill_of_lf_not_mem (o : Options) (seed : Text) {text : Text} (h : '\n' ∉ text) :
    fill o seed text = fillParagraph o seed text := by
  rw [fill, pieces_of_lf_not_mem h]
  exact List.append_nil _

end Docblock.Comment
