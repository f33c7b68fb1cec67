import Docblock.Proofs.Comment.Filling
import Docblock.Proofs.Text.Columns

/-!
# Filling is greedy

A paragraph is broken where it has to be and nowhere else. A word that stands behind something on
its line ends within the print width, or begins with `@` (`FitsBehind`). A word that begins a
further line does not begin with `@`, and would not have fitted on the line before (`Overflows`).
With the words in their order this is `Greedy`. One word more in front keeps it, whether the word
goes on with the line or is the last before a break, so it holds of all lines of a paragraph, and
each paragraph of a text is set for itself (`fill_wraps`).

A width of 2^64 and more is not measured as what it is. So the widths that are measured on the way
(`measures`) are assumed to stay below.
-/

namespace Docblock.Comment

open Text

/-! ## What is measured -/

/-- The widths that are measured while words are set after the beginning of a line: the column at
which a word would end behind that line. Nothing is measured before a word that stays where it is,
the first on its line or one that begins with `@`. -/
def measures (o : Options) (line : Text) : List Text → List Nat
  | [] => []
  | word :: ws =>
    let rest := measures o (if breaksBefore o line word then word else appendWord line word) ws
    if allBlank line || word.head? == some '@' then rest
    else o.columns (line ++ ' ' :: word) :: rest

/-- What the first line of a paragraph begins with: the seed, or without one the white space in
front of the paragraph. -/
def beginning (seed paragraph : Text) : Text :=
  if seed.isEmpty then paragraph.takeWhile isBlank else seed

/-- The widths that are measured while a text is filled in after a seed. -/
def measuresOfText (o : Options) (seed text : Text) : List Nat :=
  match pieces text with
  | [] => []
  | first :: rest =>
    measures o (beginning seed first) (words first) ++
      rest.flatMap fun paragraph => measures o (beginning [] paragraph) (words paragraph)

/-- A word is measured behind its line, unless it stays there in any case. -/
theorem measures_cons (o : Options) (line word : Text) (ws : List Text) :
    measures o line (word :: ws) =
      (if allBlank line || word.head? == some '@' then []
        else [o.columns (line ++ ' ' :: word)]) ++
        measures o (if breaksBefore o line word then word else appendWord line word) ws := by
  rw [measures]
  split <;> rfl

/-- Whether a line is broken, told by numbers that do not wrap around. -/
theorem breaksBefore_iff {o : Options} (hwrap : o.wrapText = true) {line word : Text}
    {ws : List Text} (hmeasures : ∀ n ∈ measures o line (word :: ws), n < UInt64.size) :
    breaksBefore o line word = true ↔ allBlank line = false ∧ word.head? ≠ some '@' ∧
      o.printWidth.toNat < o.columns (line ++ ' ' :: word) := by
  simp only [breaksBefore, hwrap, Bool.and_true, Bool.and_eq_true, Bool.not_eq_true', bne_iff_ne,
    decide_eq_true_eq, and_assoc]
  refine and_congr_right fun hfull => and_congr_right fun hat => ?_
  have hasked : o.columns (line ++ ' ' :: word) ∈ measures o line (word :: ws) := by
    have hmeasured : (allBlank line || word.head? == some '@') = false := by simp [hfull, hat]
    simp [measures_cons, hmeasured]
  exact Options.lt_displayWidth_add_iff (hmeasures _ hasked) _

/-! ## What greedy filling is -/

/-- A word at its place in a line: white space, or nothing, stands on either side. -/
structure WordAt (front word behind : Text) : Prop where
  unbroken : Unbroken word
  front : ∀ c ∈ front.getLast?, isBlank c = true
  behind : ∀ c ∈ behind.head?, isBlank c = true

/-- A word of a line that stands behind the start of the line, and is not the first that stands on
it, begins with `@` or ends within the print width. -/
def FitsBehind (o : Options) (start line : Text) : Prop :=
  ∀ front word behind, line = front ++ (word ++ behind) → WordAt front word behind →
    start <+: front → allBlank front = false →
      word.head? = some '@' ∨ o.columns (front ++ word) ≤ o.printWidth.toNat

/-- The next line begins with a word that does not begin with `@`, and that would have ended beyond
the print width on the line. -/
def Overflows (o : Options) (line next : Text) : Prop :=
  ∃ word behind, next = word ++ behind ∧ WordAt [] word behind ∧ word.head? ≠ some '@' ∧
    o.printWidth.toNat < o.columns (line ++ ' ' :: word)

/-- What words are set to greedily after the start of a line: what stands `behind` the start, and
the `later` lines. -/
structure Greedy (o : Options) (start : Text) (ws : List Text) (behind : Text)
    (later : List Text) : Prop where
  words_eq : words behind ++ later.flatMap words = ws
  apart : allBlank start = false → ∀ c ∈ behind.head?, isBlank c = true
  trimmed : ∀ l ∈ (start ++ behind) :: later, trimEnd l = l
  fits : FitsBehind o start (start ++ behind)
  fits_later : ∀ l ∈ later, FitsBehind o [] l
  breaks : ((start ++ behind) :: later).IsChain (Overflows o)

/-- The lines of a paragraph. Without a seed and without words it is one empty line. -/
structure Wrapped (o : Options) (seed paragraph : Text) (lines : List Text) : Prop where
  empty : seed = [] → words paragraph = [] → lines = [[]]
  greedy : seed ≠ [] ∨ words paragraph ≠ [] → ∃ behind later,
    lines = (beginning seed paragraph ++ behind) :: later ∧
      Greedy o (beginning seed paragraph) (words paragraph) behind later

/-! ## Words at their places -/

/-- What stands in front of a word, behind a text on which something stands, is not empty. -/
theorem WordAt.gap_ne_nil {line gap word behind : Text} (h : WordAt (line ++ gap) word behind)
    (hfull : allBlank line = false) (htrim : trimEnd line = line) : gap ≠ [] := by
  rintro rfl
  have hfront := h.front
  rw [List.append_nil] at hfront
  have hlast := List.getLast?_eq_some_getLast (ne_nil_of_allBlank_eq_false hfull)
  have hblank := trimEnd_eq_self_iff.1 htrim _ hlast
  rw [hfront _ hlast] at hblank
  cases hblank

/-! ## One word more -/

/-- A line that ends where it starts has no word to be measured. -/
theorem fitsBehind_self (o : Options) (line : Text) : FitsBehind o line line := by
  intro front word behind hline hat hstart _
  have hlength := congrArg List.length hline
  have hword := List.length_pos_iff.2 hat.unbroken.ne_nil
  have hfront := hstart.length_le
  simp only [List.length_append] at hlength
  omega

/-- The first word on a line is not asked whether it fits. -/
theorem FitsBehind.of_word {o : Options} {start word behind : Text}
    (hstart : allBlank start = true) (hword : Unbroken word)
    (h : FitsBehind o (start ++ word) (start ++ word ++ behind)) :
    FitsBehind o start (start ++ word ++ behind) := by
  intro front v k hline hat hprefix hfull
  refine h front v k hline hat ?_ hfull
  obtain ⟨gap, rfl⟩ := hprefix
  have hgap : gap ≠ [] := by
    rintro rfl
    rw [List.append_nil, hstart] at hfull
    cases hfull
  have hlast : ∀ c ∈ gap.getLast?, isBlank c = true := by
    rw [← List.getLast?_append_of_ne_nil start hgap]
    exact hat.front
  have hbehind : word ++ behind = gap ++ (v ++ k) := by simpa using hline
  exact (List.prefix_append_right_inj start).2 (hword.prefix_of_append_eq hgap hlast hbehind)

/-- A word that fits behind a line may be counted to what is set behind it. -/
theorem FitsBehind.of_append {o : Options} {line word behind : Text}
    (hfull : allBlank line = false) (htrim : trimEnd line = line) (hword : Unbroken word)
    (hbehind : ∀ c ∈ behind.head?, isBlank c = true)
    (hfits : word.head? = some '@' ∨ o.columns (line ++ ' ' :: word) ≤ o.printWidth.toNat)
    (h : FitsBehind o (line ++ ' ' :: word) (line ++ ' ' :: word ++ behind)) :
    FitsBehind o line (line ++ ' ' :: word ++ behind) := by
  intro front v k hline hat hprefix hfront
  obtain ⟨gap, rfl⟩ := hprefix
  obtain ⟨c, gap, rfl⟩ := List.exists_cons_of_ne_nil (hat.gap_ne_nil hfull htrim)
  have hsplit : ' ' :: (word ++ behind) = c :: (gap ++ (v ++ k)) := by simpa using hline
  obtain ⟨rfl, hinner⟩ := List.cons.inj hsplit
  by_cases hgap : gap = []
  · -- it is the word itself
    subst hgap
    obtain rfl := hword.eq_of_append_eq hat.unbroken hbehind hat.behind hinner
    simpa using hfits
  · have hlast : ∀ c ∈ gap.getLast?, isBlank c = true := by
      rw [← List.getLast?_append_of_ne_nil (line ++ [' ']) hgap]
      simpa using hat.front
    obtain ⟨r, rfl⟩ := hword.prefix_of_append_eq hgap hlast hinner
    exact h _ v k hline hat ⟨r, by simp⟩ hfront

namespace Greedy

variable {o : Options} {line word behind : Text} {ws later : List Text}

/-- No words leave the line as it is. -/
theorem nil (htrim : trimEnd line = line) : Greedy o line [] [] [] where
  words_eq := by simp
  apart := by simp
  trimmed := by simpa using htrim
  fits := by simpa using fitsBehind_self o line
  fits_later := by simp
  breaks := by simp

/-- A word may be the first on its line. -/
theorem of_word {start : Text} (hstart : allBlank start = true) (hword : Unbroken word)
    (h : Greedy o (start ++ word) ws behind later) :
    Greedy o start (word :: ws) (word ++ behind) later where
  words_eq := by
    have hapart := h.apart (by simp [hword.allBlank_eq_false])
    rw [words_append_of_head?_blank hword hapart, List.cons_append, h.words_eq]
  apart := fun hfull => by
    rw [hstart] at hfull
    cases hfull
  trimmed := by simpa using h.trimmed
  fits := by simpa using h.fits.of_word hstart hword
  fits_later := h.fits_later
  breaks := by simpa using h.breaks

/-- A word goes on with the line if it fits. -/
theorem append (hfull : allBlank line = false) (htrim : trimEnd line = line)
    (hword : Unbroken word)
    (hfits : word.head? = some '@' ∨ o.columns (line ++ ' ' :: word) ≤ o.printWidth.toNat)
    (h : Greedy o (line ++ ' ' :: word) ws behind later) :
    Greedy o line (word :: ws) (' ' :: (word ++ behind)) later := by
  have hapart := h.apart (by simp [hfull])
  refine ⟨?_, ?_, ?_, ?_, h.fits_later, ?_⟩
  · rw [words_cons_blank (by decide), words_append_of_head?_blank hword hapart, List.cons_append,
      h.words_eq]
  · intro _ c hc
    obtain rfl : ' ' = c := by simpa using hc
    decide
  · simpa using h.trimmed
  · simpa using h.fits.of_append hfull htrim hword hapart hfits
  · simpa using h.breaks

/-- A word that does not fit begins the next line. -/
theorem broken (htrim : trimEnd line = line) (hword : Unbroken word)
    (hat : word.head? ≠ some '@')
    (hwide : o.printWidth.toNat < o.columns (line ++ ' ' :: word))
    (h : Greedy o word ws behind later) :
    Greedy o line (word :: ws) [] ((word ++ behind) :: later) := by
  have hnext : Greedy o [] (word :: ws) (word ++ behind) later := of_word allBlank_nil hword h
  refine ⟨?_, by simp, ?_, ?_, ?_, ?_⟩
  · simpa using hnext.words_eq
  · simpa [htrim] using hnext.trimmed
  · simpa using fitsBehind_self o line
  · exact List.forall_mem_cons.2 ⟨hnext.fits, hnext.fits_later⟩
  · have hplace : WordAt [] word behind :=
      ⟨hword, by simp, h.apart hword.allBlank_eq_false⟩
    rw [List.append_nil]
    exact .cons_cons ⟨word, behind, rfl, hplace, hat, hwide⟩ hnext.breaks

end Greedy

/-! ## Filling -/

/-- Words are set greedily after a line on which something stands. -/
theorem greedy_fillWords {o : Options} (hwrap : o.wrapText = true) {line : Text}
    (hfull : allBlank line = false) (htrim : trimEnd line = line) {ws : List Text}
    (hws : ∀ w ∈ ws, Unbroken w) (hmeasures : ∀ n ∈ measures o line ws, n < UInt64.size) :
    ∃ behind later, fillWords o line ws = (line ++ behind) :: later ∧
      Greedy o line ws behind later := by
  induction ws generalizing line with
  | nil => exact ⟨[], [], by simp [fillWords, htrim], .nil htrim⟩
  | cons word ws ih =>
    obtain ⟨hword, hws⟩ := List.forall_mem_cons.1 hws
    have hbreaks := breaksBefore_iff hwrap hmeasures
    rw [measures_cons, List.forall_mem_append] at hmeasures
    cases hbreak : breaksBefore o line word with
    | true =>
      rw [hbreak, if_pos rfl] at hmeasures
      obtain ⟨behind, later, hfill, hgreedy⟩ :=
        ih hword.allBlank_eq_false hword.trimEnd_eq hws hmeasures.2
      -- a break: the line ends here, and the word begins the next one
      obtain ⟨-, hat, hwide⟩ := hbreaks.1 hbreak
      refine ⟨[], (word ++ behind) :: later, ?_, hgreedy.broken htrim hword hat hwide⟩
      rw [fillWords, if_pos hbreak, htrim, hfill, List.append_nil]
    | false =>
      have happend : appendWord line word = line ++ ' ' :: word := by simp [appendWord, hfull]
      have hnext : trimEnd (line ++ ' ' :: word) = line ++ ' ' :: word := by
        simpa using trimEnd_append_spaced htrim (List.forall_mem_singleton.2 hword)
      rw [hbreak, happend] at hmeasures
      obtain ⟨behind, later, hfill, hgreedy⟩ := ih (by simp [hfull]) hnext hws hmeasures.2
      have hfits : word.head? = some '@' ∨
          o.columns (line ++ ' ' :: word) ≤ o.printWidth.toNat := by
        by_contra hnot
        obtain ⟨hat, hwide⟩ := not_or.1 hnot
        rw [hbreaks.2 ⟨hfull, hat, not_le.1 hwide⟩] at hbreak
        cases hbreak
      refine ⟨' ' :: (word ++ behind), later, ?_, hgreedy.append hfull htrim hword hfits⟩
      rw [fillWords, hbreak, if_neg Bool.false_ne_true, happend, hfill]
      simp

/-- A paragraph is set greedily, with a seed or without one. -/
theorem wrapped_fillParagraph {o : Options} (hwrap : o.wrapText = true) {seed : Text}
    (hseed : seed = [] ∨ allBlank seed = false ∧ trimEnd seed = seed) {paragraph : Text}
    (hmeasures : ∀ n ∈ measures o (beginning seed paragraph) (words paragraph), n < UInt64.size) :
    Wrapped o seed paragraph (fillParagraph o seed paragraph) := by
  have hwords : ∀ w ∈ words paragraph, Unbroken w := fun _ => unbroken_of_mem_words
  have hfill : fillParagraph o seed paragraph =
    fillWords o (beginning seed paragraph) (words paragraph) := rfl
  rcases hseed with rfl | ⟨hfull, htrim⟩
  · have hindent : allBlank (beginning [] paragraph) = true := allBlank_takeWhile paragraph
    constructor
    · intro _ hnil
      rw [hfill, hnil, fillWords, trimEnd_eq_nil_iff.2 hindent]
    · intro hne
      obtain ⟨word, ws, hcons⟩ := List.exists_cons_of_ne_nil (hne.resolve_left (by simp))
      obtain ⟨hword, hws⟩ := List.forall_mem_cons.1 (hcons ▸ hwords)
      -- after the indentation alone nothing breaks, so the first word stands on the first line
      have hbreak := breaksBefore_of_allBlank (o := o) hindent word
      have happend : appendWord (beginning [] paragraph) word = beginning [] paragraph ++ word := by
        simp [appendWord, hindent]
      have hline : allBlank (beginning [] paragraph ++ word) = false := by
        simp [hword.allBlank_eq_false]
      have htrim : trimEnd (beginning [] paragraph ++ word) = beginning [] paragraph ++ word := by
        rw [trimEnd_append hword.allBlank_eq_false, hword.trimEnd_eq]
      rw [hcons, measures_cons, hbreak, happend, List.forall_mem_append] at hmeasures
      obtain ⟨behind, later, hlines, hgreedy⟩ :=
        greedy_fillWords hwrap hline htrim hws hmeasures.2
      refine ⟨word ++ behind, later, ?_, hcons ▸ hgreedy.of_word hindent hword⟩
      rw [hfill, hcons, fillWords, hbreak, if_neg Bool.false_ne_true, happend, hlines]
      simp
  · have hne := ne_nil_of_allBlank_eq_false hfull
    have hstart : beginning seed paragraph = seed := by simp [beginning, hne]
    rw [hstart] at hmeasures
    obtain ⟨behind, later, hlines, hgreedy⟩ := greedy_fillWords hwrap hfull htrim hwords hmeasures
    refine ⟨fun hnil => absurd hnil hne, fun _ => ⟨behind, later, ?_, ?_⟩⟩
    · rw [hfill, hstart, hlines]
    · rwa [hstart]

/-- Each paragraph of a text is set for itself, and greedily: the first after the seed, and the
others after the white space in front of them. -/
theorem fill_wraps {o : Options} (hwrap : o.wrapText = true) {seed : Text}
    (hseed : seed = [] ∨ allBlank seed = false ∧ trimEnd seed = seed) {text : Text}
    (hmeasures : ∀ n ∈ measuresOfText o seed text, n < UInt64.size) :
    ∃ first rest, pieces text = first :: rest ∧
      fill o seed text = fillParagraph o seed first ++ rest.flatMap (fillParagraph o []) ∧
      Wrapped o seed first (fillParagraph o seed first) ∧
      ∀ paragraph ∈ rest, Wrapped o [] paragraph (fillParagraph o [] paragraph) := by
  obtain ⟨first, rest, hpieces⟩ := exists_pieces_eq_cons text
  rw [measuresOfText, hpieces] at hmeasures
  obtain ⟨hfirst, hrest⟩ := List.forall_mem_append.1 hmeasures
  refine ⟨first, rest, hpieces, fill_of_pieces o seed hpieces,
    wrapped_fillParagraph hwrap hseed hfirst,
    fun paragraph hparagraph => wrapped_fillParagraph hwrap (.inl rfl) fun n hn => ?_⟩
  exact hrest n (List.mem_flatMap.2 ⟨paragraph, hparagraph, hn⟩)

/-- Two paragraphs after the seed `@var int`, the second of them indented. The word `@long` ends
beyond the print width and stays where it is. -/
theorem fill_wraps_seeded :
    let o : Options := { printWidth := 12, wrapText := true }
    let seed := "@var int".toList
    let text := "$x the @long sum\n\tof two parts".toList
    o.wrapText = true ∧ (seed = [] ∨ allBlank seed = false ∧ trimEnd seed = seed) ∧
      (∀ n ∈ measuresOfText o seed text, n < UInt64.size) ∧
      fill o seed text =
        ["@var int $x", "the @long", "sum", "\tof two", "parts"].map String.toList ∧
      ∃ first rest, pieces text = first :: rest ∧
        Wrapped o seed first (fillParagraph o seed first) ∧
        ∀ paragraph ∈ rest, Wrapped o [] paragraph (fillParagraph o [] paragraph) := by
  intro o seed text
  have hseed : seed = [] ∨ allBlank seed = false ∧ trimEnd seed = seed := by decide
  have hmeasures : ∀ n ∈ measuresOfText o seed text, n < UInt64.size := by decide
  obtain ⟨first, rest, hpieces, -, hfirst, hrest⟩ := fill_wraps (o := o) rfl hseed hmeasures
  exact ⟨rfl, hseed, hmeasures, by decide, first, rest, hpieces, hfirst, hrest⟩

end Docblock.Comment
