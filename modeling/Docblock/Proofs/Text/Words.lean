import Docblock.Proofs.Text.Cuts

/-!
# Words

The words of a text do not depend on the white space between them: everything follows from the cut
at one white space (`words_append_blank`). A row of words, each behind one space, is `spaced`.

Words are what the formatter must not lose, and white space is what it may change, so most laws
about descriptions and prose compare the words of two texts and not the texts
(`Docblock.Proofs.Comment.Content`, `Docblock.Proofs.Comment.Filling`). The lemmas go from the text
to its words: what is added or trimmed that is blank changes nothing, and what is put together
without white space between (`Unbroken.prefix_of_append_eq`) is one word, whose parts are told apart
by where the first white space stands.

White space is that of `Text.isBlank`, which counts more characters than a space and a tab. Where a
law needs blanks to be plain ones, it says so itself (`Text.PlainBlanks`).
-/

namespace Docblock.Text

/-! ## White space at the ends -/

@[simp] theorem allBlank_nil : allBlank [] = true := rfl

/-- Two texts put together are blank just if both are. -/
@[simp] theorem allBlank_append (a b : Text) : allBlank (a ++ b) = (allBlank a && allBlank b) :=
  List.all_append

theorem allBlank_cons (c : Char) (t : Text) : allBlank (c :: t) = (isBlank c && allBlank t) := rfl

/-- A text is blank if each of its characters is. -/
theorem allBlank_iff {t : Text} : allBlank t = true ↔ ∀ c ∈ t, isBlank c = true := List.all_eq_true

/-- What is scanned as white space is white space. -/
@[simp] theorem allBlank_takeWhile (t : Text) : allBlank (t.takeWhile isBlank) = true :=
  allBlank_iff.2 fun _ hc => List.mem_takeWhile_imp hc

/-- A scan over spaces and tabs takes no other white space. -/
theorem eq_space_or_tab_of_mem_takeWhile {t : Text} {c : Char}
    (h : c ∈ t.takeWhile fun c => c == ' ' || c == '\t') : c = ' ' ∨ c = '\t' := by
  simpa using List.mem_takeWhile_imp h

/-- The empty text is blank, so one that is not blank has a character. -/
theorem ne_nil_of_allBlank_eq_false {t : Text} (h : allBlank t = false) : t ≠ [] := by
  rintro rfl
  cases h

@[simp] theorem trimEnd_nil : trimEnd [] = [] := rfl

/-- A text is trimmed at its end if its last character is no white space. -/
theorem trimEnd_eq_self_iff {t : Text} :
    trimEnd t = t ↔ ∀ c ∈ t.getLast?, isBlank c = false := by
  rw [trimEnd, dropEndWhile_eq_rdropWhile, List.rdropWhile_eq_self_iff]
  constructor
  · intro h c hc
    obtain ⟨hne, rfl⟩ := List.mem_getLast?_eq_getLast hc
    simpa using h hne
  · intro h hne
    simpa using h _ (List.getLast?_eq_some_getLast hne)

/-- Trimming twice trims no more. -/
@[simp] theorem trimEnd_trimEnd (t : Text) : trimEnd (trimEnd t) = trimEnd t :=
  List.rdropWhile_idempotent _ _

/-- Only blank text is trimmed away. -/
theorem trimEnd_eq_nil_iff {t : Text} : trimEnd t = [] ↔ allBlank t = true := by
  rw [trimEnd, dropEndWhile_eq_rdropWhile, List.rdropWhile_eq_nil_iff, allBlank_iff]

/-- A trimmed text that is not empty is more than white space. -/
theorem allBlank_eq_false_of_trimEnd {t : Text} (h : trimEnd t = t) (hne : t ≠ []) :
    allBlank t = false := by
  rw [Bool.eq_false_iff, ne_eq, ← trimEnd_eq_nil_iff, h]
  exact hne

/-- Trimming reaches into the first text only if nothing is left of the second. -/
theorem trimEnd_append_eq (a b : Text) :
    trimEnd (a ++ b) = if (trimEnd b).isEmpty then trimEnd a else a ++ trimEnd b := by
  simp only [trimEnd, dropEndWhile, List.reverse_append, List.dropWhile_append,
    List.isEmpty_reverse]
  split <;> simp

/-- White space at the end goes, whatever stands before it. -/
theorem trimEnd_append_of_allBlank (a : Text) {b : Text} (hb : allBlank b = true) :
    trimEnd (a ++ b) = trimEnd a := by
  rw [trimEnd_append_eq, trimEnd_eq_nil_iff.2 hb]
  rfl

/-- Only the end is trimmed where more than white space stands in it. -/
theorem trimEnd_append {a b : Text} (hb : allBlank b = false) :
    trimEnd (a ++ b) = a ++ trimEnd b := by
  rw [trimEnd_append_eq, if_neg]
  simp [trimEnd_eq_nil_iff, hb]

/-- Only blank text is trimmed away at the front. -/
theorem trimStart_eq_nil_iff {t : Text} : trimStart t = [] ↔ allBlank t = true := by
  rw [trimStart, List.dropWhile_eq_nil_iff, allBlank_iff]

/-- Something is left of a text that is not blank. -/
theorem trimStart_ne_nil {t : Text} (h : allBlank t = false) : trimStart t ≠ [] := by
  rw [ne_eq, trimStart_eq_nil_iff, h]
  exact Bool.false_ne_true

/-- Trimming at the front ends within a text that is not blank. -/
theorem trimStart_append {a : Text} (ha : allBlank a = false) (b : Text) :
    trimStart (a ++ b) = trimStart a ++ b := by
  unfold trimStart
  rw [List.dropWhile_append, if_neg]
  rw [List.isEmpty_iff]
  exact trimStart_ne_nil ha

/-- A text that does not start with white space is left as it is. -/
theorem trimStart_eq_self {t : Text} (h : ∀ c ∈ t.head?, isBlank c = false) : trimStart t = t := by
  cases t with
  | nil => rfl
  | cons c t =>
    have hc : isBlank c = false := h c rfl
    simp [trimStart, hc]

/-- What is left does not start with white space. -/
theorem head?_trimStart (t : Text) : ∀ c ∈ (trimStart t).head?, isBlank c = false := by
  intro c hc
  have hhead := List.head?_dropWhile_not isBlank t
  rw [trimStart] at hc
  rw [Option.mem_def.1 hc] at hhead
  simpa using hhead

/-- Trimming the end leaves the first character that is no white space. -/
theorem head?_trim_eq (t : Text) : (trim t).head? = (trimStart t).head? := by
  rw [trim]
  cases hstart : trimStart t with
  | nil => rfl
  | cons c r =>
    have hc : isBlank c = false := head?_trimStart t c (by rw [hstart]; rfl)
    have hfront : trimEnd [c] = [c] := trimEnd_eq_self_iff.2 (by simpa using hc)
    rw [← List.singleton_append, trimEnd_append_eq, hfront]
    split <;> rfl

/-- A rear of a trimmed text is trimmed. -/
theorem trimEnd_eq_self_of_suffix {t u : Text} (hu : trimEnd u = u) (h : t <:+ u) :
    trimEnd t = t := by
  rw [trimEnd_eq_self_iff] at hu ⊢
  obtain ⟨front, rfl⟩ := h
  cases t with
  | nil => simp
  | cons c t =>
    intro d hd
    apply hu
    rw [List.getLast?_append, Option.mem_def.1 hd]
    rfl

/-! ## The words of a text -/

/-- A word: not empty, and without white space. -/
structure Unbroken (w : Text) : Prop where
  ne_nil : w ≠ []
  not_isBlank : ∀ c ∈ w, isBlank c = false

/-- A word is not blank. -/
theorem Unbroken.allBlank_eq_false {w : Text} (h : Unbroken w) : allBlank w = false := by
  cases w with
  | nil => exact absurd rfl h.ne_nil
  | cons c w => simp [allBlank_cons, h.not_isBlank c List.mem_cons_self]

/-- There is nothing to be trimmed from a word. -/
theorem Unbroken.trimEnd_eq {w : Text} (h : Unbroken w) : trimEnd w = w :=
  trimEnd_eq_self_iff.2 fun c hc => h.not_isBlank c (List.mem_of_mem_getLast? hc)

/-- A line feed is white space, so no word holds one. -/
theorem Unbroken.lf_not_mem {w : Text} (h : Unbroken w) : '\n' ∉ w :=
  fun hmem => absurd (h.not_isBlank _ hmem) (by decide)

/-- The words of a text are not empty and hold no white space. -/
theorem unbroken_of_mem_words {t w : Text} (h : w ∈ words t) : Unbroken w := by
  obtain ⟨hmem, hne⟩ := List.mem_filter.1 h
  exact ⟨by simpa using hne, eq_false_of_mem_splitOnP hmem⟩

@[simp] theorem words_nil : words [] = [] := by simp [words]

/-- The words on either side of a white space are those of the two sides. -/
theorem words_append_blank {c : Char} (hc : isBlank c = true) (a b : Text) :
    words (a ++ c :: b) = words a ++ words b := by
  rw [words, List.splitOnP_append_cons a b hc, List.filter_append]
  rfl

/-- White space at the front is no part of any word. -/
theorem words_cons_blank {c : Char} (hc : isBlank c = true) (t : Text) :
    words (c :: t) = words t := by
  simpa using words_append_blank hc [] t

/-- Blank text in front adds no word. -/
theorem words_append_of_allBlank {a : Text} (ha : allBlank a = true) (b : Text) :
    words (a ++ b) = words b := by
  induction a with
  | nil => rfl
  | cons c a ih =>
    rw [allBlank_cons, Bool.and_eq_true] at ha
    rw [List.cons_append, words_cons_blank ha.1, ih ha.2]

/-- Blank text has no words. -/
theorem words_of_allBlank {t : Text} (h : allBlank t = true) : words t = [] := by
  simpa using words_append_of_allBlank h []

/-- A word has itself as its only word. -/
theorem words_unbroken {w : Text} (h : Unbroken w) : words w = [w] := by
  rw [words, List.splitOnP_eq_singleton h.not_isBlank]
  simp [h.ne_nil]

/-- Trimming at the front takes no word. -/
@[simp] theorem words_trimStart (t : Text) : words (trimStart t) = words t := by
  have hsplit : t.takeWhile isBlank ++ trimStart t = t := List.takeWhile_append_dropWhile
  conv_rhs => rw [← hsplit, words_append_of_allBlank (allBlank_takeWhile t)]

/-- Blank text behind adds no word. -/
theorem words_append_allBlank (a : Text) {b : Text} (hb : allBlank b = true) :
    words (a ++ b) = words a := by
  cases b with
  | nil => simp
  | cons c b =>
    rw [allBlank_cons, Bool.and_eq_true] at hb
    rw [words_append_blank hb.1, words_of_allBlank hb.2, List.append_nil]

/-- Trimming at the end takes no word. -/
@[simp] theorem words_trimEnd (t : Text) : words (trimEnd t) = words t := by
  have hsplit : trimEnd t ++ t.rtakeWhile isBlank = t := List.rdropWhile_append_rtakeWhile
  have hblank : allBlank (t.rtakeWhile isBlank) = true :=
    allBlank_iff.2 fun c hc => List.mem_rtakeWhile_imp hc
  conv_rhs => rw [← hsplit, words_append_allBlank _ hblank]

/-- The first word begins where the text without its leading white space does. -/
theorem head?_words_cons {c : Char} (hc : isBlank c = false) (r : Text) :
    ∃ w, (words (c :: r)).head? = some (c :: w) := by
  obtain ⟨first, parts, hparts⟩ := List.exists_cons_of_ne_nil (List.splitOnP_ne_nil isBlank r)
  exact ⟨first, by simp [words, List.splitOnP_cons_eq_if_modifyHead, hc, hparts]⟩

/-- A text without words is white space. -/
theorem words_eq_nil_iff {t : Text} : words t = [] ↔ allBlank t = true := by
  refine ⟨fun h => ?_, words_of_allBlank⟩
  by_contra hblank
  obtain ⟨c, r, hr⟩ := List.exists_cons_of_ne_nil (mt trimStart_eq_nil_iff.1 hblank)
  have hc : isBlank c = false := head?_trimStart t c (by rw [hr]; rfl)
  obtain ⟨w, hw⟩ := head?_words_cons hc r
  rw [← hr, words_trimStart, h] at hw
  cases hw

/-- Trimming makes no text blank. -/
@[simp] theorem allBlank_trimEnd (t : Text) : allBlank (trimEnd t) = allBlank t := by
  rw [Bool.eq_iff_iff, ← words_eq_nil_iff, ← words_eq_nil_iff, words_trimEnd]

/-- The first word and what comes after it make the text. -/
theorem firstWord_append_afterFirstWord (t : Text) : firstWord t ++ afterFirstWord t = t :=
  List.takeWhile_append_dropWhile

/-- A first word ends at white space. -/
theorem head?_afterFirstWord (t : Text) : ∀ c ∈ (afterFirstWord t).head?, isBlank c = true := by
  intro c hc
  have hhead := List.head?_dropWhile_not (!isBlank ·) t
  rw [afterFirstWord] at hc
  rw [Option.mem_def.1 hc] at hhead
  simpa using hhead

/-- Behind the white space at its front, a text that is not blank has a first word. -/
theorem unbroken_firstWord {t : Text} (h : allBlank t = false) :
    Unbroken (firstWord (trimStart t)) := by
  obtain ⟨c, r, hr⟩ := List.exists_cons_of_ne_nil (trimStart_ne_nil h)
  have hc : isBlank c = false := head?_trimStart t c (by rw [hr]; rfl)
  refine ⟨by simp [hr, firstWord, hc], fun d hd => ?_⟩
  simpa using List.mem_takeWhile_imp hd

/-- A word and what white space parts from it. -/
theorem words_append_of_head?_blank {w k : Text} (hw : Unbroken w)
    (hk : ∀ c ∈ k.head?, isBlank c = true) : words (w ++ k) = w :: words k := by
  cases k with
  | nil => simp [words_unbroken hw]
  | cons c k =>
    have hc := hk c rfl
    rw [words_append_blank hc, words_cons_blank hc, words_unbroken hw]
    rfl

/-- A text that begins where a word begins, and ends in white space, holds the word. -/
theorem Unbroken.prefix_of_append_eq {w front k r : Text} (hw : Unbroken w) (hne : front ≠ [])
    (hfront : ∀ c ∈ front.getLast?, isBlank c = true) (h : w ++ k = front ++ r) : w <+: front := by
  rcases List.append_eq_append_iff.1 h with ⟨m, hm, -⟩ | ⟨m, hm, -⟩
  · exact ⟨m, hm.symm⟩
  · -- else the white space at its end would stand in the word
    have hmem : front.getLast hne ∈ w := hm ▸ List.mem_append_left m (List.getLast_mem hne)
    have hblank := hfront _ (List.getLast?_eq_some_getLast hne)
    rw [hw.not_isBlank _ hmem] at hblank
    cases hblank

/-- The word at the front of a text is told by the text. -/
theorem Unbroken.eq_of_append_eq {v w k r : Text} (hv : Unbroken v) (hw : Unbroken w)
    (hk : ∀ c ∈ k.head?, isBlank c = true) (hr : ∀ c ∈ r.head?, isBlank c = true)
    (h : v ++ k = w ++ r) : v = w := by
  have hwords : v :: words k = w :: words r := by
    rw [← words_append_of_head?_blank hv hk, h, words_append_of_head?_blank hw hr]
  exact (List.cons.inj hwords).1

/-- The first word of a text on which something stands, and the words after it. -/
theorem words_eq_cons {t : Text} (h : allBlank t = false) :
    words t = firstWord (trimStart t) :: words (afterFirstWord (trimStart t)) := by
  have hsplit := firstWord_append_afterFirstWord (trimStart t)
  rw [← words_append_of_head?_blank (unbroken_firstWord h) (head?_afterFirstWord _), hsplit,
    words_trimStart]

/-- A trimmed text begins as its first word does. -/
theorem head?_trim (t : Text) : (trim t).head? = (words t).head?.bind List.head? := by
  have hwords : words t = words (trim t) := by rw [trim, words_trimEnd, words_trimStart]
  rw [hwords]
  cases htrim : trim t with
  | nil => rfl
  | cons c r =>
    have hc : isBlank c = false := by
      apply head?_trimStart t
      obtain ⟨k, hk⟩ := trimEnd_prefix_self (trimStart t)
      rw [trim] at htrim
      rw [← hk, htrim]
      rfl
    obtain ⟨w, hw⟩ := head?_words_cons hc r
    simp [hw]

/-! ## Rows of words -/

/-- Words, each behind a space. -/
def spaced (ws : List Text) : Text := ws.flatMap (' ' :: ·)

@[simp] theorem spaced_nil : spaced [] = [] := rfl

/-- Each word is behind one space. -/
@[simp] theorem spaced_cons (w : Text) (ws : List Text) :
    spaced (w :: ws) = ' ' :: (w ++ spaced ws) := by simp [spaced]

/-- Two rows of words can be spaced one after the other. -/
theorem spaced_append (us vs : List Text) : spaced (us ++ vs) = spaced us ++ spaced vs :=
  List.flatMap_append

/-- A spaced row starts with a space, if with anything. -/
theorem eq_space_of_mem_head?_spaced (ws : List Text) : ∀ c ∈ (spaced ws).head?, c = ' ' := by
  cases ws <;> simp

/-- A spaced row of words is on one line. -/
theorem lf_not_mem_spaced {ws : List Text} (h : ∀ w ∈ ws, Unbroken w) : '\n' ∉ spaced ws := by
  intro hmem
  obtain ⟨w, hw, hmem⟩ := List.mem_flatMap.1 hmem
  exact (h w hw).lf_not_mem (by simpa using hmem)

/-- The words of a row behind another text. -/
theorem words_append_spaced (a : Text) {ws : List Text} (h : ∀ w ∈ ws, Unbroken w) :
    words (a ++ spaced ws) = words a ++ ws := by
  induction ws generalizing a with
  | nil => simp
  | cons w ws ih =>
    obtain ⟨hw, hws⟩ := List.forall_mem_cons.1 h
    have hblank : isBlank ' ' = true := by decide
    have hcut : words (a ++ ' ' :: w) = words a ++ [w] := by
      rw [words_append_blank hblank, words_unbroken hw]
    have hrow := ih (a ++ ' ' :: w) hws
    rw [hcut] at hrow
    simpa using hrow

/-- The words of a spaced row are the row, also without the first space. -/
theorem words_trimStart_spaced {ws : List Text} (h : ∀ w ∈ ws, Unbroken w) :
    words (trimStart (spaced ws)) = ws := by
  rw [words_trimStart]
  simpa using words_append_spaced [] h

/-- A row ends with its last word. -/
theorem trimEnd_append_spaced {a : Text} (ha : trimEnd a = a) {ws : List Text}
    (h : ∀ w ∈ ws, Unbroken w) : trimEnd (a ++ spaced ws) = a ++ spaced ws := by
  induction ws generalizing a with
  | nil => simpa using ha
  | cons w ws ih =>
    obtain ⟨hw, hws⟩ := List.forall_mem_cons.1 h
    have hstep : trimEnd (a ++ [' '] ++ w) = a ++ [' '] ++ w := by
      rw [trimEnd_append hw.allBlank_eq_false, hw.trimEnd_eq]
    simpa using ih hstep hws

end Docblock.Text
