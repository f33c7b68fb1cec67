import Mathlib.Data.List.DropRight
import Mathlib.Data.List.Infix
import Docblock.Text.Line

/-!
# Cutting texts

What the cuts of `Docblock.Text.Blank` and `Docblock.Text.Line` leave is a part of the text that was
cut, in one stretch. So a property that passes to such parts (`Text.Handed`) passes to all that is
cut out of a text. The rest of the module says what cutting and joining undo of each other.

Two kinds of facts stand here, and proofs elsewhere use them for two ends. That a part is a stretch
of the whole (`<:+:`) carries what a comment may not hold into its lines, words and tags: no `*/`,
no line feed, no blank other than the plain ones. That joining undoes cutting (`unpieces_pieces`,
`pieces_unpieces`) is what a second run relies on, where the printed lines are cut again.

Cutting is not undone by joining in every case: lines that hold a line feed are cut further, so
`pieces_unpieces` asks for lines without one.
-/

namespace Docblock.Text

/-- A property of texts that passes to each part of a text, and to lines put one under the other. -/
structure Handed (P : Text → Prop) : Prop where
  part : ∀ {t u : Text}, P u → t <:+: u → P t
  unpieces : ∀ {ls : List Text}, (∀ l ∈ ls, P l) → P (unpieces ls)

/-! ## The ends of a text -/

/-- The last element of a row with another behind it is the last one of the second, if that has any.
-/
theorem mem_getLast?_append {α : Type} {xs ys : List α} {a : α} (h : a ∈ (xs ++ ys).getLast?) :
    a ∈ ys.getLast? ∨ (ys = [] ∧ a ∈ xs.getLast?) := by
  rw [List.getLast?_append] at h
  cases hys : ys.getLast? with
  | none => exact .inr ⟨List.getLast?_eq_none_iff.1 hys, by simpa [hys] using h⟩
  | some b => exact .inl (by simpa [hys] using h)

theorem mem_getLast?_cons {α : Type} {x a : α} {xs : List α} (h : a ∈ (x :: xs).getLast?) :
    a ∈ xs.getLast? ∨ (xs = [] ∧ x = a) := by
  rw [← List.singleton_append] at h
  rcases mem_getLast?_append h with h | ⟨hnil, h⟩
  · exact .inl h
  · exact .inr ⟨hnil, by simpa using h⟩

/-- A row ends as its own rear ends. -/
theorem mem_getLast?_of_suffix {α : Type} {xs ys : List α} (h : xs <:+ ys) {a : α}
    (ha : a ∈ xs.getLast?) : a ∈ ys.getLast? := by
  obtain ⟨front, rfl⟩ := h
  rw [List.getLast?_append, Option.mem_def.1 ha]
  rfl

/-- The cut at the end is the library's, so its lemmas apply. -/
theorem dropEndWhile_eq_rdropWhile {α : Type} (p : α → Bool) (l : List α) :
    dropEndWhile p l = l.rdropWhile p := rfl

/-- Two tests that agree on a list drop the same front of it. -/
theorem dropWhile_congr {α : Type} {p q : α → Bool} {l : List α} (h : ∀ a ∈ l, p a = q a) :
    l.dropWhile p = l.dropWhile q := by
  induction l with
  | nil => rfl
  | cons a l ih =>
    obtain ⟨ha, hl⟩ := List.forall_mem_cons.1 h
    rw [List.dropWhile_cons, List.dropWhile_cons, ha, ih hl]

/-- What is trimmed at the front is a rear part. -/
theorem trimStart_suffix (t : Text) : trimStart t <:+ t := List.dropWhile_suffix _

/-- What is trimmed at the end is a front part. -/
theorem trimEnd_prefix_self (t : Text) : trimEnd t <+: t := List.rdropWhile_prefix _ _

/-- What is trimmed at both ends is one stretch of the text. -/
theorem trim_infix_self (t : Text) : trim t <:+: t :=
  (trimEnd_prefix_self _).isInfix.trans (trimStart_suffix t).isInfix

/-- The first word is a front part. -/
theorem firstWord_prefix_self (t : Text) : firstWord t <+: t := List.takeWhile_prefix _

/-- What comes after the first word is a rear part. -/
theorem afterFirstWord_suffix (t : Text) : afterFirstWord t <:+ t := List.dropWhile_suffix _

/-- Dropping a start leaves a text just if the start was there. -/
theorem dropStart?_eq_some_iff {start t r : Text} :
    dropStart? start t = some r ↔ t = start ++ r := isPrefixOf?_eq_some_iff

/-- Dropping an end leaves a text just if the end was there. -/
theorem dropEnd?_eq_some_iff {tail t r : Text} : dropEnd? tail t = some r ↔ t = r ++ tail := by
  simp only [dropEnd?, Option.map_eq_some_iff, isPrefixOf?_eq_some_iff]
  constructor
  · rintro ⟨u, hu, rfl⟩
    simpa using congrArg List.reverse hu
  · rintro rfl
    exact ⟨r.reverse, by simp, by simp⟩

/-- Taking off a start, if there is one, leaves the rear of the text. -/
theorem getD_dropStart?_rear (start t : Text) : (dropStart? start t).getD t <:+ t := by
  cases h : dropStart? start t with
  | none => exact List.suffix_refl t
  | some r =>
    rw [dropStart?_eq_some_iff] at h
    exact ⟨start, h.symm⟩

/-- Taking off an end, if there is one, leaves the front of the text. -/
theorem getD_dropEnd?_front (tail t : Text) : (dropEnd? tail t).getD t <+: t := by
  cases h : dropEnd? tail t with
  | none => exact List.prefix_refl t
  | some r =>
    rw [dropEnd?_eq_some_iff] at h
    exact ⟨tail, h.symm⟩

/-! ## Pairs of characters -/

/-- Nowhere in the text does `d` follow `c` at once. -/
def NoPair (c d : Char) (t : Text) : Prop := ¬ [c, d] <:+: t

/-- A stretch of a text holds no pair that the text does not hold. -/
theorem NoPair.part {c d : Char} {t u : Text} (hu : NoPair c d u) (h : t <:+: u) : NoPair c d t :=
  fun hpair => hu (hpair.trans h)

@[simp] theorem noPair_nil {c d : Char} : NoPair c d [] := by simp [NoPair]

/-- A pair stands at the front of a text or further on. -/
theorem noPair_cons {c d e : Char} {t : Text} :
    NoPair c d (e :: t) ↔ ¬ (e = c ∧ t.head? = some d) ∧ NoPair c d t := by
  have hfront : [c, d] <+: e :: t ↔ e = c ∧ t.head? = some d := by
    cases t with
    | nil => simp
    | cons f t => simp [List.cons_prefix_cons, eq_comm]
  rw [NoPair, NoPair, List.infix_cons_iff, hfront, not_or]

/-- A pair does not stand in two texts put together if it stands in neither and does not form at
their border. -/
theorem noPair_append {c d : Char} {a b : Text} :
    NoPair c d (a ++ b) ↔
      NoPair c d a ∧ NoPair c d b ∧ ¬ (a.getLast? = some c ∧ b.head? = some d) := by
  induction a with
  | nil => simp
  | cons e a ih =>
    rw [List.cons_append, noPair_cons, noPair_cons, ih]
    cases a with
    | nil =>
      simp only [List.nil_append, List.getLast?_nil, List.head?_nil, List.getLast?_singleton,
        noPair_nil, Option.some.injEq, reduceCtorEq, and_false, not_false_eq_true, true_and]
      tauto
    | cons f a =>
      simp only [List.cons_append, List.head?_cons, List.getLast?_cons_cons]
      tauto

/-! ## Splitting -/

/-- The parts of a list that is split stand in it. -/
theorem infix_of_mem_splitOnP {α : Type} {p : α → Bool} {l part : List α}
    (h : part ∈ l.splitOnP p) : part <:+: l := by
  -- of the first part it has to be known that it stands at the front
  suffices hboth : (∀ first ∈ (l.splitOnP p).head?, first <+: l) ∧
      ∀ part ∈ l.splitOnP p, part <:+: l from hboth.2 part h
  clear h part
  induction l with
  | nil => simp
  | cons c l ih =>
    obtain ⟨first, parts, hparts⟩ := List.exists_cons_of_ne_nil (List.splitOnP_ne_nil p l)
    simp only [hparts, List.head?_cons, Option.mem_some_iff, forall_eq', List.mem_cons,
      forall_eq_or_imp] at ih
    obtain ⟨hfirst, -, hrest⟩ := ih
    rw [List.splitOnP_cons_eq_if_modifyHead, hparts]
    split
    · refine ⟨by simp, fun part hpart => ?_⟩
      rcases List.mem_cons.1 hpart with rfl | hpart
      · exact List.nil_infix
      · have hpart : part <:+: l := by
          rcases List.mem_cons.1 hpart with rfl | hpart
          · exact hfirst.isInfix
          · exact hrest part hpart
        exact List.infix_cons hpart
    · have hfront : c :: first <+: c :: l := List.cons_prefix_cons.2 ⟨rfl, hfirst⟩
      refine ⟨by simpa using hfront, fun part hpart => ?_⟩
      rcases List.mem_cons.1 hpart with rfl | hpart
      · exact hfront.isInfix
      · exact List.infix_cons (hrest part hpart)

/-- No element at which a list is split stands in its parts. -/
theorem eq_false_of_mem_splitOnP {α : Type} {p : α → Bool} {l part : List α}
    (h : part ∈ l.splitOnP p) : ∀ c ∈ part, p c = false := by
  induction l generalizing part with
  | nil => simp_all
  | cons c l ih =>
    obtain ⟨first, parts, hparts⟩ := List.exists_cons_of_ne_nil (List.splitOnP_ne_nil p l)
    rw [hparts] at ih
    rw [List.splitOnP_cons_eq_if_modifyHead, hparts] at h
    split at h
    · rcases List.mem_cons.1 h with rfl | h
      · simp
      · exact ih h
    · next hc =>
      rcases List.mem_cons.1 h with rfl | h
      · exact List.forall_mem_cons.2 ⟨by simpa using hc, ih List.mem_cons_self⟩
      · exact ih (List.mem_cons_of_mem _ h)

/-- Cutting at line feeds gives at least one piece, also of the empty text. -/
theorem exists_pieces_eq_cons (t : Text) : ∃ first rest, pieces t = first :: rest :=
  List.exists_cons_of_ne_nil (List.splitOn_ne_nil '\n' t)

/-- A piece is one stretch of the text. -/
theorem infix_of_mem_pieces {t piece : Text} (h : piece ∈ pieces t) : piece <:+: t :=
  infix_of_mem_splitOnP h

/-- The cut is made at every line feed. -/
theorem lf_not_mem_of_mem_pieces {t piece : Text} (h : piece ∈ pieces t) : '\n' ∉ piece :=
  fun hmem => absurd (eq_false_of_mem_splitOnP h _ hmem) (by simp)

/-- A word is one stretch of the text. -/
theorem infix_of_mem_words {t word : Text} (h : word ∈ words t) : word <:+: t :=
  infix_of_mem_splitOnP (List.mem_filter.1 h).1

/-- Joining the pieces gives the text back. -/
@[simp] theorem unpieces_pieces (t : Text) : unpieces (pieces t) = t :=
  List.intercalate_splitOn '\n'

/-- Lines without a line feed are told apart again. -/
theorem pieces_unpieces {ls : List Text} (hne : ls ≠ []) (h : ∀ l ∈ ls, '\n' ∉ l) :
    pieces (unpieces ls) = ls :=
  List.splitOn_intercalate '\n' h hne

/-- A text without a line feed is one piece. -/
theorem pieces_of_lf_not_mem {t : Text} (h : '\n' ∉ t) : pieces t = [t] := by
  have hsingle := pieces_unpieces (List.cons_ne_nil t []) (List.forall_mem_singleton.2 h)
  simpa [unpieces] using hsingle

/-- A text in front without a line feed lengthens the first piece. -/
theorem pieces_append_of_lf_not_mem {a : Text} (h : '\n' ∉ a) (t : Text) :
    ∃ first rest, pieces t = first :: rest ∧ pieces (a ++ t) = (a ++ first) :: rest := by
  induction a with
  | nil =>
    obtain ⟨first, rest, hpieces⟩ := exists_pieces_eq_cons t
    exact ⟨first, rest, hpieces, hpieces⟩
  | cons c a ih =>
    obtain ⟨hc, ha⟩ := List.ne_and_not_mem_of_not_mem_cons h
    obtain ⟨first, rest, ht, hat⟩ := ih ha
    refine ⟨first, rest, ht, ?_⟩
    rw [pieces] at hat
    rw [List.cons_append, pieces, List.splitOn_cons_eq_if_modifyHead, hat,
      if_neg (by simpa using hc.symm)]
    rfl

/-- A joined row, as its first element and each other one behind a separator. -/
theorem intercalate_eq_append_flatMap (separator : Text) (row : Text) (rows : List Text) :
    separator.intercalate (row :: rows) = row ++ rows.flatMap (separator ++ ·) := by
  induction rows generalizing row with
  | nil => simp
  | cons next rows ih => rw [List.intercalate_cons_cons, ih, List.flatMap_cons, List.append_assoc,
      List.append_assoc]

/-- Lines behind a text, each after a line feed. -/
theorem unpieces_cons (l : Text) (ls : List Text) :
    unpieces (l :: ls) = l ++ ls.flatMap ('\n' :: ·) :=
  intercalate_eq_append_flatMap ['\n'] l ls

/-- Two lines at the front are joined by one line feed. -/
theorem unpieces_cons_cons (a b : Text) (ls : List Text) :
    unpieces (a :: b :: ls) = a ++ '\n' :: unpieces (b :: ls) := by
  simp [unpieces]

/-- What stands in front of the first line stands in front of the joined text. -/
theorem unpieces_cons_append (a line : Text) (rest : List Text) :
    unpieces ((a ++ line) :: rest) = a ++ unpieces (line :: rest) := by
  cases rest with
  | nil => simp [unpieces]
  | cons next rest => simp [unpieces]

/-- An empty first line leaves its line feed. -/
theorem unpieces_nil_cons (line : Text) (rest : List Text) :
    unpieces ([] :: line :: rest) = '\n' :: unpieces (line :: rest) := by
  simp [unpieces]

/-- Two rows of lines, the last of the one being the front of the first of the other. -/
theorem unpieces_append_cons (front : List Text) (a b : Text) (rest : List Text) :
    unpieces (front ++ (a ++ b) :: rest) = unpieces (front ++ [a]) ++ unpieces (b :: rest) := by
  induction front with
  | nil =>
    rw [List.nil_append, unpieces_cons_append]
    simp [unpieces]
  | cons l front ih =>
    cases front with
    | nil =>
      simp only [List.nil_append] at ih
      simp only [List.cons_append, List.nil_append, unpieces_cons_cons, ih, List.append_assoc]
    | cons next front =>
      simp only [List.cons_append] at ih
      simp only [List.cons_append, unpieces_cons_cons, ih, List.append_assoc]

/-- Each of several lines stands in what they make. -/
theorem infix_unpieces_of_mem {ls : List Text} {l : Text} (h : l ∈ ls) : l <:+: unpieces ls := by
  induction ls with
  | nil => simp at h
  | cons a ls ih =>
    cases ls with
    | nil => simp [List.mem_singleton.1 h, unpieces]
    | cons b ls =>
      rw [unpieces_cons_cons]
      rcases List.mem_cons.1 h with rfl | h
      · exact (List.prefix_append _ _).isInfix
      · exact (ih h).trans ((List.suffix_cons '\n' _).trans (List.suffix_append a _)).isInfix

/-- All lines but the first are the same towards the end of a text. -/
theorem tail_pieces_suffix {s t : Text} (h : s <:+ t) : (pieces s).tail <:+ (pieces t).tail := by
  obtain ⟨front, rfl⟩ := h
  induction front with
  | nil => exact List.suffix_refl _
  | cons c front ih =>
    refine ih.trans ?_
    rw [List.cons_append]
    generalize front ++ s = u
    obtain ⟨first, rest, hpieces⟩ := exists_pieces_eq_cons u
    rw [pieces] at hpieces
    rw [pieces, pieces, List.splitOn_cons_eq_if_modifyHead, hpieces]
    split
    · exact List.suffix_cons first rest
    · exact List.suffix_refl rest

/-! ## The lines of a file -/

/-- A line is a stretch of a piece, less a carriage return. -/
theorem infix_of_mem_linesOfPieces {ps : List Text} {line : Text} (h : line ∈ linesOfPieces ps) :
    ∃ piece ∈ ps, line <:+: piece := by
  fun_induction linesOfPieces ps with
  | case1 => simp at h
  | case2 last => simp at h
  | case3 last => exact ⟨last, by simp, by simp [List.mem_singleton.1 h]⟩
  | case4 piece next rest ih =>
    rcases List.mem_cons.1 h with rfl | h
    · exact ⟨piece, List.mem_cons_self, (getD_dropEnd?_front _ _).isInfix⟩
    · obtain ⟨p, hp, hline⟩ := ih h
      exact ⟨p, List.mem_cons_of_mem _ hp, hline⟩

/-- A line holds no line feed. -/
theorem lf_not_mem_fileLine {t line : Text} (h : line ∈ lines t) : '\n' ∉ line := by
  obtain ⟨piece, hpiece, hline⟩ := infix_of_mem_linesOfPieces h
  exact fun hmem => lf_not_mem_of_mem_pieces hpiece (hline.subset hmem)

/-- A line is one stretch of the text. -/
theorem infix_of_mem_lines {t line : Text} (h : line ∈ lines t) : line <:+: t := by
  obtain ⟨piece, hpiece, hline⟩ := infix_of_mem_linesOfPieces h
  exact hline.trans (infix_of_mem_pieces hpiece)

end Docblock.Text
