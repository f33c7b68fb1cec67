import Mathlib.Data.List.TakeWhile
import Docblock.Proofs.Text.Closing

/-!
# Lexical steps look no further than the next doc comment

A lexical step that ends before a doc comment is the same step whatever the comment says and
whatever follows it (`step_congr`): no rule reads past the opening mark of the comment. A step over
a closed comment takes exactly the comment and leaves the lexical state as it is.

What is read of a text is told with `a ++ docStart x`: the step has `a` to itself, and `x` is all
that may change. Each measure of a step has one lemma of that form (`through_congr`,
`lineCommentLength_congr`, `quotedLength_congr`, `heredocHead?_congr`, `heredocEnd?_congr`), and the
step in each mode is put together from them. Labels of heredocs are without slashes, which is an
invariant of the lexical state (`State.Labelled`) kept by every step (`labelled_step`).

That the steps tokenize the language as its own lexer does is not what is proved here. The lexer is
taken as it is; the module says only how far it looks.
-/

namespace Docblock.Source

open Text

/-- A text that begins with the opening mark of a doc comment. -/
abbrev docStart (x : Text) : Text := '/' :: '*' :: '*' :: x

/-! ## Measures of steps -/

/-- A search for the closing mark that ends before a slash does not read what follows the slash. -/
theorem through_congr {a x : Text} (y : Text)
    (h : through "*/".toList (a ++ '/' :: x) ≤ a.length) :
    through "*/".toList (a ++ '/' :: y) = through "*/".toList (a ++ '/' :: x) := by
  have hmark : "*/".toList = ['*', '/'] := by decide
  rw [hmark] at h ⊢
  induction a with
  | nil => simp [through, List.isPrefixOf] at h
  | cons c a ih =>
    have hfront : ∀ z, ['*', '/'].isPrefixOf (c :: (a ++ '/' :: z)) =
        ('*' == c && (a.head?.getD '/' == '/')) := by
      intro z
      cases a with
      | nil => simp [List.isPrefixOf]
      | cons d a => simp [List.isPrefixOf, Bool.beq_comm]
    simp only [List.cons_append, through, hfront] at h ⊢
    split
    · rfl
    · next hstop =>
      rw [if_neg hstop, List.length_cons] at h
      rw [ih (by omega)]

/-- A line comment that ends before a slash does not depend on what follows the slash. -/
theorem lineCommentLength_congr {a x : Text} (y : Text)
    (h : lineCommentLength (a ++ '/' :: x) ≤ a.length) :
    lineCommentLength (a ++ '/' :: y) = lineCommentLength (a ++ '/' :: x) := by
  induction a with
  | nil => simp [lineCommentLength] at h
  | cons c a ih =>
    have hfront : ∀ z, "?>".toList.isPrefixOf (c :: (a ++ '/' :: z)) =
        (c == '?' && (a.head? == some '>')) := by
      intro z
      cases a with
      | nil => simp [List.isPrefixOf]
      | cons d a => simp [List.isPrefixOf, Bool.beq_comm]
    simp only [List.cons_append, lineCommentLength, hfront] at h ⊢
    split
    · rfl
    · next hstop =>
      rw [if_neg hstop, List.length_cons] at h
      rw [ih (by omega)]

/-- Away from a backslash a quoted string is measured character by character. -/
theorem quotedLength_cons {quote c : Char} (hc : c ≠ '\\') (r : Text) :
    quotedLength quote (c :: r) = if c = quote then 1 else 1 + quotedLength quote r := by
  cases r <;> simp [quotedLength, hc]

/-- A quoted string that ends before a slash does not depend on what follows the slash. The
recursion is the string's own: a backslash takes two characters at once. -/
theorem quotedLength_congr {quote : Char} (hquote : quote ≠ '/') {x y : Text} :
    ∀ {a : Text}, quotedLength quote (a ++ '/' :: x) ≤ a.length →
      quotedLength quote (a ++ '/' :: y) = quotedLength quote (a ++ '/' :: x)
  | [], h => by
    rw [List.nil_append, quotedLength_cons (by decide), if_neg hquote.symm, List.length_nil] at h
    omega
  | c :: a, h => by
    by_cases hc : c = '\\'
    -- a backslash would take the slash along, and the string would not end before it
    · subst hc
      cases a with
      | nil =>
        simp only [List.cons_append, List.nil_append, quotedLength, List.length_singleton] at h
        omega
      | cons d a =>
        simp only [List.cons_append, quotedLength, List.length_cons] at h ⊢
        have hrest : quotedLength quote (a ++ '/' :: x) ≤ a.length := by omega
        rw [quotedLength_congr hquote hrest]
    · rw [List.cons_append, quotedLength_cons hc] at h
      rw [List.cons_append, List.cons_append, quotedLength_cons hc, quotedLength_cons hc]
      split
      · rfl
      · next hne =>
        rw [if_neg hne, List.length_cons] at h
        have hrest : quotedLength quote (a ++ '/' :: x) ≤ a.length := by omega
        rw [quotedLength_congr hquote hrest]

/-! ## The borders of heredocs -/

/-- A scan that stops at a slash leaves the same rest before it, whatever follows. -/
theorem dropWhile_append_slash {p : Char → Bool} (hp : p '/' = false) (a x : Text) :
    (a ++ '/' :: x).dropWhile p = a.dropWhile p ++ '/' :: x := by
  induction a with
  | nil => simp [hp]
  | cons c a ih =>
    rw [List.cons_append, List.dropWhile_cons, List.dropWhile_cons, ih]
    split <;> rfl

/-- A scan that stops at a slash takes the same characters, whatever follows. -/
theorem takeWhile_append_slash {p : Char → Bool} (hp : p '/' = false) (a x : Text) :
    (a ++ '/' :: x).takeWhile p = a.takeWhile p := by
  induction a with
  | nil => simp [hp]
  | cons c a ih =>
    rw [List.cons_append, List.takeWhile_cons, List.takeWhile_cons, ih]

/-- A slash is no line end, so whether one stands in front is told before it. -/
theorem newlineLength_congr (a x y : Text) :
    newlineLength (a ++ '/' :: y) = newlineLength (a ++ '/' :: x) := by
  rcases a with _ | ⟨c, _ | ⟨d, a⟩⟩
  · rfl
  · by_cases hc : c = '\r'
    · subst hc
      rfl
    · by_cases hn : c = '\n'
      · subst hn
        rfl
      · simp [newlineLength, hc, hn]
  · by_cases hc : c = '\r'
    · subst hc
      by_cases hd : d = '\n'
      · subst hd
        rfl
      · simp [newlineLength, hd]
    · by_cases hn : c = '\n'
      · subst hn
        rfl
      · simp [newlineLength, hc, hn]

/-- What follows the opening quote of a heredoc's head: its label, the closing quote and the end of
the line, `total` characters in all before `s` ends. -/
def heredocLabel? (quote : Text) (raw : Bool) (total : Nat) (s : Text) :
    Option (Text × Bool × Nat) :=
  let label := s.takeWhile isLabelChar
  let afterLabel := s.drop label.length
  let rest := afterLabel.drop quote.length
  if label.isEmpty || label.head?.any Char.isDigit then none
  else if afterLabel.take quote.length ≠ quote then none
  else if newlineLength rest = 0 then none
  else some (label, raw, total - rest.length + newlineLength rest)

/-- The quote with which a heredoc's head begins. -/
def heredocQuote : Text → Text
  | c :: _ => if c = '\'' || c = '"' then [c] else []
  | [] => []

/-- The head of a heredoc, as the quote it starts with and what has to follow that quote. -/
theorem heredocHead?_eq (s : Text) :
    heredocHead? s =
      let start := s.dropWhile fun c => c == ' ' || c == '\t'
      heredocLabel? (heredocQuote start) (heredocQuote start = ['\'']) s.length
        (start.drop (heredocQuote start).length) := by
  unfold heredocHead? heredocLabel? heredocQuote
  cases s.dropWhile fun c => c == ' ' || c == '\t' with
  | nil => rfl
  | cons c r =>
    by_cases hc : (c = '\'' || c = '"') = true
    · simp [hc]
    · simp [hc]

/-- A label, its closing quote and the end of its line are found, or not, before the next slash. The
length counts from the front, so the two texts may differ in length. -/
theorem heredocLabel?_congr {quote : Text} (hlength : quote.length ≤ 1) (hslash : '/' ∉ quote)
    (raw : Bool) (n : Nat) (a x y : Text) :
    heredocLabel? quote raw (n + y.length) (a ++ '/' :: y) =
      heredocLabel? quote raw (n + x.length) (a ++ '/' :: x) := by
  have hlabel : isLabelChar '/' = false := by decide
  have hle : (a.takeWhile isLabelChar).length ≤ a.length := (List.takeWhile_prefix _).length_le
  unfold heredocLabel?
  simp only [takeWhile_append_slash hlabel, List.drop_append_of_le_length hle]
  generalize a.takeWhile isLabelChar = label
  generalize a.drop label.length = b
  -- the length of what follows the slash cancels out of every offset
  have htotal : ∀ (t z : Text), n + z.length - (t ++ '/' :: z).length = n - (t.length + 1) := by
    intro t z
    simp only [List.length_append, List.length_cons]
    omega
  split
  · rfl
  · match quote, hlength with
    | [], _ =>
      simp only [List.length_nil, List.take_zero, List.drop_zero, htotal, newlineLength_congr b x y]
    | [c], _ =>
      cases b with
      | nil =>
        have hne : ['/'] ≠ [c] := fun h => hslash (by simp [← h])
        simp [hne]
      | cons d b =>
        simp only [List.cons_append, List.length_singleton, List.take_succ_cons, List.take_zero,
          List.drop_succ_cons, List.drop_zero, htotal, newlineLength_congr b x y]

/-- The head of a heredoc is found, or not, before the next slash. -/
theorem heredocHead?_congr (a x y : Text) :
    heredocHead? (a ++ '/' :: y) = heredocHead? (a ++ '/' :: x) := by
  have hlength : ∀ z : Text, (a ++ '/' :: z).length = a.length + 1 + z.length := by
    intro z
    simp only [List.length_append, List.length_cons]
    omega
  simp only [heredocHead?_eq, dropWhile_append_slash (p := fun c => c == ' ' || c == '\t')
    (by decide), hlength]
  cases a.dropWhile fun c => c == ' ' || c == '\t' with
  | nil => rfl
  | cons c b =>
    have hquote : ∀ z, heredocQuote (c :: (b ++ '/' :: z)) = heredocQuote (c :: b) := fun _ => rfl
    simp only [List.cons_append, hquote]
    by_cases hc : (c = '\'' || c = '"') = true
    · have hone : heredocQuote (c :: b) = [c] := if_pos hc
      have hslash : '/' ∉ [c] := by
        intro hmem
        rw [← List.mem_singleton.1 hmem] at hc
        exact absurd hc (by decide)
      rw [hone]
      exact heredocLabel?_congr (Nat.le_refl [c].length) hslash _ _ b x y
    · have hnone : heredocQuote (c :: b) = [] := if_neg hc
      have hlength : ([] : Text).length ≤ 1 := Nat.zero_le 1
      rw [hnone]
      exact heredocLabel?_congr hlength List.not_mem_nil _ _ (c :: b) x y

/-- A label stands before the slash if it stands at the front at all. -/
theorem prefix_of_prefix_append_slash {label b z : Text} (hlabel : '/' ∉ label)
    (h : label <+: b ++ '/' :: z) : label <+: b := by
  rcases List.prefix_or_prefix_of_prefix h (List.prefix_append b _) with hle | ⟨r, rfl⟩
  · exact hle
  · rw [List.prefix_append_right_inj] at h
    cases r with
    | nil => simp
    | cons c r =>
      rw [List.cons_prefix_cons] at h
      exact absurd (by simp [h.1]) hlabel

/-- The end of a heredoc is found, or not, before the next slash. -/
theorem heredocEnd?_congr {label : Text} (hlabel : '/' ∉ label) (a x y : Text) :
    heredocEnd? label (a ++ '/' :: y) = heredocEnd? label (a ++ '/' :: x) := by
  unfold heredocEnd?
  simp only [dropWhile_append_slash (p := fun c => c == ' ' || c == '\t') (by decide)]
  generalize a.dropWhile (fun c => c == ' ' || c == '\t') = b
  have hfront : ∀ z, label.isPrefixOf (b ++ '/' :: z) = label.isPrefixOf b := by
    intro z
    rw [Bool.eq_iff_iff, List.isPrefixOf_iff_prefix, List.isPrefixOf_iff_prefix]
    exact ⟨prefix_of_prefix_append_slash hlabel, fun h => h.trans (List.prefix_append _ _)⟩
  have hlength : ∀ z : Text,
      (a ++ '/' :: z).length - (b ++ '/' :: z).length = a.length - b.length := by
    intro z
    simp only [List.length_append, List.length_cons]
    omega
  simp only [hfront, hlength]
  by_cases hb : label.isPrefixOf b = true
  · have hle : label.length ≤ b.length := (List.isPrefixOf_iff_prefix.1 hb).length_le
    have hnext : ∀ z : Text, ((b ++ '/' :: z).drop label.length).head? =
        ((b ++ ['/']).drop label.length).head? := by
      intro z
      rw [List.drop_append_of_le_length hle, List.drop_append_of_le_length hle]
      cases b.drop label.length <;> rfl
    simp only [hnext]
  · simp only [hb, Bool.false_and, Bool.false_eq_true, if_false]

/-! ## Steps -/

/-- The label of a heredoc has no slash in it. -/
def Mode.Labelled : Mode → Prop
  | .heredoc label _ _ => '/' ∉ label
  | _ => True

/-- All labels of a lexical state are without slashes. -/
structure State.Labelled (state : State) : Prop where
  mode : state.mode.Labelled
  stack : ∀ mode ∈ state.stack, mode.Labelled

/-- Outside of code five characters are read at most, and the opening tags have no slash in the
places where two comments could differ. -/
theorem stepOutside_congr (stack : List Mode) {a : Text} (ha : a ≠ []) (x y : Text) :
    stepOutside stack (a ++ docStart y) = stepOutside stack (a ++ docStart x) := by
  -- five characters are looked at, three of them from the opening mark in the worst case
  have hfive : ∀ z, Text.eqIgnoringCase ((a ++ docStart z).take 5) "<?php".toList =
      Text.eqIgnoringCase ((a ++ docStart []).take 5) "<?php".toList := by
    intro z
    match a, ha with
    | [c], _ =>
      have hslash : ('/' : Char).toLower = '/' := by decide
      simp [Text.eqIgnoringCase, hslash]
    | c :: d :: a, _ =>
      have htake : ∀ z : Text, (c :: d :: a ++ docStart z).take 5 =
          (c :: d :: a ++ docStart []).take 5 := by
        intro z
        rcases a with _ | ⟨c₃, _ | ⟨c₄, _ | ⟨c₅, a⟩⟩⟩ <;> simp
      rw [htake z]
  have hthree : ∀ z, "<?=".toList.isPrefixOf (a ++ docStart z) =
      "<?=".toList.isPrefixOf (a ++ docStart []) := by
    intro z
    match a, ha with
    | [c], _ => simp [List.isPrefixOf]
    | [c, d], _ => simp [List.isPrefixOf]
    | c :: d :: e :: a, _ => simp [List.isPrefixOf]
  unfold stepOutside
  rw [hfive x, hfive y, hthree x, hthree y]

/-- Inside a quoted string a step reads two characters. -/
theorem stepQuoted_cons_cons (quote : Char) (stack : List Mode) (c d : Char) (r r' : Text) :
    stepQuoted quote stack (c :: d :: r) = stepQuoted quote stack (c :: d :: r') := by
  unfold stepQuoted
  grind

/-- Inside a heredoc a step reads two characters, but for the search for its end. -/
theorem stepHeredoc_cons_cons (label : Text) (raw : Bool) (stack : List Mode) (c d : Char)
    (r r' : Text) :
    stepHeredoc label raw stack (c :: d :: r) = stepHeredoc label raw stack (c :: d :: r') := by
  unfold stepHeredoc
  grind

/-- A step in the code that begins with no comment, string or heredoc needs two characters. -/
theorem stepCode_cons_cons (stack : List Mode) {c : Char} (hc : c ∉ ['/', '#', '\'', '<'])
    (d : Char) (r r' : Text) : stepCode stack (c :: d :: r) = stepCode stack (c :: d :: r') := by
  unfold stepCode
  grind

/-- In code a step that ends before a doc comment does not depend on the comment. Only four
characters open something of unknown length, and each of these has its own measure. -/
theorem stepCode_congr (stack : List Mode) (c : Char) (a : Text) {x : Text} (y : Text)
    (h : (stepCode stack (c :: (a ++ docStart x))).extra ≤ a.length) :
    stepCode stack (c :: (a ++ docStart y)) = stepCode stack (c :: (a ++ docStart x)) := by
  by_cases hc : c ∈ ['/', '#', '\'', '<']
  · simp only [List.mem_cons, List.not_mem_nil, or_false] at hc
    rcases hc with rfl | rfl | rfl | rfl
    -- the four characters that open something which may be long
    · -- a comment, or a division
      cases a with
      | nil => simp [stepCode] at h
      | cons d a =>
        by_cases hstar : d = '*'
        · subst hstar
          have hhead : ∀ z, (a ++ docStart z).head? = (a ++ docStart x).head? := by
            intro z
            cases a <;> rfl
          simp only [List.cons_append, stepCode, List.length_cons] at h ⊢
          have hle : through "*/".toList (a ++ docStart x) ≤ a.length := by omega
          rw [through_congr _ hle, hhead y]
        · by_cases hslash : d = '/'
          · subst hslash
            simp only [List.cons_append, stepCode, List.length_cons] at h ⊢
            have hle : lineCommentLength (a ++ docStart x) ≤ a.length := by omega
            rw [lineCommentLength_congr _ hle]
          · simp [stepCode, hstar, hslash]
    · -- a line comment, or an attribute
      cases a with
      | nil => simp [stepCode, lineCommentLength] at h
      | cons d a =>
        by_cases hbracket : d = '['
        · subst hbracket
          rfl
        · have hstep : ∀ z, stepCode stack ('#' :: (d :: a ++ docStart z)) =
              ⟨lineCommentLength (d :: a ++ docStart z), ⟨.code, stack⟩, false⟩ := by
            intro z
            simp [stepCode, hbracket]
          rw [hstep] at h ⊢
          rw [hstep, lineCommentLength_congr _ h]
    · have hstep : ∀ z, stepCode stack ('\'' :: (a ++ docStart z)) =
          ⟨quotedLength '\'' (a ++ docStart z), ⟨.code, stack⟩, false⟩ := by
        intro z
        rfl
      rw [hstep] at h ⊢
      rw [hstep, quotedLength_congr (by decide) h]
    · -- a heredoc, or less than
      rcases a with _ | ⟨d, _ | ⟨e, a⟩⟩
      · simp [stepCode]
      · simp [stepCode]
      · by_cases hangles : d = '<' ∧ e = '<'
        · obtain ⟨rfl, rfl⟩ := hangles
          simp only [List.cons_append, stepCode]
          rw [heredocHead?_congr a ('*' :: '*' :: x) ('*' :: '*' :: y)]
        · unfold stepCode
          grind
  -- every other step is over after two characters, and the opening mark has two at least
  · cases a with
    | nil => exact stepCode_cons_cons stack hc _ _ _
    | cons d a => exact stepCode_cons_cons stack hc _ _ _

/-- A step that ends before a doc comment does not depend on what the comment says, nor on what
follows it. -/
theorem step_congr {state : State} (hstate : state.Labelled) (c : Char) (a : Text) {x : Text}
    (y : Text) (h : (step state (c :: (a ++ docStart x))).extra ≤ a.length) :
    step state (c :: (a ++ docStart y)) = step state (c :: (a ++ docStart x)) := by
  obtain ⟨mode, stack⟩ := state
  cases mode with
  | outside => exact stepOutside_congr stack (List.cons_ne_nil c a) x y
  | code => exact stepCode_congr stack c a y h
  | quoted quote =>
    cases a with
    | nil => exact stepQuoted_cons_cons quote stack _ _ _ _
    | cons d a => exact stepQuoted_cons_cons quote stack _ _ _ _
  | heredoc label raw lineStart =>
    have hend : heredocEnd? label (c :: (a ++ docStart y)) =
        heredocEnd? label (c :: (a ++ docStart x)) :=
      heredocEnd?_congr hstate.mode (c :: a) _ _
    have hbody : stepHeredoc label raw stack (c :: (a ++ docStart y)) =
        stepHeredoc label raw stack (c :: (a ++ docStart x)) := by
      cases a with
      | nil => exact stepHeredoc_cons_cons label raw stack _ _ _ _
      | cons d a => exact stepHeredoc_cons_cons label raw stack _ _ _ _
    simp only [step, hend, hbody]

/-- A label is made of name characters, and a slash is none. -/
theorem slash_not_mem_label {s label : Text} {raw : Bool} {length : Nat}
    (h : heredocHead? s = some (label, raw, length)) : '/' ∉ label := by
  rw [heredocHead?_eq] at h
  unfold heredocLabel? at h
  simp only at h
  split at h
  · simp at h
  · split at h
    · simp at h
    · split at h
      · simp at h
      · cases h
        intro hmem
        exact absurd (List.mem_takeWhile_imp hmem) (by decide)

/-- No step brings a slash into a label. -/
theorem labelled_step {state : State} (hstate : state.Labelled) (s : Text) :
    (step state s).state.Labelled := by
  obtain ⟨mode, stack⟩ := state
  obtain ⟨hmode, hstack⟩ := hstate
  have hpush : ∀ {m : Mode}, m.Labelled → ∀ m' ∈ m :: stack, m'.Labelled := fun hm =>
    List.forall_mem_cons.2 ⟨hm, hstack⟩
  cases mode with
  | outside =>
    simp only [step, stepOutside]
    split
    · exact ⟨trivial, hstack⟩
    · split <;> exact ⟨trivial, hstack⟩
  | code =>
    simp only [step, stepCode]
    split
    · exact ⟨trivial, hstack⟩
    · exact ⟨trivial, hstack⟩
    · exact ⟨trivial, hstack⟩
    · exact ⟨trivial, hstack⟩
    · exact ⟨trivial, hstack⟩
    · exact ⟨trivial, hstack⟩
    · exact ⟨trivial, hstack⟩
    · exact ⟨trivial, hstack⟩
    · exact ⟨trivial, hpush trivial⟩
    · split
      · next m outer =>
        exact ⟨hstack m List.mem_cons_self, fun m' hm => hstack m' (List.mem_cons_of_mem _ hm)⟩
      · exact ⟨trivial, hstack⟩
    · split
      -- a heredoc begins: the only step that brings a new label
      · next hhead => exact ⟨slash_not_mem_label hhead, hstack⟩
      · exact ⟨trivial, hstack⟩
    · exact ⟨trivial, hstack⟩
  | quoted quote =>
    simp only [step, stepQuoted]
    split
    · exact ⟨trivial, hstack⟩
    · exact ⟨trivial, hpush trivial⟩
    · exact ⟨trivial, hpush trivial⟩
    · refine ⟨?_, hstack⟩
      show Mode.Labelled (if _ then _ else _)
      split <;> trivial
    · exact ⟨trivial, hstack⟩
  | heredoc label raw lineStart =>
    have hbody : ∀ lineStart, (Mode.heredoc label raw lineStart).Labelled := fun _ => hmode
    simp only [step]
    split
    · exact ⟨trivial, hstack⟩
    · unfold stepHeredoc
      simp only
      split
      · split <;> exact ⟨hbody false, hstack⟩
      · split
        · exact ⟨hbody false, hstack⟩
        · exact ⟨trivial, hpush (hbody false)⟩
      · split
        · exact ⟨hbody false, hstack⟩
        · exact ⟨trivial, hpush (hbody false)⟩
      · exact ⟨hbody _, hstack⟩
      · exact ⟨hbody false, hstack⟩

end Docblock.Source
