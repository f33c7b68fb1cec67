import Mathlib.Data.List.TakeWhile
import Docblock.TypeExpr.Token

/-!
# What the token readers accept

Each reader of `Docblock.TypeExpr.Token` is pinned down by one equivalence: a reader succeeds
exactly when the text, after its layout, is the token followed by what the reader leaves. A mark is
a fixed text; a name, a parameter's name and the body of a literal are described by the predicates
`IsName`, `IsParameterName` and `IsBody`, which say nothing of the readers.

The readers are greedy, so each equivalence for a word also says that what is left does not go on
with the word.

For each token there are then a few lemmas in one direction, in the form in which rules use them:
from the token at its place to what its reader answers, and that what is left is shorter. A literal
that is opened and not closed is no token, and the readers fail on it; how they report it is for the
rules.

Characters beyond ASCII are all characters of names, as in the source, and nothing is said of which
of them make sense in one.
-/

namespace Docblock

/-- Nothing is left of a text that does not begin so. -/
theorem isPrefixOf?_eq_none_iff {start s : Text} :
    start.isPrefixOf? s = none ↔ ¬ start <+: s := by
  rw [Option.eq_none_iff_forall_ne_some]
  simp only [ne_eq, Text.isPrefixOf?_eq_some_iff, List.prefix_iff_eq_append]
  constructor
  · intro h hs
    exact h _ hs.symm
  · intro h r hr
    exact h (by rw [hr, List.drop_left])

namespace Token

/-! ## Layout -/

/-- A text of layout alone. -/
def IsLayout (g : Text) : Prop := ∀ c ∈ g, isLayout c = true

/-- No layout is layout. -/
theorem IsLayout.nil : IsLayout [] := by simp [IsLayout]

/-- Layout behind layout is layout. -/
theorem IsLayout.append {g h : Text} (hg : IsLayout g) (hh : IsLayout h) : IsLayout (g ++ h) := by
  intro c hc
  rcases List.mem_append.1 hc with hc | hc
  · exact hg c hc
  · exact hh c hc

/-- Layout in front of a text is skipped with the text's own. -/
@[simp] theorem skip_layout_append {g : Text} (hg : IsLayout g) (s : Text) :
    skip (g ++ s) = skip s := by
  induction g with
  | nil => rfl
  | cons c g ih =>
    have hc : isLayout c = true := hg c List.mem_cons_self
    have hrest : IsLayout g := fun d hd => hg d (List.mem_cons_of_mem _ hd)
    have ih := ih hrest
    simp only [skip, List.cons_append, List.dropWhile_cons, hc, if_true]
    exact ih

/-- Layout ends a name. -/
theorem not_isNameChar_of_isLayout {c : Char} (h : isLayout c = true) : isNameChar c = false := by
  simp only [isLayout, Bool.or_eq_true, beq_iff_eq] at h
  rcases h with ((rfl | rfl) | rfl) | rfl <;> decide

/-- Layout ends the name of a parameter. -/
theorem not_isParameterChar_of_isLayout {c : Char} (h : isLayout c = true) :
    isParameterChar c = false := by
  simp only [isLayout, Bool.or_eq_true, beq_iff_eq] at h
  rcases h with ((rfl | rfl) | rfl) | rfl <;> decide

/-- A text is the layout in front of it and the rest. -/
theorem exists_layout_append_skip (s : Text) : ∃ g, IsLayout g ∧ s = g ++ skip s := by
  refine ⟨s.takeWhile isLayout, ?_, (List.takeWhile_append_dropWhile).symm⟩
  intro c hc
  exact List.mem_takeWhile_imp hc

/-- A text that begins with no layout is left as it is. -/
theorem skip_eq_self {s : Text} (h : ∀ c ∈ s.head?, isLayout c = false) : skip s = s := by
  cases s with
  | nil => rfl
  | cons c s =>
    have hc : isLayout c = false := h c rfl
    simp [skip, hc]

end Token

/-! ## Marks -/

/-- The mark stands at the front of `s`, after layout, and `r` follows it. -/
def Mark.At (m : Mark) (s r : Text) : Prop := Token.skip s = m.text ++ r

/-- The mark does not stand at the front of `s`. -/
def Mark.Absent (m : Mark) (s : Text) : Prop := ¬ m.text <+: Token.skip s

namespace Token

/-- A mark is read where it stands. -/
theorem mark?_eq_some_iff {m : Mark} {s : Text} {r : Shorter s} :
    mark? m s = some r ↔ m.At s r.1 := by
  obtain ⟨r, hr⟩ := r
  rw [mark?, Mark.At, ← Text.isPrefixOf?_eq_some_iff]
  split
  · next r' h => simp [h]
  · next h => simp [h]

/-- A mark is not read where it does not stand. -/
theorem mark?_eq_none_iff {m : Mark} {s : Text} : mark? m s = none ↔ m.Absent s := by
  rw [mark?, Mark.Absent, ← isPrefixOf?_eq_none_iff]
  split
  · next r' h => simp [h]
  · next h => simp [h]

end Token

namespace Mark

/-- What follows a mark is shorter than the text. -/
theorem At.length_lt {m : Mark} {s r : Text} (h : m.At s r) : r.length < s.length := by
  have h₁ := congrArg List.length h
  have h₂ := Token.skip_length_le s
  have h₃ := m.text_length_pos
  simp only [List.length_append] at h₁
  omega

/-- Where a mark stands, reading it leaves what follows. -/
theorem At.mark? {m : Mark} {s r : Text} (h : m.At s r) :
    Token.mark? m s = some ⟨r, h.length_lt⟩ :=
  Token.mark?_eq_some_iff.2 h

/-- Where a mark does not stand, reading it fails. -/
theorem Absent.mark? {m : Mark} {s : Text} (h : m.Absent s) : Token.mark? m s = none :=
  Token.mark?_eq_none_iff.2 h

/-- No mark begins with layout, so the layout before it is all that is skipped. -/
theorem head?_text (m : Mark) : ∀ c ∈ m.text.head?, Token.isLayout c = false := by
  cases m <;> decide

/-- A mark that is written after layout stands there. -/
theorem at_append (m : Mark) {g : Text} (hg : Token.IsLayout g) (r : Text) :
    m.At (g ++ (m.text ++ r)) r := by
  rw [At, Token.skip_layout_append hg]
  apply Token.skip_eq_self
  have := m.head?_text
  have := m.text_length_pos
  cases h : m.text with
  | nil => simp [h] at this
  | cons c t => simpa [h] using m.head?_text

/-- A mark is absent where another character stands than its first. -/
theorem absent_of_head? {m : Mark} {s : Text}
    (h : ∀ c ∈ (Token.skip s).head?, c ∉ m.text.head?) : m.Absent s := by
  rintro ⟨r, hr⟩
  have := m.text_length_pos
  cases hm : m.text with
  | nil => simp [hm] at this
  | cons c t =>
    rw [hm] at hr
    exact h c (by simp [← hr]) (by simp [hm])

end Mark

namespace Token

/-! ## The word `is` -/

/-- The word `is` stands at the front of `s`, and `r` follows it. -/
def IsAt (s r : Text) : Prop := skip s = 'i' :: 's' :: r ∧ ∀ c ∈ r.head?, isNameChar c = false

/-- The word `is` is read where it stands and ends. -/
theorem is?_eq_some_iff {s : Text} {r : Shorter s} : is? s = some r ↔ IsAt s r.1 := by
  obtain ⟨r, hr⟩ := r
  rw [is?, IsAt]
  split
  · next r' h =>
    simp only [h, List.cons.injEq, true_and]
    cases hn : r'.head? with
    | none => simp only [Option.any_none]; grind
    | some c => simp only [Option.any_some]; grind
  · next h => grind

/-- What follows the word `is` is shorter than the text. -/
theorem IsAt.length_lt {s r : Text} (h : IsAt s r) : r.length < s.length := by
  have h₁ := congrArg List.length h.1
  have h₂ := skip_length_le s
  simp only [List.length_cons] at h₁
  omega

/-- Where the word `is` stands, reading it leaves what follows. -/
theorem IsAt.is? {s r : Text} (h : IsAt s r) : Token.is? s = some ⟨r, h.length_lt⟩ :=
  is?_eq_some_iff.2 h

/-- The word `is` is not read where it does not stand or goes on. -/
theorem is?_eq_none_iff {s : Text} : is? s = none ↔ ∀ r, ¬ IsAt s r := by
  constructor
  · intro h r hr
    rw [hr.is?] at h
    exact absurd h (by simp)
  · intro h
    cases hs : is? s with
    | none => rfl
    | some r => exact absurd (is?_eq_some_iff.1 hs) (h _)

/-! ## Names -/

/-- A word is `start` and then one or more characters of the kind `p`. -/
def IsWord (p : Char → Bool) (start w : Text) : Prop :=
  ∃ body, body ≠ [] ∧ (∀ c ∈ body, p c = true) ∧ w = start ++ body

/-- What follows a word does not go on with it. -/
def EndsWord (p : Char → Bool) (r : Text) : Prop := ∀ c ∈ r.head?, p c = false

/-- A scan stops where a word ends. -/
theorem takeWhile_append_of_endsWord {p : Char → Bool} {body r : Text}
    (hbody : ∀ c ∈ body, p c = true) (hr : EndsWord p r) :
    (body ++ r).takeWhile p = body ∧ (body ++ r).dropWhile p = r := by
  induction body with
  | nil =>
    cases r with
    | nil => simp
    | cons c r =>
      have hc : p c = false := hr c rfl
      simp [hc]
  | cons c body ih =>
    have hc : p c = true := hbody c List.mem_cons_self
    obtain ⟨h₁, h₂⟩ := ih fun d hd => hbody d (List.mem_cons_of_mem _ hd)
    simp [hc, h₁, h₂]

/-- A word is its start and at least one more character, as many as there are. -/
theorem word?_eq_some_iff {p : Char → Bool} {start s w : Text} {r : Shorter s} :
    word? p start s = some (w, r) ↔ IsWord p start w ∧ s = w ++ r.1 ∧ EndsWord p r.1 := by
  obtain ⟨r, hr⟩ := r
  constructor
  · intro h
    rw [word?] at h
    split at h
    · simp at h
    · next u hu =>
      split at h
      · simp at h
      · next c rest _ hu =>
        have hs := Text.isPrefixOf?_eq_some_iff.1 hu
        split at h
        · next hc =>
          simp only [Option.some.injEq, Prod.mk.injEq, Subtype.mk.injEq] at h
          obtain ⟨rfl, rfl⟩ := h
          refine ⟨⟨c :: rest.takeWhile p, by simp, ?_, rfl⟩, ?_, ?_⟩
          · intro d hd
            rcases List.mem_cons.1 hd with rfl | hd
            · exact hc
            · exact List.mem_takeWhile_imp hd
          · simp [hs, List.takeWhile_append_dropWhile]
          · intro d hd
            have := List.head?_dropWhile_not p rest
            rw [Option.mem_def.1 hd] at this
            simpa using this
        · simp at h
  · rintro ⟨⟨body, hne, hbody, rfl⟩, hs, hend⟩
    rw [word?]
    have hpre : start.isPrefixOf? s = some (body ++ r) :=
      Text.isPrefixOf?_eq_some_iff.2 (by simpa using hs)
    cases body with
    | nil => exact absurd rfl hne
    | cons c body =>
      have hc : p c = true := hbody c List.mem_cons_self
      obtain ⟨h₁, h₂⟩ := takeWhile_append_of_endsWord (r := r)
        (fun d hd => hbody d (List.mem_cons_of_mem _ hd)) hend
      split
      · next h => simp [hpre] at h
      · next u hu =>
        rw [hpre] at hu
        simp only [List.cons_append, Option.some.injEq] at hu
        subst hu
        simp [hc, h₁, h₂]

/-- A name: a variable, a reference to one, or neither. -/
def IsName (w : Text) : Prop :=
  IsWord isNameChar ['&', '$'] w ∨ IsWord isNameChar ['$'] w ∨ IsWord isNameChar [] w

/-- The name of a parameter, with the marks in front of it. -/
def IsParameterName (w : Text) : Prop :=
  ∃ start ∈ parameterStarts, IsWord isParameterChar start w

/-- The name `w` stands at the front of `s`, and `r` follows it. -/
def NameAt (w s r : Text) : Prop := IsName w ∧ skip s = w ++ r ∧ EndsWord isNameChar r

/-- The parameter's name `w` stands at the front of `s`, and `r` follows it. -/
def ParameterNameAt (w s r : Text) : Prop :=
  IsParameterName w ∧ skip s = w ++ r ∧ EndsWord isParameterChar r

/-- Reading after layout gives the same word and the same rest. -/
theorem afterSkip_eq_iff {s w : Text} {r : Shorter s} {x : Text × Shorter (skip s)} :
    afterSkip x = (w, r) ↔ x.1 = w ∧ x.2.1 = r.1 := by
  simp [afterSkip, Prod.ext_iff, Subtype.ext_iff]

/-- A word that is read after layout, whatever it begins with. -/
theorem map_afterSkip_word? {p : Char → Bool} {start s w : Text} {r : Shorter s} :
    (word? p start (skip s)).map afterSkip = some (w, r) ↔
      IsWord p start w ∧ skip s = w ++ r.1 ∧ EndsWord p r.1 := by
  rw [Option.map_eq_some_iff]
  constructor
  · rintro ⟨⟨w', r'⟩, h, heq⟩
    obtain ⟨h₁, h₂⟩ := afterSkip_eq_iff.1 heq
    simp only at h₁ h₂
    subst h₁
    rw [← h₂]
    exact word?_eq_some_iff.1 h
  · rintro ⟨hw, hs, hend⟩
    have hlt : r.1.length < (skip s).length := by
      obtain ⟨body, hne, -, rfl⟩ := hw
      have := List.length_pos_iff.2 hne
      rw [hs]
      simp only [List.length_append]
      omega
    exact ⟨(w, ⟨r.1, hlt⟩), word?_eq_some_iff.2 ⟨hw, hs, hend⟩, afterSkip_eq_iff.2 ⟨rfl, rfl⟩⟩

/-- A dollar sign stands in no name but at its start. -/
theorem not_isNameChar_dollar : isNameChar '$' = false := by decide

/-- An ampersand stands in no name but at its start. -/
theorem not_isNameChar_ampersand : isNameChar '&' = false := by decide

/-- The marks in front of a name are read off the name itself. -/
theorem leading_name {w r : Text} {start : Text}
    (hstart : start ∈ [['&', '$'], ['$'], []]) (hw : IsWord isNameChar start w) :
    leading [['&', '$'], ['$']] (w ++ r) = start := by
  obtain ⟨body, hne, hbody, rfl⟩ := hw
  cases body with
  | nil => exact absurd rfl hne
  | cons c body =>
    have hc : isNameChar c = true := hbody c List.mem_cons_self
    have h₁ : c ≠ '$' := by rintro rfl; simp [not_isNameChar_dollar] at hc
    have h₂ : c ≠ '&' := by rintro rfl; simp [not_isNameChar_ampersand] at hc
    simp only [List.mem_cons, List.not_mem_nil, or_false] at hstart
    rcases hstart with rfl | rfl | rfl <;>
      simp [leading, List.isPrefixOf, Ne.symm h₁, Ne.symm h₂]

/-- The start that is found is one of those that are looked for, or none. -/
theorem leading_mem (starts : List Text) (s : Text) : leading starts s ∈ starts ++ [[]] := by
  rw [leading]
  cases h : starts.find? (·.isPrefixOf s) with
  | none => simp
  | some start => simp [List.mem_of_find?_eq_some h]

/-- A name is read where one stands and ends. -/
theorem name?_eq_some_iff {s w : Text} {r : Shorter s} :
    name? s = some (w, r) ↔ NameAt w s r.1 := by
  have hstarts : ["&$".toList, "$".toList] = [['&', '$'], ['$']] := by decide
  rw [name?, map_afterSkip_word?, NameAt, hstarts]
  constructor
  · rintro ⟨hw, hs, hend⟩
    refine ⟨?_, hs, hend⟩
    have := leading_mem [['&', '$'], ['$']] (skip s)
    simp only [List.cons_append, List.nil_append, List.mem_cons, List.not_mem_nil,
      or_false] at this
    rcases this with h | h | h <;> rw [h] at hw
    · exact .inl hw
    · exact .inr (.inl hw)
    · exact .inr (.inr hw)
  · rintro ⟨hw, hs, hend⟩
    refine ⟨?_, hs, hend⟩
    rw [hs]
    rcases hw with hw | hw | hw
    · rw [leading_name (by simp) hw]; exact hw
    · rw [leading_name (by simp) hw]; exact hw
    · rw [leading_name (by simp) hw]; exact hw

/-- The longest start of a parameter's name is the one that is found. -/
theorem leading_parameterName {w r start : Text} (hstart : start ∈ parameterStarts)
    (hw : IsWord isParameterChar start w) : leading parameterStarts (w ++ r) = start := by
  obtain ⟨body, -, -, rfl⟩ := hw
  have hstarts : parameterStarts =
      [['&', '.', '.', '.', '$'], ['.', '.', '.', '$'], ['&', '$'], ['$']] := by decide
  rw [hstarts] at hstart ⊢
  simp only [List.mem_cons, List.not_mem_nil, or_false] at hstart
  rcases hstart with rfl | rfl | rfl | rfl <;> simp [leading, List.isPrefixOf]

/-- The name of a parameter is read where one stands and ends. -/
theorem parameterName?_eq_some_iff {s w : Text} {r : Shorter s} :
    parameterName? s = some (w, r) ↔ ParameterNameAt w s r.1 := by
  rw [parameterName?, ParameterNameAt, IsParameterName]
  constructor
  · intro h
    split at h
    · simp at h
    · next start hstart =>
      obtain ⟨hw, hs, hend⟩ := map_afterSkip_word?.1 h
      refine ⟨⟨_, ?_, hw⟩, hs, hend⟩
      rcases List.mem_append.1 (leading_mem parameterStarts (skip s)) with hmem | hmem
      · exact hmem
      · exact absurd (List.mem_singleton.1 hmem) hstart
  · rintro ⟨⟨start, hstart, hw⟩, hs, hend⟩
    have hlead : leading parameterStarts (skip s) = start := by
      rw [hs]
      exact leading_parameterName hstart hw
    rw [hlead]
    split
    · exact absurd hstart (by decide)
    · exact map_afterSkip_word?.2 ⟨hw, hs, hend⟩

/-- A word is not empty. -/
theorem IsWord.length_pos {p : Char → Bool} {start w : Text} (h : IsWord p start w) :
    0 < w.length := by
  obtain ⟨body, hne, -, rfl⟩ := h
  have := List.length_pos_iff.2 hne
  simp only [List.length_append]
  omega

/-- A name is not empty. -/
theorem IsName.length_pos {w : Text} (h : IsName w) : 0 < w.length := by
  rcases h with h | h | h <;> exact h.length_pos

/-- What is left after a word at the front of a text is shorter than the text. -/
theorem length_lt_of_skip_eq_append {s w r : Text} (hw : 0 < w.length) (hs : skip s = w ++ r) :
    r.length < s.length := by
  have h₁ := congrArg List.length hs
  have h₂ := skip_length_le s
  simp only [List.length_append] at h₁
  omega

/-- What follows a name is shorter than the text. -/
theorem NameAt.length_lt {w s r : Text} (h : NameAt w s r) : r.length < s.length :=
  length_lt_of_skip_eq_append h.1.length_pos h.2.1

/-- Where a name stands, reading it gives the name and leaves what follows. -/
theorem NameAt.name? {w s r : Text} (h : NameAt w s r) :
    Token.name? s = some (w, ⟨r, h.length_lt⟩) :=
  name?_eq_some_iff.2 h

/-- What follows the name of a parameter is shorter than the text. -/
theorem ParameterNameAt.length_lt {w s r : Text} (h : ParameterNameAt w s r) :
    r.length < s.length := by
  obtain ⟨⟨start, -, hw⟩, hs, -⟩ := h
  exact length_lt_of_skip_eq_append hw.length_pos hs

/-- Where the name of a parameter stands, reading it gives the name and leaves what follows. -/
theorem ParameterNameAt.parameterName? {w s r : Text} (h : ParameterNameAt w s r) :
    Token.parameterName? s = some (w, ⟨r, h.length_lt⟩) :=
  parameterName?_eq_some_iff.2 h

/-- The name of a parameter is not read where none stands. -/
theorem parameterName?_eq_none_iff {s : Text} :
    parameterName? s = none ↔ ∀ w r, ¬ ParameterNameAt w s r := by
  constructor
  · intro h w r hw
    rw [hw.parameterName?] at h
    exact absurd h (by simp)
  · intro h
    cases hs : parameterName? s with
    | none => rfl
    | some x => exact absurd (parameterName?_eq_some_iff.1 hs) (h _ _)

/-! ## Literals -/

/-- The body of a literal: its quote stands in it only behind a backslash, and no backslash stands
alone at the end. -/
def IsBody (quote : Char) : Text → Prop
  | [] => True
  | '\\' :: _ :: body => IsBody quote body
  | c :: body => c ≠ '\\' ∧ c ≠ quote ∧ IsBody quote body

/-- The body of a literal goes up to the first quote that no backslash takes along. -/
theorem literalBody?_eq_some_iff {quote : Char} (hq : quote ≠ '\\') {s body r : Text} :
    literalBody? quote s = some (body, r) ↔ IsBody quote body ∧ s = body ++ quote :: r := by
  constructor
  · intro h
    fun_induction literalBody? quote s generalizing body with
    | case1 => simp at h
    | case2 c s ih =>
      obtain ⟨⟨b, t⟩, hb, heq⟩ := Option.map_eq_some_iff.1 h
      simp only [Prod.mk.injEq] at heq
      obtain ⟨rfl, rfl⟩ := heq
      obtain ⟨h₁, h₂⟩ := ih hb
      exact ⟨h₁, by simp [h₂]⟩
    | case3 s =>
      simp only [Option.some.injEq, Prod.mk.injEq] at h
      obtain ⟨rfl, rfl⟩ := h
      exact ⟨trivial, rfl⟩
    | case4 c s hc hne ih =>
      obtain ⟨⟨b, t⟩, hb, heq⟩ := Option.map_eq_some_iff.1 h
      simp only [Prod.mk.injEq] at heq
      obtain ⟨rfl, rfl⟩ := heq
      obtain ⟨h₁, h₂⟩ := ih hb
      refine ⟨?_, by simp [h₂]⟩
      -- a backslash here would have taken a character along, for the quote follows
      have hslash : c ≠ '\\' := by
        rintro rfl
        cases s with
        | nil => simp [literalBody?] at hb
        | cons d s => exact hc d s rfl rfl
      rw [IsBody]
      · exact ⟨hslash, hne, h₁⟩
      · rintro d b' rfl -
        exact hslash rfl
  · rintro ⟨hbody, rfl⟩
    fun_induction IsBody quote body with
    | case1 =>
      rw [List.nil_append, literalBody?]
      · simp
      · rintro d s' rfl -
        exact hq rfl
    | case2 c body ih => simp [literalBody?, ih hbody]
    | case3 c body hc ih =>
      obtain ⟨hslash, hne, hbody⟩ := hbody
      rw [List.cons_append, literalBody?]
      · simp [hne, ih hbody]
      · rintro d s' rfl -
        exact hslash rfl

/-- A literal with the given quote and body stands at the front of `s`, and `r` follows it. -/
def LiteralAt (quote : Quote) (body s r : Text) : Prop :=
  IsBody quote.char body ∧ skip s = quote.char :: (body ++ quote.char :: r)

/-- A quote is no backslash, so escaping and ending are told apart. -/
theorem char_ne_backslash (quote : Quote) : quote.char ≠ '\\' := by
  cases quote <;> decide

/-- A quote is seen if it is the first character after layout. -/
theorem quote?_eq_some_iff {s : Text} {quote : Quote} :
    quote? s = some quote ↔ (skip s).head? = some quote.char := by
  rw [quote?]
  split
  · next h => cases quote <;> simp [h, Quote.char]
  · next h => cases quote <;> simp [h, Quote.char]
  · next h₁ h₂ =>
    simp only [reduceCtorEq, false_iff]
    intro hhead
    obtain ⟨r, hr⟩ := List.head?_eq_some_iff.1 hhead
    cases quote with
    | single => exact h₁ r hr
    | double => exact h₂ r hr

/-- No quote is seen if the first character after layout is none. -/
theorem quote?_eq_none_iff {s : Text} :
    quote? s = none ↔ ∀ quote : Quote, (skip s).head? ≠ some quote.char := by
  constructor
  · intro h quote hq
    rw [quote?_eq_some_iff.2 hq] at h
    exact absurd h (by simp)
  · intro h
    cases hs : quote? s with
    | none => rfl
    | some quote => exact absurd (quote?_eq_some_iff.1 hs) (h quote)

/-- Where a literal stands its quote is seen. -/
theorem LiteralAt.quote? {quote : Quote} {body s r : Text} (h : LiteralAt quote body s r) :
    Token.quote? s = some quote :=
  quote?_eq_some_iff.2 (by rw [h.2]; rfl)

/-- What follows a literal is shorter than the text. -/
theorem LiteralAt.length_lt {quote : Quote} {body s r : Text} (h : LiteralAt quote body s r) :
    r.length < s.length := by
  refine length_lt_of_skip_eq_append (w := quote.char :: body ++ [quote.char]) (by simp) ?_
  simp [h.2]

/-- Behind its quote a literal is read where one stands. -/
theorem literal?_eq_some_iff {quote : Quote} {s body : Text} {r : Shorter s}
    (hq : quote? s = some quote) :
    literal? quote s = some (body, r) ↔ LiteralAt quote body s r.1 := by
  obtain ⟨r, hr⟩ := r
  obtain ⟨u, hu⟩ := List.head?_eq_some_iff.1 (quote?_eq_some_iff.1 hq)
  have hdrop : (skip s).drop 1 = u := by rw [hu]; rfl
  have hspec : literalBody? quote.char u = some (body, r) ↔
      IsBody quote.char body ∧ u = body ++ quote.char :: r :=
    literalBody?_eq_some_iff (char_ne_backslash quote)
  simp only [LiteralAt, hu, List.cons.injEq, true_and, ← hspec, literal?]
  split
  · next b t h =>
    rw [hdrop] at h
    simp [h]
  · next h =>
    rw [hdrop] at h
    simp [h]

/-- Where a literal stands, reading it gives its body and leaves what follows. -/
theorem LiteralAt.literal? {quote : Quote} {body s r : Text} (h : LiteralAt quote body s r) :
    Token.literal? quote s = some (body, ⟨r, h.length_lt⟩) :=
  (literal?_eq_some_iff h.quote?).2 h

end Token

end Docblock
