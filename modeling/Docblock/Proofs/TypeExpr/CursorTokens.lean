import Docblock.Proofs.Except
import Docblock.Proofs.TypeExpr.Cursor
import Docblock.Proofs.TypeExpr.Tokens

/-!
# The tokens under a cursor

A cursor stands in a text (`Cursor.At`) if the text from its place on is what is left after the last
token, without some of the layout at its front. From there every step of the cursor does what the
reader of `Docblock.TypeExpr.Token` for the same token does with the text that is left, and the
cursor stands in the text again: it passes the token (`Takes`), or fails with the report of the
reader's failure (`Stops`). In particular it never goes astray.

The reader sees characters and the cursor sees bytes, so first the tests of the two are compared
(`TestsAlike`): a scan of bytes ends at the border of a character, where the scan of characters
ends. After that nothing is said about bytes any more but the two offsets of the cursor.

One relation carries both outcomes to the rules of the grammar (`Follows`). Of a failure it keeps
where it is and what stands there (`ParseFailure.IsIn`), since errors quote the text. How far a
cursor moves in a run of which nothing is known is proved in `Docblock.Proofs.TypeExpr.CursorMoves`,
not here.
-/

namespace Docblock

open Text

/-! ## Where a cursor stands -/

/-- The cursor stands in the text: `s` follows the last token, and `t` the layout that was skipped
behind it. -/
def Cursor.At (passage : Passage) (c : Cursor) (s t : Text) : Prop :=
  ∃ before gap, Token.IsLayout gap ∧ passage.text = before ++ s ∧ s = gap ++ t ∧
    c = ⟨byteSize (before ++ gap), byteSize before⟩

/-- A cursor in front of the text. -/
theorem Cursor.at_start (location text : Text) :
    Cursor.At ⟨location, text⟩ ⟨0, 0⟩ text text :=
  ⟨[], [], .nil, rfl, rfl, rfl⟩

/-- A cursor between two parts of the text, the first of which ends with a token. -/
theorem Cursor.at_of_eq_append {passage : Passage} {before r : Text}
    (h : passage.text = before ++ r) :
    Cursor.At passage ⟨byteSize before, byteSize before⟩ r r :=
  ⟨before, [], .nil, h, rfl, by rw [List.append_nil]⟩

namespace Cursor.At

variable {passage : Passage} {s t : Text} {c : Cursor}

/-- A cursor that stands in the text is where it may be moved to. -/
theorem isIn (h : c.At passage s t) : c.isIn passage.text = true := by
  obtain ⟨before, gap, -, htext, rfl, rfl⟩ := h
  refine isIn_iff.2 ⟨?_, ?_, ?_⟩
  · rw [byteSize_append]
    exact Nat.le_add_right _ _
  · exact ⟨before, gap ++ t, htext, rfl⟩
  · exact ⟨before ++ gap, t, by rw [htext, List.append_assoc], rfl⟩

/-- The next token is the same before and after the layout that was skipped. -/
theorem skip_eq (h : c.At passage s t) : Token.skip t = Token.skip s := by
  obtain ⟨before, gap, hgap, -, rfl, -⟩ := h
  exact (Token.skip_layout_append hgap t).symm

/-- The text is cut in two at the cursor. -/
theorem exists_append (h : c.At passage s t) :
    ∃ front, passage.text = front ++ t ∧ c.pos = byteSize front := by
  obtain ⟨before, gap, -, htext, rfl, rfl⟩ := h
  exact ⟨before ++ gap, by rw [htext, List.append_assoc], rfl⟩

/-- The text is cut in two at the end of the last token. -/
theorem exists_stop (h : c.At passage s t) :
    ∃ before, passage.text = before ++ s ∧ c.stop = byteSize before := by
  obtain ⟨before, gap, -, htext, -, rfl⟩ := h
  exact ⟨before, htext, rfl⟩

end Cursor.At

/-- A failure in a text: its place is in front of a token or at the end, and in front of a quote if
the failure is a literal without an end. -/
structure ParseFailure.IsIn (text : Text) (f : ParseFailure) : Prop where
  suffix : f.rest <:+ text
  skipped : Token.skip f.rest = f.rest
  quoted : f.cause = .unterminated → ∃ quote : Quote, f.rest.head? = some quote.char

namespace CursorM

/-! ## Runs -/

/-- The computation has a result, with the cursor at `c` before and `c'` after it. -/
def Runs {α : Type} (passage : Passage) (c : Cursor) (x : CursorM α) (a : α) (c' : Cursor) : Prop :=
  (x.run passage).run c = .ok (a, c')

/-- The computation finds that the text is not what the grammar asks for. -/
def Fails {α : Type} (passage : Passage) (c : Cursor) (x : CursorM α) (e : ParseError) : Prop :=
  (x.run passage).run c = .error (.failed e)

section
variable {α β : Type} {passage : Passage} {c c' c'' : Cursor} {x : CursorM α} {f : α → CursorM β}
  {a : α} {b : β} {e : ParseError}

/-- Behind a computation that has a result, the run is that of what follows. -/
theorem Runs.run_bind (hx : Runs passage c x a c') :
    ((x >>= f).run passage).run c = ((f a).run passage).run c' := by
  rw [ReaderT.run_bind, StateT.run_bind, hx]
  rfl

/-- Two results in a row. -/
theorem Runs.bind (hx : Runs passage c x a c') (hf : Runs passage c' (f a) b c'') :
    Runs passage c (x >>= f) b c'' :=
  hx.run_bind.trans hf

/-- What follows a result fails, so the whole fails. -/
theorem Runs.fails (hx : Runs passage c x a c') (hf : Fails passage c' (f a) e) :
    Fails passage c (x >>= f) e :=
  hx.run_bind.trans hf

/-- Nothing follows a failure. -/
theorem Fails.bind (hx : Fails passage c x e) : Fails passage c (x >>= f) e := by
  rw [Fails, ReaderT.run_bind, StateT.run_bind, hx]
  rfl

end

section
variable {passage : Passage} {c c' : Cursor}

/-- A result alone moves nothing. -/
theorem runs_pure {α : Type} (a : α) : Runs passage c (pure a) a c := rfl

/-- To look where the cursor stands moves nothing. -/
theorem runs_get : Runs passage c get c c := rfl

/-- To look at the text moves nothing. -/
theorem runs_read : Runs passage c read passage c := rfl

/-- A cut at the size of the first of two parts gives the two parts. -/
theorem runs_cut (a b : Text) : Runs passage c (cut (byteSize a) (a ++ b)) (a, b) c := by
  rw [cut, splitAtByte?_append]
  exact runs_pure _

/-- The cursor can be moved to wherever the check allows. -/
theorem runs_moveTo (h : c'.isIn passage.text = true) : Runs passage c (moveTo c') () c' := by
  refine runs_read.bind ?_
  rw [if_pos h]
  rfl

end

variable {passage : Passage} {s t : Text} {c : Cursor}

/-- From a cursor in the text, the text ahead of it can be sliced off. -/
theorem runs_ahead (h : c.At passage s t) : Runs passage c ahead t c := by
  obtain ⟨front, htext, hpos⟩ := h.exists_append
  refine runs_get.bind (runs_read.bind ?_)
  dsimp only
  rw [htext, hpos]
  exact (runs_cut front t).bind (runs_pure t)

/-- The cursor passes what stands in front of it. -/
theorem runs_advance {w r : Text} (h : c.At passage s (w ++ r)) :
    ∃ c', c'.At passage r r ∧ Runs passage c (advance (byteSize w)) () c' := by
  obtain ⟨front, htext, hpos⟩ := h.exists_append
  rw [← List.append_assoc] at htext
  have hat := Cursor.at_of_eq_append htext
  refine ⟨_, hat, runs_get.bind ?_⟩
  rw [hpos, ← byteSize_append]
  exact runs_moveTo hat.isIn

/-- A failure at the cursor is reported as one at the text in front of it. -/
theorem fails_fail {α : Type} (h : c.At passage s t) (cause : ParseCause) (path : List Rule) :
    Fails passage c (fail cause path : CursorM α)
      (ParseFailure.report passage.location passage.text ⟨cause, path, t⟩) := by
  refine runs_get.fails ((runs_ahead h).fails (runs_read.fails ?_))
  obtain ⟨front, htext, hpos⟩ := h.exists_append
  have hoffset : byteSize passage.text - byteSize t = c.pos := by
    rw [htext, hpos, byteSize_append, Nat.add_sub_cancel]
  rw [ParseFailure.report, hoffset]
  rfl

/-! ## Scans of bytes -/

/-- A byte of a character beyond ASCII is none of ASCII. -/
theorem eq_false_of_le_byte {b : UInt8} (h : 0x80 ≤ b) {n : UInt8} (hn : n < 0x80) :
    (b == n) = false := by
  rw [beq_eq_false_iff_ne]
  rintro rfl
  exact absurd (UInt8.lt_of_lt_of_le hn h) (UInt8.lt_irrefl _)

/-- Layout is the same for bytes and for characters: no byte of another character is layout. -/
theorem testsAlike_layout : TestsAlike isLayoutByte Token.isLayout := by
  refine .of_ascii false (by decide +kernel) (fun b hb => ?_) fun c hc => ?_
  · simp [isLayoutByte, eq_false_of_le_byte hb]
  · have hne (d : Char) (hd : d.toNat < 0x80) : c ≠ d := by
      rintro rfl
      omega
    simp [Token.isLayout, hne]

/-- What belongs to a name is the same for bytes and for characters: all bytes of a character beyond
ASCII do. -/
theorem testsAlike_name : TestsAlike isNameByte Token.isNameChar := by
  refine .of_ascii true (by decide +kernel) (fun b hb => ?_) fun c hc => ?_
  · simp [isNameByte, hb]
  · simp [Token.isNameChar, hc]

/-- What belongs to the name of a parameter is the same for bytes and for characters. -/
theorem testsAlike_parameter : TestsAlike isParameterByte Token.isParameterChar := by
  refine .of_ascii true (by decide +kernel) (fun b hb => ?_) fun c hc => ?_
  · simp [isParameterByte, hb]
  · simp [Token.isParameterChar, hc]

/-! ## Looking ahead -/

/-- Layout is skipped up to the next token. -/
theorem runs_skipLayout (h : c.At passage s t) :
    ∃ c', c'.At passage s (Token.skip s) ∧ Runs passage c skipLayout () c' := by
  have hahead := runs_ahead h
  have hskip := h.skip_eq
  obtain ⟨before, gap, hgap, htext, rfl, rfl⟩ := h
  obtain ⟨more, hmore, hsplit⟩ : ∃ more, more = t.takeWhile Token.isLayout ∧
      t = more ++ Token.skip t := ⟨_, rfl, List.takeWhile_append_dropWhile.symm⟩
  have hlayout : Token.IsLayout more := fun d hd => List.mem_takeWhile_imp (hmore ▸ hd)
  have hat : Cursor.At passage ⟨byteSize (before ++ (gap ++ more)), byteSize before⟩ (gap ++ t)
      (Token.skip (gap ++ t)) := by
    refine ⟨before, gap ++ more, hgap.append hlayout, htext, ?_, rfl⟩
    rw [← hskip, List.append_assoc, ← hsplit]
  refine ⟨_, hat, runs_get.bind (hahead.bind ?_)⟩
  have hscan : byteSize (before ++ gap) + ((bytes t).takeWhile isLayoutByte).length =
      byteSize (before ++ (gap ++ more)) := by
    rw [testsAlike_layout.takeWhile_bytes, length_bytes, ← hmore, ← byteSize_append,
      List.append_assoc]
  dsimp only
  rw [hscan]
  exact runs_moveTo hat.isIn

/-- A mark is looked for behind the layout, and the cursor stays in front of it. -/
theorem runs_peek (h : c.At passage s t) (start : Text) :
    ∃ c', c'.At passage s (Token.skip s) ∧
      Runs passage c (peek start) (start.isPrefixOf (Token.skip s)) c' := by
  obtain ⟨c', hat, hskip⟩ := runs_skipLayout h
  exact ⟨c', hat, hskip.bind ((runs_ahead hat).bind (runs_pure _))⟩

/-! ## Words -/

/-- A word is scanned to its end. -/
theorem runs_eatStarting_word {p : UInt8 → Bool} {q : Char → Bool} (hpq : TestsAlike p q)
    {start w r : Text} (hw : Token.IsWord q start w) (hr : Token.EndsWord q r)
    (h : c.At passage s (w ++ r)) :
    ∃ c', c'.At passage r r ∧ Runs passage c (eatStarting start p) (some w) c' := by
  obtain ⟨c', hat, hadvance⟩ := runs_advance h
  refine ⟨c', hat, (runs_ahead h).bind ?_⟩
  obtain ⟨body, hne, hbody, rfl⟩ := hw
  have hscan : ((bytes (start ++ body ++ r)).drop (byteSize start)).takeWhile p = bytes body := by
    rw [List.append_assoc, drop_bytes_append, hpq.takeWhile_bytes,
      (Token.takeWhile_append_of_endsWord hbody hr).1]
  -- The slice behind the first marks is within the text, so the run does not go astray.
  have hlong : ¬ (bytes (start ++ body ++ r)).length < byteSize start := by
    simp only [length_bytes, byteSize_append]
    omega
  have hpos : byteSize body ≠ 0 := mt byteSize_eq_zero_iff.1 hne
  rw [if_neg hlong, hscan, length_bytes]
  dsimp only
  rw [if_neg hpos, ← byteSize_append]
  exact (runs_cut _ _).bind (hadvance.bind (runs_pure _))

/-- Where no character of the kind follows, no word is scanned. -/
theorem runs_eatStarting_none {p : UInt8 → Bool} {q : Char → Bool} (hpq : TestsAlike p q)
    {start r : Text} (hr : Token.EndsWord q r) (h : c.At passage s (start ++ r)) :
    Runs passage c (eatStarting start p) none c := by
  refine (runs_ahead h).bind ?_
  have hscan : ((bytes (start ++ r)).drop (byteSize start)).takeWhile p = bytes [] := by
    have hnil : ∀ d ∈ ([] : Text), q d = true := by simp
    rw [drop_bytes_append, hpq.takeWhile_bytes, ← List.nil_append r,
      (Token.takeWhile_append_of_endsWord hnil hr).1]
  have hlong : ¬ (bytes (start ++ r)).length < byteSize start := by
    simp only [length_bytes, byteSize_append]
    omega
  rw [if_neg hlong, hscan]
  exact runs_pure _

/-! ## Tokens -/

/-- The computation passes the text between `s` and `r` with the result `a`, wherever in the layout
at the front of `s` the cursor stands. -/
def Takes {α : Type} (passage : Passage) (s : Text) (x : CursorM α) (a : α) (r : Text) : Prop :=
  ∀ c t, c.At passage s t → ∃ c' t', c'.At passage r t' ∧ Runs passage c x a c'

/-- A mark is looked for as a prefix of the text behind the layout. -/
theorem isPrefixOf_skip {m : Mark} :
    m.text.isPrefixOf (Token.skip s) = (Token.mark? m s).isSome := by
  rw [Bool.eq_iff_iff, List.isPrefixOf_iff_prefix, Option.isSome_iff_ne_none, ne_eq,
    Token.mark?_eq_none_iff, Mark.Absent, not_not]

/-- A result alone passes nothing. -/
theorem takes_pure {α : Type} (a : α) : Takes passage s (pure a) a s :=
  fun c t hat => ⟨c, t, hat, runs_pure a⟩

/-- To peek passes nothing, and tells whether the mark stands there. -/
theorem takes_peek (m : Mark) : Takes passage s (peek m.text) (Token.mark? m s).isSome s := by
  intro c t h
  obtain ⟨c', hat, hpeek⟩ := runs_peek h m.text
  exact ⟨c', _, hat, isPrefixOf_skip ▸ hpeek⟩

/-- Another quote, or none, stands in front of the cursor. -/
theorem takes_peek_quote_none {quote : Quote} {found : Option Quote}
    (hfound : Token.quote? s = found) (hne : found ≠ some quote) :
    Takes passage s (peek [quote.char]) false s := by
  intro c t hat
  obtain ⟨c', hat', hpeek⟩ := runs_peek hat [quote.char]
  have hbegins : [quote.char].isPrefixOf (Token.skip s) = false := by
    rw [Bool.eq_false_iff, ne_eq, List.isPrefixOf_iff_prefix]
    rintro ⟨rest, hskip⟩
    exact hne (hfound ▸ Token.quote?_eq_some_iff.2 (hskip ▸ rfl))
  exact ⟨c', _, hat', hbegins ▸ hpeek⟩

/-- A mark that does not stand in the text is looked for and not taken. -/
theorem runs_eat_none {m : Mark} (hm : Token.mark? m s = none)
    (h : c.At passage s t) :
    ∃ c', c'.At passage s (Token.skip s) ∧ Runs passage c (eat m) false c' := by
  obtain ⟨c', hat, hpeek⟩ := runs_peek h m.text
  rw [isPrefixOf_skip, hm] at hpeek
  exact ⟨c', hat, hpeek.bind (runs_pure _)⟩

/-- A mark that does not stand there is not passed. -/
theorem takes_eat_none {m : Mark} (hm : Token.mark? m s = none) :
    Takes passage s (eat m) false s := by
  intro c t h
  obtain ⟨c', hat, heat⟩ := runs_eat_none hm h
  exact ⟨c', _, hat, heat⟩

/-- A mark that stands there is passed. -/
theorem takes_eat {m : Mark} {r : Shorter s} (hm : Token.mark? m s = some r) :
    Takes passage s (eat m) true r.1 := by
  intro c t h
  obtain ⟨c₁, hat₁, hpeek⟩ := runs_peek h m.text
  rw [isPrefixOf_skip, hm] at hpeek
  rw [Token.mark?_eq_some_iff.1 hm] at hat₁
  obtain ⟨c₂, hat₂, hadvance⟩ := runs_advance hat₁
  exact ⟨c₂, _, hat₂, hpeek.bind (hadvance.bind (runs_pure _))⟩

/-- The byte behind a word tells whether the word goes on. -/
theorem run_eatWord {word r : Text} (hskip : Token.skip s = word ++ r)
    (h : c.At passage s t) :
    ∃ c', c'.At passage s (word ++ r) ∧ ((eatWord word).run passage).run c =
      ((if r.head?.any Token.isNameChar then pure false
        else do
          advance (byteSize word)
          pure true : CursorM Bool).run passage).run c' := by
  obtain ⟨c', hat, hpeek⟩ := runs_peek h word
  have hbegins : word.isPrefixOf (Token.skip s) = true := by
    rw [List.isPrefixOf_iff_prefix, hskip]
    exact List.prefix_append _ _
  refine ⟨c', hskip ▸ hat, hpeek.run_bind.trans ?_⟩
  rw [if_pos hbegins]
  refine runs_read.run_bind.trans (runs_get.run_bind.trans ?_)
  have hnext : (bytes passage.text)[c'.pos + byteSize word]? = (bytes r).head? := by
    obtain ⟨front, htext, hpos⟩ := hat.exists_append
    rw [htext, hskip, hpos, ← byteSize_append, ← List.head?_drop, ← List.append_assoc,
      drop_bytes_append]
  dsimp only
  rw [hnext, testsAlike_name.any_head_bytes]

/-- The word of a conditional type is passed where it stands. -/
theorem takes_is {r : Shorter s} (his : Token.is? s = some r) :
    Takes passage s (eatWord "is".toList) true r.1 := by
  intro c t h
  obtain ⟨hskip, hend⟩ := Token.is?_eq_some_iff.1 his
  have hskip : Token.skip s = "is".toList ++ r.1 := hskip
  obtain ⟨c₁, hat₁, hrun⟩ := run_eatWord hskip h
  obtain ⟨c₂, hat₂, hadvance⟩ := runs_advance hat₁
  have hends : r.1.head?.any Token.isNameChar = false := by
    simpa [Option.any_eq_false] using hend
  rw [hends] at hrun
  exact ⟨c₂, _, hat₂, hrun.trans (hadvance.bind (runs_pure _))⟩

/-- Where another word begins so, or nothing does, the word of a conditional type is not passed. -/
theorem takes_is_none (his : Token.is? s = none) :
    Takes passage s (eatWord "is".toList) false s := by
  intro c t h
  by_cases hbegins : "is".toList <+: Token.skip s
  · obtain ⟨r, hskip⟩ := hbegins
    obtain ⟨c₁, hat₁, hrun⟩ := run_eatWord hskip.symm h
    have hends : r.head?.any Token.isNameChar = true := by
      by_contra hends
      refine Token.is?_eq_none_iff.1 his r ⟨hskip.symm, ?_⟩
      simpa [Option.any_eq_false] using hends
    rw [hends] at hrun
    exact ⟨c₁, _, hat₁, hrun.trans (runs_pure _)⟩
  · obtain ⟨c₁, hat₁, hpeek⟩ := runs_peek h "is".toList
    rw [Bool.eq_false_iff.2 (mt List.isPrefixOf_iff_prefix.1 hbegins)] at hpeek
    exact ⟨c₁, _, hat₁, hpeek.bind (runs_pure _)⟩

/-! ## Names -/

/-- Where no word is read, what follows its first marks does not belong to one. -/
theorem endsWord_of_word?_eq_none {q : Char → Bool} {start r : Text}
    (h : Token.word? q start (start ++ r) = none) : Token.EndsWord q r := by
  intro d hd
  by_contra hq
  rw [Bool.not_eq_false] at hq
  obtain ⟨r', rfl⟩ : ∃ r', r = d :: r' := List.head?_eq_some_iff.1 hd
  have hbegins : start.isPrefixOf? (start ++ d :: r') = some (d :: r') :=
    Text.isPrefixOf?_eq_some_iff.2 rfl
  rw [Token.word?] at h
  split at h
  · next hnone => simp [hbegins] at hnone
  · next u hu =>
    rw [hbegins] at hu
    cases hu
    simp [hq] at h

/-- The marks in front of a name stand at the front of the text. -/
theorem leading_prefix (starts : List Text) (t : Text) : Token.leading starts t <+: t := by
  rw [Token.leading]
  cases h : starts.find? (·.isPrefixOf t) with
  | none => exact List.nil_prefix
  | some start => simpa using List.find?_some h

/-- A name is passed up to its end. -/
theorem takes_name {name : Text} {r : Shorter s} (hname : Token.name? s = some (name, r)) :
    Takes passage s eatName (some name) r.1 := by
  intro c t h
  obtain ⟨c₁, hat₁, hskip⟩ := runs_skipLayout h
  obtain ⟨hname, hsplit, hend⟩ := Token.name?_eq_some_iff.1 hname
  obtain ⟨start, hword, hstart⟩ : ∃ start, Token.IsWord Token.isNameChar start name ∧
      Token.leading ["&$".toList, "$".toList] (name ++ r.1) = start := by
    have hstarts : ["&$".toList, "$".toList] = [['&', '$'], ['$']] := by decide
    rw [hstarts]
    rcases hname with hword | hword | hword
    · exact ⟨_, hword, Token.leading_name (by simp) hword⟩
    · exact ⟨_, hword, Token.leading_name (by simp) hword⟩
    · exact ⟨_, hword, Token.leading_name (by simp) hword⟩
  rw [hsplit] at hat₁
  obtain ⟨c₂, hat₂, hrun⟩ := runs_eatStarting_word testsAlike_name hword hend hat₁
  refine ⟨c₂, _, hat₂, hskip.bind ((runs_ahead hat₁).bind ?_)⟩
  rw [hstart]
  exact hrun

/-- Where no name stands, the cursor is left in front of what stands there. -/
theorem runs_name_none (hname : Token.name? s = none) (h : c.At passage s t) :
    ∃ c', c'.At passage s (Token.skip s) ∧ Runs passage c eatName none c' := by
  obtain ⟨c₁, hat, hskip⟩ := runs_skipLayout h
  refine ⟨c₁, hat, hskip.bind ((runs_ahead hat).bind ?_)⟩
  rw [Token.name?, Option.map_eq_none_iff] at hname
  obtain ⟨r, hsplit⟩ := leading_prefix ["&$".toList, "$".toList] (Token.skip s)
  generalize Token.leading ["&$".toList, "$".toList] (Token.skip s) = start at *
  rw [← hsplit] at hname hat
  exact runs_eatStarting_none testsAlike_name (endsWord_of_word?_eq_none hname) hat

/-- The marks in front of a parameter's name are never none, so they are looked for alone. -/
theorem find?_parameterStarts {t start : Text} (hstart : start ∈ Token.parameterStarts) :
    Token.parameterStarts.find? (·.isPrefixOf t) = some start ↔
      Token.leading Token.parameterStarts t = start := by
  rw [Token.leading]
  cases Token.parameterStarts.find? (·.isPrefixOf t) with
  | none =>
    have hne : start ≠ [] := by
      rintro rfl
      exact absurd hstart (by decide)
    simpa using hne.symm
  | some start' => simp

/-- The name of a parameter is passed up to its end. -/
theorem takes_parameterName {name : Text} {r : Shorter s}
    (hname : Token.parameterName? s = some (name, r)) :
    Takes passage s eatParameterName (some name) r.1 := by
  intro c t h
  obtain ⟨c₁, hat₁, hskip⟩ := runs_skipLayout h
  obtain ⟨⟨start, hstart, hword⟩, hsplit, hend⟩ := Token.parameterName?_eq_some_iff.1 hname
  rw [hsplit] at hat₁
  obtain ⟨c₂, hat₂, hrun⟩ :=
    runs_eatStarting_word testsAlike_parameter hword hend hat₁
  refine ⟨c₂, _, hat₂, hskip.bind ((runs_ahead hat₁).bind ?_)⟩
  rw [(find?_parameterStarts hstart).2 (Token.leading_parameterName hstart hword)]
  exact hrun

/-- Where no name of a parameter stands, nothing is passed. -/
theorem takes_parameterName_none (hname : Token.parameterName? s = none) :
    Takes passage s eatParameterName none s := by
  intro c t h
  obtain ⟨c₁, hat, hskip⟩ := runs_skipLayout h
  refine ⟨c₁, _, hat, hskip.bind ((runs_ahead hat).bind ?_)⟩
  cases hfind : Token.parameterStarts.find? (·.isPrefixOf (Token.skip s)) with
  | none => exact runs_pure _
  | some start =>
    have hstart := List.mem_of_find?_eq_some hfind
    obtain ⟨r, hsplit⟩ : start <+: Token.skip s := by simpa using List.find?_some hfind
    rw [Token.parameterName?, (find?_parameterStarts hstart).1 hfind] at hname
    split at hname
    · exact absurd hstart (by decide)
    · rw [Option.map_eq_none_iff, ← hsplit] at hname
      rw [← hsplit] at hat
      exact runs_eatStarting_none testsAlike_parameter (endsWord_of_word?_eq_none hname) hat

/-! ## Literals -/

/-- The quote that closes a literal is found behind its body. -/
theorem closing?_eq {quote : Char} (hquote : quote ≠ '\\') (t : Text) (offset : Nat) :
    closing? quote false offset t =
      (Token.literalBody? quote t).map fun (body, _) => offset + byteSize body := by
  fun_induction Token.literalBody? quote t generalizing offset with
  | case1 => rfl
  | case2 c r ih =>
    rw [closing?, if_pos rfl, closing?, ih, Option.map_map]
    refine Option.map_congr fun x _ => ?_
    simp only [Function.comp_apply, byteSize_cons]
    omega
  | case3 r => rw [closing?, if_neg hquote, if_pos rfl]; rfl
  -- The equation of the last case says only that no pair with a backslash matched: the character is
  -- another one, or it is a backslash with nothing behind it.
  | case4 c r hc hne ih =>
    by_cases hslash : c = '\\'
    · obtain rfl : r = [] := by
        cases r with
        | nil => rfl
        | cons d r => exact absurd hslash (fun h => hc d r h rfl)
      rw [closing?, if_pos hslash]
      rfl
    · rw [closing?, if_neg hslash, if_neg hne, ih, Option.map_map]
      refine Option.map_congr fun x _ => ?_
      simp only [Function.comp_apply, byteSize_cons]
      omega

/-! ## Failures -/

/-- The computation fails with the report of `f`, wherever in the layout at the front of `s` the
cursor stands. -/
def Stops {α : Type} (passage : Passage) (s : Text) (x : CursorM α) (f : ParseFailure) : Prop :=
  ∀ c t, c.At passage s t →
    f.IsIn passage.text ∧ Fails passage c x (f.report passage.location passage.text)

/-- The computation does what a reader does with the text `s`: it passes what the reader takes, or
fails as the reader fails. The result of the reader is seen as a value and the text that is left. -/
structure Follows {α β : Type} (passage : Passage) (view : β → α × Text) (s : Text) (x : CursorM α)
    (y : Except ParseFailure β) : Prop where
  takes : ∀ b, y = .ok b → Takes passage s x (view b).1 (view b).2
  stops : ∀ f, y = .error f → Stops passage s x f

/-- The value a reader returns, and the text it leaves. -/
def valueAndRest {α : Type} {P : Text → Prop} (b : α × { r // P r }) : α × Text := (b.1, b.2.1)

/-- The text left behind a token that has no value. -/
def onlyRest {P : Text → Prop} (r : { r // P r }) : Unit × Text := ((), r.1)

namespace Follows

variable {α β γ δ : Type} {view : β → α × Text} {r : Text} {x : CursorM α}
  {y : Except ParseFailure β} {a : γ}

/-- To follow a reader that has a result is to pass what it takes. -/
theorem ok {b : β} (h : Takes passage s x (view b).1 (view b).2) :
    Follows passage view s x (.ok b) where
  takes _ hb := Except.ok.inj hb ▸ h
  stops _ hf := nomatch hf

/-- To follow a reader that fails is to fail as it does. -/
theorem error {f : ParseFailure} (h : Stops passage s x f) :
    Follows passage view s x (.error f) where
  takes _ hb := nomatch hb
  stops _ hf := Except.error.inj hf ▸ h

/-- A result with nothing read. -/
theorem pure {b : β} {a : α} (hb : view b = (a, s)) :
    Follows passage view s (Pure.pure a) (.ok b) := by
  refine .ok ?_
  rw [hb]
  exact takes_pure a

/-- A step that takes a known part of the text. -/
theorem after {x : CursorM γ} {f : γ → CursorM α} (hx : Takes passage s x a r)
    (hf : Follows passage view r (f a) y) : Follows passage view s (x >>= f) y where
  takes b hb c t hat := by
    obtain ⟨c₁, t₁, hat₁, hrun₁⟩ := hx c t hat
    obtain ⟨c₂, t₂, hat₂, hrun₂⟩ := hf.takes b hb c₁ t₁ hat₁
    exact ⟨c₂, t₂, hat₂, hrun₁.bind hrun₂⟩
  stops e he c t hat := by
    obtain ⟨c₁, t₁, hat₁, hrun₁⟩ := hx c t hat
    obtain ⟨hin, hfails⟩ := hf.stops e he c₁ t₁ hat₁
    exact ⟨hin, hrun₁.fails hfails⟩

/-- A reader in front of another one: each is followed from where it begins. -/
theorem bind {view' : δ → γ × Text} {f : α → CursorM γ} {g : β → Except ParseFailure δ}
    (h : Follows passage view s x y)
    (hf : ∀ b, y = .ok b → Follows passage view' (view b).2 (f (view b).1) (g b)) :
    Follows passage view' s (x >>= f) (y >>= g) := by
  cases y with
  | ok b => exact .after (h.takes b rfl) (hf b rfl)
  | error e =>
    refine .error fun c t hat => ?_
    obtain ⟨hin, hfails⟩ := h.stops e rfl c t hat
    exact ⟨hin, hfails.bind⟩

/-- A reader that passes on what another returns. -/
theorem passedOn {view' : δ → α × Text} {g : β → Except ParseFailure δ}
    (h : Follows passage view s x y) (hg : ∀ b, ∃ d, g b = .ok d ∧ view' d = view b) :
    Follows passage view' s x (y >>= g) := by
  cases y with
  | ok b =>
    obtain ⟨d, hd, hview⟩ := hg b
    rw [ok_bind, hd]
    refine .ok ?_
    rw [hview]
    exact h.takes b rfl
  | error e => exact .error (h.stops e rfl)

end Follows

/-- Behind layout there is none. -/
theorem skip_skip : Token.skip (Token.skip s) = Token.skip s := by
  obtain ⟨g, hg, hs⟩ := Token.exists_layout_append_skip s
  exact (Token.skip_layout_append hg _).symm.trans (congrArg Token.skip hs.symm)

/-- What is left behind layout is the end of the text. -/
theorem skip_suffix : Token.skip s <:+ s := List.dropWhile_suffix _

/-- A failure in front of the next token. -/
theorem isIn_skip (h : c.At passage s t) {cause : ParseCause} {path : List Rule}
    (hcause : cause ≠ .unterminated) :
    ParseFailure.IsIn passage.text ⟨cause, path, Token.skip s⟩ where
  suffix := by
    obtain ⟨front, htext, -⟩ := h.exists_append
    rw [← h.skip_eq, htext]
    exact skip_suffix.trans (List.suffix_append _ _)
  skipped := skip_skip
  quoted hquoted := absurd hquoted hcause

/-- A mark that is asked for and stands there is passed. -/
theorem takes_expect {path : List Rule} {m : Mark} {r : Shorter s} (hm : Token.mark? m s = some r) :
    Takes passage s (expect path m) () r.1 := by
  intro c t hat
  obtain ⟨c', t', hat', heat⟩ := takes_eat hm c t hat
  exact ⟨c', t', hat', heat.bind (runs_pure ())⟩

/-- A mark is asked for, whether it stands there or not. -/
theorem follows_expect (path : List Rule) (m : Mark) (s : Text) :
    Follows passage onlyRest s (expect path m) (TypeExpr.expect path m s) := by
  rw [TypeExpr.expect]
  split
  · next r hm => exact .ok (takes_expect hm)
  · next hm =>
    refine .error fun c t hat => ⟨isIn_skip hat (by simp), ?_⟩
    obtain ⟨c', hat', heat⟩ := runs_eat_none hm hat
    exact heat.fails (fails_fail hat' _ _)

/-- Where no name stands, no type begins. -/
theorem stops_name {α : Type} {f : Text → CursorM α} (path : List Rule)
    (hname : Token.name? s = none) :
    Stops passage s (eatName >>= fun name =>
      match name with
      | some name => f name
      | none => fail .unexpected path) ⟨.unexpected, path, Token.skip s⟩ := by
  refine fun c t hat => ⟨isIn_skip hat (by simp), ?_⟩
  obtain ⟨c', hat', hnone⟩ := runs_name_none hname hat
  exact hnone.fails (fails_fail hat' _ _)

/-- A quote is one byte, which is why a literal is sliced one byte behind it. -/
theorem byteSize_quote (quote : Quote) : byteSize [quote.char] = 1 := by
  cases quote <;> rfl

/-- A literal is scanned from behind the quote at the cursor. -/
theorem run_literal {path : List Rule} {quote : Quote} {rest : Text}
    (hat : c.At passage s (quote.char :: rest)) :
    ((literal path quote).run passage).run c =
      ((match closing? quote.char false 0 rest with
        | some offset => do
          let (body, _) ← cut offset rest
          advance (offset + 2)
          pure (.literal quote body)
        | none => fail .unterminated path : CursorM TypeExpr).run passage).run c := by
  obtain ⟨front, htext, hpos⟩ := hat.exists_append
  have hcut : passage.text = front ++ [quote.char] ++ rest := by simpa using htext
  refine runs_get.run_bind.trans (runs_read.run_bind.trans ?_)
  dsimp only
  rw [hpos, ← byteSize_quote quote, ← byteSize_append, hcut]
  exact (runs_cut _ _).run_bind

/-- A literal is passed with both of its quotes. -/
theorem runs_literal {path : List Rule} {quote : Quote} {body r : Text}
    (hbody : Token.IsBody quote.char body)
    (hat : c.At passage s (quote.char :: (body ++ quote.char :: r))) :
    ∃ c', c'.At passage r r ∧ Runs passage c (literal path quote) (.literal quote body) c' := by
  have hsplit : quote.char :: (body ++ quote.char :: r) =
      ([quote.char] ++ body ++ [quote.char]) ++ r := by simp
  have hsize : byteSize ([quote.char] ++ body ++ [quote.char]) = byteSize body + 2 := by
    simp only [byteSize_append, byteSize_quote]
    omega
  obtain ⟨c', hat', hadvance⟩ := runs_advance (hsplit ▸ hat)
  rw [hsize] at hadvance
  have hclosing : closing? quote.char false 0 (body ++ quote.char :: r) = some (byteSize body) := by
    have hread : Token.literalBody? quote.char (body ++ quote.char :: r) = some (body, r) :=
      (Token.literalBody?_eq_some_iff (Token.char_ne_backslash quote)).2 ⟨hbody, rfl⟩
    rw [closing?_eq (Token.char_ne_backslash quote), hread]
    exact congrArg some (Nat.zero_add _)
  refine ⟨c', hat', (run_literal hat).trans ?_⟩
  rw [hclosing]
  exact (runs_cut _ _).bind (hadvance.bind (runs_pure _))

/-- A literal that is not closed is a failure at its first quote. -/
theorem fails_literal {path : List Rule} {quote : Quote} {rest : Text}
    (hbody : Token.literalBody? quote.char rest = none)
    (hat : c.At passage s (quote.char :: rest)) :
    Fails passage c (literal path quote)
      (ParseFailure.report passage.location passage.text
        ⟨.unterminated, path, quote.char :: rest⟩) := by
  refine (run_literal hat).trans ?_
  rw [closing?_eq (Token.char_ne_backslash quote), hbody]
  exact fails_fail hat _ _

/-- Where a quote is seen, the literal is read that it begins. -/
theorem follows_literal {path : List Rule} {quote : Quote} {otherwise : CursorM TypeExpr}
    (hquote : Token.quote? s = some quote) :
    Follows passage valueAndRest s (peek [quote.char] >>= fun found =>
      if found then literal path quote else otherwise) (TypeExpr.readLiteral path quote s) := by
  obtain ⟨rest, hskip⟩ := List.head?_eq_some_iff.1 (Token.quote?_eq_some_iff.1 hquote)
  have hpeek (c : Cursor) (t : Text) (hat : c.At passage s t) :
      ∃ c', c'.At passage s (quote.char :: rest) ∧ Runs passage c (peek [quote.char]) true c' := by
    obtain ⟨c', hat', hpeek⟩ := runs_peek hat [quote.char]
    rw [hskip] at hat' hpeek
    exact ⟨c', hat', by simpa using hpeek⟩
  rw [TypeExpr.readLiteral]
  split
  · next body r hliteral =>
    obtain ⟨hbody, hsplit⟩ := (Token.literal?_eq_some_iff hquote).1 hliteral
    obtain rfl : rest = body ++ quote.char :: r.1 := (List.cons.inj (hskip.symm.trans hsplit)).2
    refine .ok fun c t hat => ?_
    obtain ⟨c₁, hat₁, hpeek⟩ := hpeek c t hat
    obtain ⟨c₂, hat₂, hrun⟩ := runs_literal hbody hat₁
    exact ⟨c₂, _, hat₂, hpeek.bind hrun⟩
  · next hliteral =>
    have hnone : Token.literalBody? quote.char rest = none := by
      rw [Option.eq_none_iff_forall_ne_some]
      rintro ⟨body, r⟩ hread
      obtain ⟨hbody, rfl⟩ :=
        (Token.literalBody?_eq_some_iff (Token.char_ne_backslash quote)).1 hread
      have hat : Token.LiteralAt quote body s r := ⟨hbody, hskip⟩
      rw [hat.literal?] at hliteral
      exact nomatch hliteral
    refine .error fun c t hat => ?_
    obtain ⟨c₁, hat₁, hpeek⟩ := hpeek c t hat
    rw [hskip]
    refine ⟨⟨?_, ?_, fun _ => ⟨quote, rfl⟩⟩, hpeek.fails (fails_literal hnone hat₁)⟩
    · obtain ⟨front, htext, -⟩ := hat₁.exists_append
      exact htext ▸ List.suffix_append _ _
    · rw [← hskip, skip_skip]

end CursorM

end Docblock
