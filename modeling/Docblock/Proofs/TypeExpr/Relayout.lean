import Docblock.Proofs.TypeExpr.Condensed
import Docblock.Proofs.TypeExpr.Leaves
import Docblock.Proofs.TypeExpr.Transport

/-!
# The layout of a type does not matter

`Relaid` relates two texts that differ in one run of layout outside of literals, in front of a text
that both share. It keeps tokens: such a run lies in front of a token or behind it, since only
literals hold layout. So a type is the same, and ends at the same place, whatever the runs of layout
inside it are (`parse_relaid`).

A run has one character at least, in both texts: to take it away, or to put one where there is none,
may join two words or part one. It is replaced by any other run of layout, so the number of spaces,
line feeds and tabs does not matter, nor which of them stand there.

By its hypotheses the run lies in the part of the text that the type takes (`TypeExpr.consumed`),
where its own reader left off. A run behind that part is not layout of the type: there it may
separate the type from prose.
-/

namespace Docblock

open Text

/-! ## Runs of layout -/

/-- One character of layout or more. -/
structure IsRun (g : Text) : Prop where
  ne_nil : g ≠ []
  layout : Token.IsLayout g

/-- A run of layout begins with a character of layout. -/
theorem IsRun.exists_cons {g : Text} (h : IsRun g) :
    ∃ c g', g = c :: g' ∧ Token.isLayout c = true := by
  obtain ⟨c, g', rfl⟩ := List.exists_cons_of_ne_nil h.ne_nil
  exact ⟨c, g', rfl, h.layout c List.mem_cons_self⟩

/-- The texts are the same but for one run of layout at most, which lies outside of literals and in
front of `b`. -/
def Relaid (b s s' : Text) : Prop :=
  s' = s ∨ ∃ a g g', Whole a ∧ IsRun g ∧ IsRun g' ∧ s = a ++ (g ++ b) ∧ s' = a ++ (g' ++ b)

/-- If a text and its front end outside of literals, so does the part behind. -/
theorem Whole.of_append {a b : Text} (ha : Whole a) (hab : Whole (a ++ b)) : Whole b := by
  intro r
  have hwhole := hab r
  rw [List.append_assoc, ha, ha, List.append_assoc] at hwhole
  exact List.append_cancel_left hwhole

/-- Wherever a literal is cut, layout behind the cut belongs to it. -/
theorem not_whole_of_literal {quote : Quote} {body : Text} (h : Token.IsBody quote.char body)
    {a m : Text} {c : Char} (hcut : quote.char :: (body ++ [quote.char]) = a ++ c :: m)
    (hc : Token.isLayout c = true) : ¬ Whole a := by
  intro hwhole
  have hinside := inLiterals_literal h []
  rw [inLiterals, List.append_nil, hcut, hwhole] at hinside
  have hquote : ¬ (c = '\'' ∨ c = '"') := by
    rintro (rfl | rfl) <;> exact absurd hc (by decide)
  have houtside : (c, false) ∈ inLiterals none (c :: m) := by
    rw [inLiterals, if_neg hquote]
    exact List.mem_cons_self
  have hmem := hinside ▸ List.mem_append_right (inLiterals none a) houtside
  simp at hmem

namespace Relaid

variable {b s s' r r' : Text}

/-- Either text may be the one whose run is replaced. -/
theorem symm (h : Relaid b s s') : Relaid b s' s := by
  rcases h with rfl | ⟨a, g, g', ha, hg, hg', hs, hs'⟩
  · exact .inl rfl
  · exact .inr ⟨a, g', g, ha, hg', hg, hs', hs⟩

/-- A token that holds no layout outside of literals stands in both texts: the run is in front of it
or behind it. -/
theorem skip_append (h : Relaid b s s') {w : Text} (hskip : Token.skip s = w ++ r) (hw : Whole w)
    (hinside : ∀ a c m, w = a ++ c :: m → Whole a → Token.isLayout c = false) :
    ∃ r', Token.skip s' = w ++ r' ∧ Relaid b r r' := by
  rcases h with rfl | ⟨a, g, g', ha, hg, hg', rfl, rfl⟩
  · exact ⟨r, hskip, .inl rfl⟩
  obtain ⟨gap, hgap, hsplit⟩ := Token.exists_layout_append_skip a
  have hskips (k : Text) : Token.skip (a ++ k) = Token.skip (Token.skip a ++ k) := by
    conv_lhs => rw [hsplit, List.append_assoc, Token.skip_layout_append hgap]
  cases hrest : Token.skip a with
  | nil =>
    -- the run stands in front of the token, and is skipped with what stands before it
    refine ⟨r, ?_, .inl rfl⟩
    rw [hskips, hrest, List.nil_append, Token.skip_layout_append hg.layout] at hskip
    rw [hskips, hrest, List.nil_append, Token.skip_layout_append hg'.layout, hskip]
  | cons c a' =>
    have hc : Token.isLayout c = false := by
      have hhead := List.head?_dropWhile_not Token.isLayout a
      rw [show a.dropWhile Token.isLayout = c :: a' from hrest] at hhead
      simpa using hhead
    have hfront (k : Text) : Token.skip (a ++ k) = c :: a' ++ k := by
      rw [hskips, hrest]
      exact Token.skip_eq_self (by simpa using hc)
    have ha' : Whole (c :: a') := by
      rw [hsplit, hrest] at ha
      exact (whole_of_no_quote (isLayout_ne_quote hgap)).of_append ha
    rw [hfront] at hskip
    rcases List.append_eq_append_iff.1 hskip with ⟨m, rfl, hm⟩ | ⟨m, hm, rfl⟩
    · cases m with
      | nil =>
        refine ⟨g' ++ b, by rw [hfront, List.append_nil], .inr ⟨[], g, g', .nil, hg, hg', ?_, rfl⟩⟩
        exact hm.symm
      | cons d m =>
        obtain ⟨d', g₁, rfl, hd⟩ := hg.exists_cons
        obtain rfl : d' = d := (List.cons.inj hm).1
        exact absurd hd (by simp [hinside _ _ _ rfl ha'])
    · rw [hm] at ha'
      refine ⟨m ++ (g' ++ b), ?_, .inr ⟨m, g, g', hw.of_append ha', hg, hg', rfl, rfl⟩⟩
      rw [hfront, hm, List.append_assoc]

/-- A token of characters that are neither layout nor quotes. -/
theorem skip_append_of_plain (h : Relaid b s s') {w : Text} (hskip : Token.skip s = w ++ r)
    (hplain : ∀ c ∈ w, Token.isLayout c = false ∧ c ≠ '\'' ∧ c ≠ '"') :
    ∃ r', Token.skip s' = w ++ r' ∧ Relaid b r r' := by
  refine h.skip_append hskip (whole_of_no_quote fun c hc => (hplain c hc).2) ?_
  rintro a c m rfl -
  exact (hplain c (by simp)).1

/-- Where a word ends, it ends in front of any other run of layout. -/
theorem endsWord {p : Char → Bool} (hp : ∀ c, Token.isLayout c = true → p c = false)
    (h : Relaid b r r') (hr : Token.EndsWord p r) : Token.EndsWord p r' := by
  rcases h with rfl | ⟨a, g, g', -, -, hg', rfl, rfl⟩
  · exact hr
  cases a with
  | nil =>
    obtain ⟨c, g₁, rfl, hc⟩ := hg'.exists_cons
    intro d hd
    obtain rfl : c = d := by simpa using hd
    exact hp c hc
  | cons c a => exact hr

end Relaid

/-- No mark holds layout or a quote. -/
theorem Mark.plain_text (m : Mark) :
    ∀ c ∈ m.text, Token.isLayout c = false ∧ c ≠ '\'' ∧ c ≠ '"' := by
  cases m <;> decide

namespace Token

/-- A text without these six characters holds neither layout nor quotes. -/
theorem plain_of_not_mem {w : Text} (h : ∀ c ∈ [' ', '\t', '\n', '\r', '\'', '"'], c ∉ w) :
    ∀ c ∈ w, isLayout c = false ∧ c ≠ '\'' ∧ c ≠ '"' := by
  intro c hc
  have hnot (d : Char) (hd : d ∈ [' ', '\t', '\n', '\r', '\'', '"']) : c ≠ d := by
    rintro rfl
    exact h c hd hc
  refine ⟨?_, hnot _ (by simp), hnot _ (by simp)⟩
  simp [isLayout, hnot]

/-- No name holds layout or a quote. -/
theorem IsName.plain {w : Text} (h : IsName w) :
    ∀ c ∈ w, isLayout c = false ∧ c ≠ '\'' ∧ c ≠ '"' := by
  have hplain : ∀ c ∈ [' ', '\t', '\n', '\r', '\'', '"'],
      c ∉ ['&', '$'] ∧ isNameChar c = false := by decide
  exact plain_of_not_mem fun c hc => h.not_mem (hplain c hc).1 (hplain c hc).2

/-- No name of a parameter holds layout or a quote. -/
theorem IsParameterName.plain {w : Text} (h : IsParameterName w) :
    ∀ c ∈ w, isLayout c = false ∧ c ≠ '\'' ∧ c ≠ '"' := by
  have hplain : ∀ c ∈ [' ', '\t', '\n', '\r', '\'', '"'],
      c ∉ ['&', '$', '.'] ∧ isParameterChar c = false := by decide
  exact plain_of_not_mem fun c hc => h.not_mem (hplain c hc).1 (hplain c hc).2

end Token

/-- Texts that differ in a run of layout have the same tokens. -/
theorem sameTokens_relaid (b : Text) : SameTokens (Relaid b) where
  symm := Relaid.symm
  mark {m s s' r} h hat := h.skip_append_of_plain hat m.plain_text
  name {w s s' r} h hat := by
    obtain ⟨hname, hskip, hend⟩ := hat
    obtain ⟨r', hskip', hr⟩ := h.skip_append_of_plain hskip hname.plain
    exact ⟨r', ⟨hname, hskip', hr.endsWord (fun _ => Token.not_isNameChar_of_isLayout) hend⟩, hr⟩
  parameterName {w s s' r} h hat := by
    obtain ⟨hname, hskip, hend⟩ := hat
    obtain ⟨r', hskip', hr⟩ := h.skip_append_of_plain hskip hname.plain
    exact ⟨r', ⟨hname, hskip', hr.endsWord (fun _ => Token.not_isParameterChar_of_isLayout) hend⟩,
      hr⟩
  literal {quote body s s' r} h hat := by
    obtain ⟨hbody, hskip⟩ := hat
    have hsplit (k : Text) : quote.char :: (body ++ quote.char :: k) =
        quote.char :: (body ++ [quote.char]) ++ k := by simp
    rw [hsplit] at hskip
    obtain ⟨r', hskip', hr⟩ := h.skip_append hskip (whole_literal hbody) fun a c m hcut hwhole =>
      Bool.eq_false_iff.2 fun hc => not_whole_of_literal hbody hcut hc hwhole
    exact ⟨r', ⟨hbody, hskip'.trans (hsplit r').symm⟩, hr⟩

namespace TypeExpr

/-- What a type takes of a text: all that stands before the text its reader leaves. -/
def consumed (text : Text) : Text :=
  match read [] true text with
  | .ok (_, r) => text.take (text.length - r.1.length)
  | .error _ => []

/-- A text that begins with a type is what the type takes and what its reader leaves. -/
theorem exists_eq_consumed_append {location text : Text} {parsed : Parsed}
    (h : parse location text = .ok parsed) :
    ∃ r, text = consumed text ++ r ∧ Reads (.type .top parsed.type) text r ∧
      parsed.rest = r.dropWhile fun c => c == ' ' || c == '\t' := by
  obtain ⟨r, hreads, hrest⟩ := parse_eq_ok_iff.1 h
  have hat : TypePlace.at [] true = .top := rfl
  obtain ⟨hlt, hread⟩ := read_returns_iff.2 (hat ▸ hreads)
  refine ⟨r, ?_, hreads, hrest⟩
  have htake : consumed text = text.take (text.length - r.length) := by
    rw [consumed, hread]
  obtain ⟨c, rfl⟩ := hreads.suffix
  rw [htake, List.length_append, Nat.add_sub_cancel, List.take_left]

/-- The layout of a type does not matter. If a run of layout in the part of a text that its type
takes lies outside of literals, the text with any other run in its place has the same type, and the
same text behind it. -/
theorem parse_relaid {location text : Text} {parsed : Parsed}
    (hparsed : parse location text = .ok parsed) {a g g' b rest : Text}
    (hconsumed : consumed text = a ++ (g ++ b)) (htext : text = consumed text ++ rest)
    (houtside : Whole a) (hg : IsRun g) (hg' : IsRun g') :
    parse location (a ++ (g' ++ b) ++ rest) = .ok parsed := by
  obtain ⟨r, hr, hreads, hrest⟩ := exists_eq_consumed_append hparsed
  obtain rfl : rest = r := List.append_cancel_left (htext.symm.trans hr)
  have hrelaid : Relaid (b ++ rest) text (a ++ (g' ++ b) ++ rest) := by
    refine .inr ⟨a, g, g', houtside, hg, hg', ?_, by simp⟩
    rw [htext, hconsumed]
    simp
  obtain ⟨r', hreads', hend⟩ := hreads.transport (sameTokens_relaid _) hrelaid
  rcases hend with rfl | ⟨a', g₁, g₂, -, hg₁, -, hlonger, -⟩
  · exact parse_eq_ok_iff.2 ⟨r', hreads', hrest⟩
  · -- the run does not stand behind the type
    have hpos := List.length_pos_iff.2 hg₁.ne_nil
    have hlength := congrArg List.length hlonger
    simp only [List.length_append] at hlength
    omega

/-- A line break between two entries of a shape gives way to two spaces. The space in the key
between them is no layout. -/
theorem parse_relaid_shape :
    let shape : TypeExpr := .shape [.keyed (.literal .single "a b".toList) false
      (.named "int".toList), .positional (.named "bool".toList)]
    parse [] "array\x7b'a b': int,\r\n\tbool\x7d kept".toList = .ok ⟨shape, "kept".toList⟩ ∧
      parse [] "array\x7b'a b': int,  bool\x7d kept".toList = .ok ⟨shape, "kept".toList⟩ := by
  intro shape
  let text := "array\x7b'a b': int,\r\n\tbool\x7d kept".toList
  have hparsed : parse [] text = .ok ⟨shape, "kept".toList⟩ := by
    with_unfolding_all rfl
  have hconsumed : consumed text =
      "array\x7b'a b': int,".toList ++ ("\r\n\t".toList ++ "bool\x7d".toList) := by
    with_unfolding_all rfl
  have htext : text = consumed text ++ " kept".toList := by
    rw [hconsumed]
    rfl
  have hbody : Token.IsBody Quote.single.char "a b".toList := by simp [Token.IsBody, Quote.char]
  have houtside : Whole "array\x7b'a b': int,".toList :=
    (whole_of_no_quote (by decide : ∀ c ∈ "array\x7b".toList, c ≠ '\'' ∧ c ≠ '"')).append
      ((whole_literal hbody).append
        (whole_of_no_quote (by decide : ∀ c ∈ ": int,".toList, c ≠ '\'' ∧ c ≠ '"')))
  have hbreak : IsRun "\r\n\t".toList := ⟨by decide, by simp [Token.IsLayout, Token.isLayout]⟩
  have hspaces : IsRun "  ".toList := ⟨by decide, by simp [Token.IsLayout, Token.isLayout]⟩
  exact ⟨hparsed, parse_relaid hparsed hconsumed htext houtside hbreak hspaces⟩

end TypeExpr

end Docblock
