import Docblock.Proofs.TypeExpr.Shape
import Docblock.Proofs.TypeExpr.Written

/-!
# Texts without layout

Two texts of one type differ in their layout and in the commas before a closing mark. Both are
deleted here from the text itself, without reading it as a type: `Text.condensed` is a text without
the layout outside its literals, and `Text.settled` also loses the commas that stand before a
closing mark then. Literals are found by their quotes and escapes alone (`Text.inLiterals`).

`Spells c u` relates a source text to a written one, in a form that goes through concatenation: with
any text behind it, `c` settles to what `u` condenses to.

The functions on texts are the specification by which a source text and a written one are compared,
so they are defined without the reader and without the printer, and an example shows what they
delete. Commas are deleted from the end of the text to its front, since a comma may come to stand
before a closing mark once another is gone.
-/

namespace Docblock

namespace Text

/-- The characters of a text, each with whether it belongs to a literal; the quotes of a literal do.
The text begins in a literal with the given quote, if there is one. -/
def inLiterals : Option Char → Text → List (Char × Bool)
  | _, [] => []
  | none, c :: r =>
    if c = '\'' ∨ c = '"' then (c, true) :: inLiterals (some c) r
    else (c, false) :: inLiterals none r
  | some quote, '\\' :: c :: r => ('\\', true) :: (c, true) :: inLiterals (some quote) r
  | some quote, c :: r => (c, true) :: inLiterals (if c = quote then none else some quote) r

/-- The characters of a text without the layout outside its literals. -/
def solid (t : Text) : List (Char × Bool) :=
  (inLiterals none t).filter fun (c, literal) => literal || !Token.isLayout c

/-- Whether a mark closes a row that may end with a comma. -/
def closesRow (c : Char) : Bool := c == '}' || c == '>' || c == ')'

/-- The characters without the commas outside literals that are followed by a closing mark, once
those behind them are deleted. -/
def dropCommas : List (Char × Bool) → List (Char × Bool)
  | [] => []
  | (c, literal) :: r =>
    let rest := dropCommas r
    if c = ',' ∧ literal = false ∧ rest.head?.any (closesRow ·.1) then rest
    else (c, literal) :: rest

/-- The text without the layout outside its literals. -/
def condensed (t : Text) : Text := (solid t).map Prod.fst

/-- The text without the layout outside its literals and without the commas before closing marks. -/
def settled (t : Text) : Text := (dropCommas (solid t)).map Prod.fst

example : settled "f< 'a, b >' , c , >".toList = "f<'a, b >',c>".toList := by decide

end Text

open Text

/-! ## Texts that end outside literals -/

section Literals

attribute [local simp] inLiterals

/-- A literal that begins in the text ends in it. -/
def Whole (c : Text) : Prop :=
  ∀ r, inLiterals none (c ++ r) = inLiterals none c ++ inLiterals none r

/-- Nothing begins no literal. -/
theorem Whole.nil : Whole [] := fun _ => rfl

/-- Texts with whole literals have whole literals together. -/
theorem Whole.append {a b : Text} (ha : Whole a) (hb : Whole b) : Whole (a ++ b) := by
  intro r
  rw [List.append_assoc, ha, hb, ha, List.append_assoc]

/-- Behind a text with whole literals, what is left of the next one does not depend on the first. -/
theorem solid_append {a : Text} (ha : Whole a) (b : Text) :
    solid (a ++ b) = solid a ++ solid b := by
  rw [solid, ha, List.filter_append]
  rfl

/-- Without a quote no character belongs to a literal. -/
theorem inLiterals_of_no_quote {a : Text} (h : ∀ c ∈ a, c ≠ '\'' ∧ c ≠ '"') (r : Text) :
    inLiterals none (a ++ r) = a.map (·, false) ++ inLiterals none r := by
  induction a with
  | nil => rfl
  | cons c a ih =>
    obtain ⟨hc₁, hc₂⟩ := h c List.mem_cons_self
    simp only [List.cons_append, List.map_cons, inLiterals, hc₁, hc₂, or_self, if_false]
    rw [ih fun d hd => h d (List.mem_cons_of_mem _ hd)]

/-- Without a quote there is no literal to be broken. -/
theorem whole_of_no_quote {a : Text} (h : ∀ c ∈ a, c ≠ '\'' ∧ c ≠ '"') : Whole a := by
  intro r
  have hnil := inLiterals_of_no_quote h []
  rw [List.append_nil] at hnil
  rw [inLiterals_of_no_quote h, hnil, inLiterals, List.append_nil]

/-- Without a quote all layout goes. -/
theorem solid_of_no_quote {a : Text} (h : ∀ c ∈ a, c ≠ '\'' ∧ c ≠ '"') :
    solid a = (a.filter (!Token.isLayout ·)).map (·, false) := by
  have hnil := inLiterals_of_no_quote h []
  rw [List.append_nil] at hnil
  rw [solid, hnil, inLiterals, List.append_nil, List.filter_map]
  rfl

/-- The body of a literal and its closing quote, read after the opening one. -/
theorem inLiterals_body {quote : Char} {body : Text} (h : Token.IsBody quote body) (r : Text)
    (hquote : quote ≠ '\\') :
    inLiterals (some quote) (body ++ quote :: r) =
      (body ++ [quote]).map (·, true) ++ inLiterals none r := by
  induction body using Token.IsBody.induct with
  | case1 => cases r <;> simp [hquote]
  | case2 c body ih =>
    rw [Token.IsBody] at h
    simp [ih h]
  | case3 c body hescape ih =>
    rw [Token.IsBody] at h
    · obtain ⟨hbackslash, hne, hbody⟩ := h
      have hstep : ∀ t,
          inLiterals (some quote) (c :: t) = (c, true) :: inLiterals (some quote) t := by
        intro t
        cases t <;> simp [hbackslash, hne]
      simp [hstep, ih hbody]
    · exact hescape

/-- A literal ends at its own quote, whatever its body escapes. -/
theorem inLiterals_literal {quote : Quote} {body : Text} (h : Token.IsBody quote.char body)
    (r : Text) :
    inLiterals none (quote.char :: (body ++ quote.char :: r)) =
      (quote.char :: (body ++ [quote.char])).map (·, true) ++ inLiterals none r := by
  have hquote : quote.char = '\'' ∨ quote.char = '"' := by cases quote <;> decide
  simp only [inLiterals, hquote, if_true]
  rw [inLiterals_body h r (Token.char_ne_backslash quote)]
  rfl

/-- A literal is whole. -/
theorem whole_literal {quote : Quote} {body : Text} (h : Token.IsBody quote.char body) :
    Whole (quote.char :: (body ++ [quote.char])) := by
  intro r
  have hnil := inLiterals_literal h []
  rw [inLiterals, List.append_nil] at hnil
  rw [hnil, ← inLiterals_literal h r]
  simp

/-- Nothing goes from a literal. -/
theorem solid_literal {quote : Quote} {body : Text} (h : Token.IsBody quote.char body) :
    solid (quote.char :: (body ++ [quote.char])) =
      (quote.char :: (body ++ [quote.char])).map (·, true) := by
  have hnil := inLiterals_literal h []
  rw [inLiterals, List.append_nil] at hnil
  rw [solid, hnil, List.filter_eq_self]
  intro x hx
  obtain ⟨c, -, rfl⟩ := List.mem_map.1 hx
  rfl

end Literals

/-! ## Spelling -/

/-- The source text `c` spells the written text `u`: with any text behind it, it settles to what `u`
condenses to. -/
structure Spells (c u : Text) : Prop where
  whole : Whole c
  whole_written : Whole u
  dropCommas_append : ∀ k, dropCommas (solid c ++ k) = solid u ++ dropCommas k

/-- Texts that spell two written ones spell them together. -/
theorem Spells.append {a b u v : Text} (ha : Spells a u) (hb : Spells b v) :
    Spells (a ++ b) (u ++ v) := by
  refine ⟨ha.whole.append hb.whole, ha.whole_written.append hb.whole_written, fun k => ?_⟩
  rw [solid_append ha.whole, solid_append ha.whole_written, List.append_assoc,
    ha.dropCommas_append, hb.dropCommas_append, List.append_assoc]

/-- A character that is no comma stays. -/
theorem dropCommas_cons_of_ne {x : Char × Bool} (h : x.1 ≠ ',' ∨ x.2 = true)
    (k : List (Char × Bool)) : dropCommas (x :: k) = x :: dropCommas k := by
  rw [dropCommas, if_neg]
  rcases h with h | h <;> simp [h]

/-- Characters that are no commas stay. -/
theorem dropCommas_append_of_ne {xs : List (Char × Bool)} (h : ∀ x ∈ xs, x.1 ≠ ',' ∨ x.2 = true)
    (k : List (Char × Bool)) : dropCommas (xs ++ k) = xs ++ dropCommas k := by
  induction xs with
  | nil => rfl
  | cons x xs ih =>
    rw [List.cons_append, dropCommas_cons_of_ne (h x List.mem_cons_self),
      ih fun y hy => h y (List.mem_cons_of_mem _ hy), List.cons_append]

/-- A text without bare commas spells itself. -/
theorem Spells.of_no_comma {c : Text} (h : Whole c)
    (hcomma : ∀ x ∈ solid c, x.1 ≠ ',' ∨ x.2 = true) :
    Spells c c :=
  ⟨h, h, fun k => dropCommas_append_of_ne hcomma k⟩

/-- Layout holds no quote. -/
theorem isLayout_ne_quote {g : Text} (hg : Token.IsLayout g) : ∀ c ∈ g, c ≠ '\'' ∧ c ≠ '"' := by
  intro c hc
  have hlayout := hg c hc
  constructor
  · rintro rfl
    exact absurd hlayout (by decide)
  · rintro rfl
    exact absurd hlayout (by decide)

/-- Nothing is left of layout. -/
theorem solid_layout {g : Text} (hg : Token.IsLayout g) : solid g = [] := by
  rw [solid_of_no_quote (isLayout_ne_quote hg)]
  have hnone : g.filter (!Token.isLayout ·) = [] := by
    rw [List.filter_eq_nil_iff]
    intro c hc
    simp [hg c hc]
  rw [hnone, List.map_nil]

/-- Layout spells any other layout. -/
theorem Spells.layout {g g' : Text} (hg : Token.IsLayout g) (hg' : Token.IsLayout g') :
    Spells g g' := by
  refine ⟨whole_of_no_quote (isLayout_ne_quote hg), whole_of_no_quote (isLayout_ne_quote hg'), ?_⟩
  intro k
  rw [solid_layout hg, solid_layout hg']
  rfl

/-- Nothing spells nothing. -/
theorem Spells.nil : Spells [] [] := .layout .nil .nil

/-- Characters that are neither quotes nor commas spell themselves. -/
theorem Spells.plain {a : Text} (h : ∀ c ∈ a, c ≠ '\'' ∧ c ≠ '"' ∧ c ≠ ',') : Spells a a := by
  have hquote : ∀ c ∈ a, c ≠ '\'' ∧ c ≠ '"' := fun c hc => ⟨(h c hc).1, (h c hc).2.1⟩
  refine .of_no_comma (whole_of_no_quote hquote) fun x hx => ?_
  rw [solid_of_no_quote hquote] at hx
  obtain ⟨c, hc, rfl⟩ := List.mem_map.1 hx
  exact .inl (h c (List.mem_filter.1 hc).1).2.2

/-- A literal spells itself. -/
theorem Spells.literal {quote : Quote} {body : Text} (h : Token.IsBody quote.char body) :
    Spells (quote.char :: (body ++ [quote.char])) (quote.char :: (body ++ [quote.char])) := by
  refine .of_no_comma (whole_literal h) fun x hx => ?_
  rw [solid_literal h] at hx
  obtain ⟨c, -, rfl⟩ := List.mem_map.1 hx
  exact .inr rfl

/-- The text does not begin with a closing mark. -/
def Opens (u : Text) : Prop := ∃ x ∈ (solid u).head?, closesRow x.1 = false

/-- A text that begins with no closing mark does so with another behind it. -/
theorem Opens.append {u : Text} (h : Opens u) (hu : Whole u) (v : Text) : Opens (u ++ v) := by
  obtain ⟨x, hx, hclose⟩ := h
  refine ⟨x, ?_, hclose⟩
  rw [solid_append hu, List.head?_append, Option.mem_def.1 hx]
  rfl

/-- A comma begins no literal. -/
theorem whole_comma : Whole [','] := whole_of_no_quote (by simp)

/-- A comma stays where no closing mark follows it. -/
theorem Spells.comma_cons {c u : Text} (h : Spells c u) (hu : Opens u) :
    Spells (',' :: c) (',' :: u) := by
  refine ⟨whole_comma.append h.whole, whole_comma.append h.whole_written, fun k => ?_⟩
  have hsolid : ∀ t, solid (',' :: t) = (',', false) :: solid t :=
    fun t => solid_append whole_comma t
  obtain ⟨x, hx, hclose⟩ := hu
  rw [hsolid, hsolid, List.cons_append, dropCommas, h.dropCommas_append, if_neg]
  · rfl
  · rw [List.head?_append, Option.mem_def.1 hx]
    simp [hclose]

/-- A comma goes where a closing mark follows it. -/
theorem Spells.comma_close {g : Text} (hg : Token.IsLayout g) {c : Char} (hc : closesRow c = true) :
    Spells (',' :: (g ++ [c])) [c] := by
  have hmem : c = '}' ∨ c = '>' ∨ c = ')' := by simpa [closesRow, or_assoc] using hc
  have hspells : Spells (g ++ [c]) [c] := by
    refine (Spells.layout hg .nil).append (.plain ?_)
    rcases hmem with rfl | rfl | rfl <;> simp
  have hsolid : solid [c] = [(c, false)] := by
    rcases hmem with rfl | rfl | rfl <;> decide
  refine ⟨whole_comma.append hspells.whole, hspells.whole_written, fun k => ?_⟩
  have hcomma : solid (',' :: (g ++ [c])) = (',', false) :: solid (g ++ [c]) :=
    solid_append whole_comma _
  rw [hcomma, List.cons_append, dropCommas, hspells.dropCommas_append, hsolid, if_pos]
  simp [hc]

end Docblock
