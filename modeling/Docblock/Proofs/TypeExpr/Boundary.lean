import Docblock.Proofs.Text.Words
import Docblock.Proofs.TypeExpr.RoundTrip

/-!
# The boundary between a type and its description

A type that was read is written anew with its description behind it. What follows the type is then
read as the description again (`parse_unpieces_lines_append`), if it does not go on with the
arranged tree. It did not go on with the tree itself, and the two trees end alike with one
exception: a bare `array` that comes to stand last, where a `null` was moved away from, takes an
opening brace.

The condition is told on the text that follows (`parse_lines_append_rest_iff` is an `iff`), so it is
known for every type and rest whether the rest is kept. The example shows the one exception at work:
a brace that belonged to the description is read as the shape of the `array` before it.
-/

namespace Docblock

open TypeExpr

/-- The arranged tree is written as the tree is. -/
theorem render_arrange {location text : Text} {parsed : Parsed}
    (hparsed : parse location text = .ok parsed) {o : Options} (hexpand : o.expandNull = false)
    (level : WrapLevel) :
    (arrange false parsed.type).render o level = parsed.type.render o level := by
  obtain ⟨r, hreads, -⟩ := parse_eq_ok_iff.1 hparsed
  have hwf : WellFormed .top parsed.type := hreads.shaped.1
  simp only [render, layout, hexpand, hwf.arrange_arrange]

/-- What follows a type that is written anew is left of it, if it does not go on with the arranged
tree. -/
theorem parse_unpieces_lines_append {location text : Text} {parsed : Parsed}
    (hparsed : parse location text = .ok parsed) {o : Options} (hexpand : o.expandNull = false)
    (hunit : ∀ c ∈ o.indentUnit, Token.isLayout c = true) (level : WrapLevel) (location' : Text)
    {k : Text} (hword : Token.EndsWord Token.isNameChar k)
    (hend : EndsBefore .top (arrange false parsed.type) k) :
    parse location' (Text.unpieces (parsed.type.lines o level) ++ k) =
      .ok ⟨arrange false parsed.type, k.dropWhile fun c => c == ' ' || c == '\t'⟩ := by
  obtain ⟨r, hreads, -⟩ := parse_eq_ok_iff.1 hparsed
  have hwf : WellFormed .top parsed.type := hreads.shaped.1
  rw [unpieces_lines, hexpand]
  exact parse_eq_ok_iff.2 ⟨k, hwf.arrange.reads_written hunit 0 hword hend, rfl⟩

/-- Spaces and tabs are layout. -/
theorem skip_dropWhile (s : Text) :
    Token.skip (s.dropWhile fun c => c == ' ' || c == '\t') = Token.skip s := by
  have hlayout : Token.IsLayout (s.takeWhile fun c => c == ' ' || c == '\t') := by
    intro c hc
    rcases Text.eq_space_or_tab_of_mem_takeWhile hc with rfl | rfl <;> decide
  conv_rhs => rw [← List.takeWhile_append_dropWhile (p := fun c => c == ' ' || c == '\t') (l := s)]
  rw [Token.skip_layout_append hlayout]

/-- A type that ends before one text ends before another that begins with no further mark. -/
theorem EndsBefore.imp {t : TypeExpr} {r k : Text} (h : EndsBefore .top t r)
    (habsent : ∀ m : Mark, m.Absent r → m.Absent k) : EndsBefore .top t k :=
  ⟨fun m hm => habsent m (h.marks m hm), fun hplace => habsent _ (h.noBranch hplace), nofun⟩

/-- A type that is written anew and the description behind it are read back, unless an opening brace
goes on with the arranged tree and stands in front of the description. -/
theorem parse_lines_append_rest_iff {location text : Text} {parsed : Parsed}
    (hparsed : parse location text = .ok parsed) {o : Options} (hexpand : o.expandNull = false)
    (hunit : ∀ c ∈ o.indentUnit, c = ' ' ∨ c = '\t') (level : WrapLevel) (location' : Text) :
    parse location' (Text.unpieces (parsed.type.lines o level) ++ ' ' :: parsed.rest) =
        .ok ⟨arrange false parsed.type, parsed.rest⟩ ↔
      (.openBrace ∈ (arrange false parsed.type).openMarks → Mark.openBrace.Absent parsed.rest) := by
  have hlayout : ∀ c ∈ o.indentUnit, Token.isLayout c = true := by
    intro c hc
    rcases hunit c hc with rfl | rfl <;> decide
  obtain ⟨r, hreads, hrest⟩ := parse_eq_ok_iff.1 hparsed
  obtain ⟨hwf, hend, -⟩ : WellFormed .top parsed.type ∧ EndsBefore .top parsed.type r ∧ _ :=
    hreads.shaped
  have hspace : Token.skip (' ' :: parsed.rest) = Token.skip parsed.rest := rfl
  have hskip : Token.skip (' ' :: parsed.rest) = Token.skip r := by
    rw [hspace, hrest, skip_dropWhile]
  constructor
  · intro hagain hbrace
    -- what is read back ends where a reader of that tree ends, so none of its open marks stands
    -- there
    obtain ⟨r', hreads', hrest'⟩ := parse_eq_ok_iff.1 hagain
    have habsent : Mark.openBrace.Absent r' := hreads'.shaped.2.1.marks _ hbrace
    rwa [Mark.Absent, hrest', skip_dropWhile]
  · intro hbrace
    have hends : EndsBefore .top (arrange false parsed.type) (' ' :: parsed.rest) :=
      hwf.endsBefore_arrange (hend.imp fun m hm => by rwa [Mark.Absent, hskip]) fun hm => by
        rw [Mark.Absent, hspace]
        exact hbrace hm
    have hdrop : (' ' :: parsed.rest).dropWhile (fun c => c == ' ' || c == '\t') = parsed.rest := by
      rw [List.dropWhile_cons_of_pos rfl, hrest]
      exact List.dropWhile_idempotent _ _
    have hword : Token.EndsWord Token.isNameChar (' ' :: parsed.rest) := by
      rintro c ⟨⟩
      decide
    rw [parse_unpieces_lines_append hparsed hexpand hlayout level location' hword hends, hdrop]

/-- A brace behind a shape begins the description, also when the shape comes to stand last. -/
theorem parse_lines_append_rest_shape :
    let shape : TypeExpr := .shape [.positional (.named "int".toList)]
    let t : TypeExpr := .union [shape, .named "null".toList]
    let rest := "\x7bfoo\x7d bar".toList
    parse [] ("array\x7bint\x7d|null ".toList ++ rest) = .ok ⟨t, rest⟩ ∧
      Text.unpieces (t.lines {} .clauses) = "null | array\x7b\n    int\n\x7d".toList ∧
      parse [] (Text.unpieces (t.lines {} .clauses) ++ ' ' :: rest) =
        .ok ⟨arrange false t, rest⟩ := by
  intro shape t rest
  have hparsed : parse [] ("array\x7bint\x7d|null ".toList ++ rest) = .ok ⟨t, rest⟩ := by
    with_unfolding_all rfl
  have hclosed : .openBrace ∉ (arrange false t).openMarks := by decide
  have hagain := parse_lines_append_rest_iff hparsed (o := {}) rfl (by decide) .clauses []
  exact ⟨hparsed, by decide, hagain.2 fun hopen => absurd hopen hclosed⟩

/-- A `null` that moves away from `array`: what stood behind it becomes a shape. -/
theorem parse_lines_append_rest_array :
    let t : TypeExpr := .union [.named "array".toList, .named "null".toList]
    parse [] "array|null \x7bfoo\x7d bar".toList = .ok ⟨t, "\x7bfoo\x7d bar".toList⟩ ∧
      Text.unpieces (t.lines {} .never) ++ ' ' :: "\x7bfoo\x7d bar".toList =
        "null | array \x7bfoo\x7d bar".toList ∧
      parse [] "null | array \x7bfoo\x7d bar".toList =
        .ok ⟨.union [.named "null".toList, .shape [.positional (.named "foo".toList)]],
          "bar".toList⟩ :=
  ⟨by with_unfolding_all rfl, by decide, by with_unfolding_all rfl⟩

end Docblock
