import Docblock.Proofs.TypeExpr.Arranged
import Docblock.Proofs.TypeExpr.Printing

/-!
# The round trip of types

A type that was read, written at any wrap level and read again comes back as the arranged tree, with
nothing left of its text, and is written the same way again. So writing a type is a fixed point from
the first time on.

The theorem joins two laws: what is read is well-formed (`Docblock.Proofs.TypeExpr.Shape`),
arranging keeps that, and a well-formed tree is read back from its lines
(`Docblock.Proofs.TypeExpr.Printing`). It holds of every text that is read as a type, at any of the
four levels and with any indent unit of layout, and it has expansion switched off.

It speaks of a type alone on its lines. With a description behind it one more condition is needed,
and that is the subject of `Docblock.Proofs.TypeExpr.Boundary`.
-/

namespace Docblock

open TypeExpr

/-- The end of a text goes on with no type. -/
theorem closes_nil : Closes [] := by
  refine ⟨fun m _ hfront => ?_, fun r his => ?_, by simp [Token.EndsWord]⟩
  · have := m.text_length_pos
    simp [List.prefix_nil.1 hfront] at this
  · exact absurd his.1 (by simp [Token.skip])

/-- A well-formed tree is read back from its written form alone. -/
theorem WellFormed.parse_written {level : WrapLevel} {unit : Text} (hunit : Token.IsLayout unit)
    {t : TypeExpr} (h : WellFormed .top t) (location : Text) (depth : Nat) :
    parse location (t.written level unit depth) = .ok ⟨t, []⟩ := by
  have hreads : Reads (.type .top t) (t.written level unit depth ++ []) [] :=
    h.reads_written hunit depth closes_nil.endsWord (closes_nil.endsBefore h)
  rw [List.append_nil] at hreads
  exact parse_eq_ok_iff.2 ⟨[], hreads, rfl⟩

/-- Writing a type that was read and reading it again gives the arranged tree and an empty rest, and
that tree is written the same way. -/
theorem parse_unpieces_lines {location text : Text} {parsed : Parsed}
    (hparsed : parse location text = .ok parsed) {o : Options} (hexpand : o.expandNull = false)
    (hunit : ∀ c ∈ o.indentUnit, Token.isLayout c = true) (level : WrapLevel) (location' : Text) :
    parse location' (Text.unpieces (parsed.type.lines o level)) =
        .ok ⟨arrange false parsed.type, []⟩ ∧
      (arrange false parsed.type).lines o level = parsed.type.lines o level := by
  obtain ⟨r, hreads, -⟩ := parse_eq_ok_iff.1 hparsed
  have hwf : WellFormed .top parsed.type := hreads.shaped.1
  constructor
  · rw [unpieces_lines, hexpand]
    exact hwf.arrange.parse_written hunit location' 0
  · simp only [TypeExpr.lines, TypeExpr.render, TypeExpr.layout, hexpand, hwf.arrange_arrange]

/-- A shape and a `null` behind it: `null` moves to the front, inside and outside. -/
theorem parse_unpieces_lines_shape :
    let inner : TypeExpr := .union [.named "int".toList, .named "NULL".toList]
    let shape (t : TypeExpr) : TypeExpr := .shape [.keyed (.named "a".toList) true t]
    let t : TypeExpr := .union [shape inner, .named "null".toList]
    let o : Options := { useTabs := true }
    parse [] "array\x7b a ?: int|NULL, \x7d | null  kept".toList = .ok ⟨t, "kept".toList⟩ ∧
      Text.unpieces (t.lines o .entries) = "null | array\x7b\n\ta?: NULL | int\n\x7d".toList ∧
      parse [] (Text.unpieces (t.lines o .entries)) = .ok ⟨arrange false t, []⟩ ∧
      (arrange false t).lines o .entries = t.lines o .entries := by
  intro inner shape t o
  have hparsed : parse [] "array\x7b a ?: int|NULL, \x7d | null  kept".toList =
      .ok ⟨t, "kept".toList⟩ := by with_unfolding_all rfl
  exact ⟨hparsed, by decide,
    parse_unpieces_lines hparsed (o := o) rfl (by decide) .entries []⟩

end Docblock
