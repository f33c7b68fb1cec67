import Docblock.Proofs.Text.Cuts
import Docblock.Source.Segment

/-!
# Texts that do not close a comment

A block comment ends at the first `*/` after its opening mark. `Text.NoClose` says that this mark
stands nowhere in a text; two such texts put together make another one, unless the mark forms at
their border (`Text.noClose_append`). `Closed m` says that the mark stands at the end of `m` and
nowhere before.

What is rendered of a comment is put together from texts of both kinds. Those that come out of the
comment may hold slashes and stars, but no `*/`, since the comment ended at the first one. Those
that the printer adds (gaps, indents, margins, words of its own) are `Text.Clean`, which can stand
in front of anything. So the rendered comment ends at its own `*/` once the borders are looked at
one by one, and that is done in `Docblock.Proofs.Comment.Closing`. Opening marks play no part: a
block comment does not nest.
-/

namespace Docblock

namespace Text

/-- The mark that ends a block comment does not stand in the text. -/
def NoClose (t : Text) : Prop := NoPair '*' '/' t

/-- A stretch of a text without `*/` has no `*/` either. -/
theorem NoClose.part {t u : Text} (hu : NoClose u) (h : t <:+: u) : NoClose t := NoPair.part hu h

@[simp] theorem noClose_nil : NoClose [] := noPair_nil

/-- The mark `*/` stands at the front of a text or further on. -/
theorem noClose_cons {c : Char} {t : Text} :
    NoClose (c :: t) ↔ ¬ (c = '*' ∧ t.head? = some '/') ∧ NoClose t := noPair_cons

/-- The mark does not stand in two texts put together if it stands in neither and does not form at
their border. -/
theorem noClose_append {a b : Text} :
    NoClose (a ++ b) ↔
      NoClose a ∧ NoClose b ∧ ¬ (a.getLast? = some '*' ∧ b.head? = some '/') := noPair_append

/-- Without a slash there is no `*/`. -/
theorem noClose_of_not_mem {t : Text} (h : '/' ∉ t) : NoClose t :=
  fun hclose => h (hclose.subset (by simp))

/-- No `*/` forms at the border if the second text does not start with a slash. -/
theorem NoClose.append {a b : Text} (ha : NoClose a) (hb : NoClose b)
    (hborder : b.head? ≠ some '/') : NoClose (a ++ b) :=
  noClose_append.2 ⟨ha, hb, fun h => hborder h.2⟩

/-- No `*/` forms at the border if the first text does not end with a star. -/
theorem NoClose.append_of_getLast? {a b : Text} (ha : NoClose a) (hb : NoClose b)
    (hborder : a.getLast? ≠ some '*') : NoClose (a ++ b) :=
  noClose_append.2 ⟨ha, hb, fun h => hborder h.1⟩

/-- A character that is not a star may stand in front. -/
theorem NoClose.cons {c : Char} {t : Text} (ht : NoClose t) (hc : c ≠ '*') : NoClose (c :: t) :=
  noClose_cons.2 ⟨fun h => hc h.1, ht⟩

/-- A text that stands behind any other without closing a comment there. -/
structure Clean (t : Text) : Prop where
  noClose : NoClose t
  head? : t.head? ≠ some '/'

theorem Clean.nil : Clean [] := ⟨noClose_nil, by simp⟩

/-- Texts that can stand anywhere can stand next to each other. -/
theorem Clean.append {a b : Text} (ha : Clean a) (hb : Clean b) : Clean (a ++ b) := by
  refine ⟨ha.noClose.append hb.noClose hb.head?, ?_⟩
  cases a with
  | nil => exact hb.head?
  | cons c a => exact ha.head?

/-- A text without a slash neither holds `*/` nor completes one. -/
theorem clean_of_not_mem {t : Text} (h : '/' ∉ t) : Clean t := by
  refine ⟨noClose_of_not_mem h, fun hhead => h ?_⟩
  exact List.mem_of_head? hhead

/-- White space can stand anywhere. -/
theorem clean_of_allBlank {t : Text} (h : ∀ c ∈ t, isBlank c = true) : Clean t :=
  clean_of_not_mem fun hmem => absurd (h '/' hmem) (by decide)

end Text

open Text

namespace Source

/-- The closing mark stands at the end of the text and nowhere before. -/
def Closed (m : Text) : Prop := ∃ b, m = b ++ ['*', '/'] ∧ NoClose (b ++ ['*'])

/-- A closed text is taken whole, whatever follows it. -/
theorem Closed.through {m : Text} (h : Closed m) (k : Text) :
    through "*/".toList (m ++ k) = m.length := by
  obtain ⟨b, rfl, hb⟩ := h
  have hmark : "*/".toList = ['*', '/'] := by decide
  rw [hmark]
  induction b with
  | nil => simp [Source.through]
  | cons c b ih =>
    rw [List.cons_append, noClose_cons] at hb
    -- a mark here would stand in the text itself: what follows it has no part in the first two
    -- characters
    have hfront : ['*', '/'].isPrefixOf (c :: (b ++ ['*', '/'] ++ k)) = false := by
      rw [Bool.eq_false_iff, ne_eq, List.isPrefixOf_iff_prefix]
      intro hfront
      apply hb.1
      cases b with
      | nil => simp [List.cons_prefix_cons] at hfront
      | cons d b =>
        rw [List.cons_append, List.cons_append, List.cons_prefix_cons, List.cons_prefix_cons]
          at hfront
        exact ⟨hfront.1.symm, by simp [hfront.2.1.symm]⟩
    rw [List.cons_append, List.cons_append, Source.through, hfront, ih hb.2]
    simp
    omega

/-- A text is taken up to its first closing mark, or to its end if there is none. -/
theorem through_spec (r : Text) :
    (NoClose r ∧ through "*/".toList r = r.length) ∨ Closed (r.take (through "*/".toList r)) := by
  have hmark : "*/".toList = ['*', '/'] := by decide
  rw [hmark]
  induction r with
  | nil => exact .inl ⟨noClose_nil, rfl⟩
  | cons c r ih =>
    rw [Source.through]
    split
    · next hfront =>
      obtain ⟨k, hk⟩ := List.isPrefixOf_iff_prefix.1 hfront
      refine .inr ⟨[], ?_, noClose_of_not_mem (by simp)⟩
      rw [← hk]
      rfl
    · next hfront =>
      have hborder : ¬ (c = '*' ∧ r.head? = some '/') := by
        rintro ⟨rfl, hhead⟩
        obtain ⟨k, rfl⟩ := List.head?_eq_some_iff.1 hhead
        exact hfront (by simp)
      rw [Nat.add_comm]
      rcases ih with ⟨hr, hlength⟩ | ⟨b, hb, hclose⟩
      · exact .inl ⟨noClose_cons.2 ⟨hborder, hr⟩, by rw [hlength, List.length_cons]⟩
      · refine .inr ⟨c :: b, by rw [List.take_succ_cons, hb]; rfl, ?_⟩
        refine noClose_cons.2 ⟨?_, hclose⟩
        rintro ⟨hc, hhead⟩
        apply hborder
        refine ⟨hc, ?_⟩
        -- what was taken begins as the text does
        rw [← List.take_append_drop (Source.through ['*', '/'] r) r, hb]
        cases b with
        | nil => simp at hhead
        | cons d b => exact hhead

end Source

end Docblock
