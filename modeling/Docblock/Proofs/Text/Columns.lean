import Docblock.Options

/-!
# Columns

The width of a text is measured in 64-bit words. `Options.columns` is the same width as a number
that does not wrap around, so laws about layout are stated with it. A measured width below 2^64 is
that number (`Options.displayWidth_le_iff`).

The printer compares measured widths, so a law that says a line fits has two readings: of the
measured width it holds as it stands, and of the columns it holds where the text has fewer than 2^64
of them. The two are kept apart here. A law that is only about sums of widths (how much wider a line
is behind a prefix) is stated in columns. One that is about a test the program makes starts from the
measured width and goes through `Options.displayWidth_le_iff`.
-/

namespace Docblock.Options

variable (o : Options)

/-- The columns a text takes, however many these are. -/
def columns (t : Text) : Nat := t.foldr (fun c width => (o.charWidth c).toNat + width) 0

@[simp] theorem columns_nil : o.columns [] = 0 := rfl

@[simp] theorem columns_cons (c : Char) (t : Text) :
    o.columns (c :: t) = (o.charWidth c).toNat + o.columns t := rfl

/-- Columns add up, which a width in words of 64 bits does only up to overflow. -/
@[simp] theorem columns_append (a b : Text) : o.columns (a ++ b) = o.columns a + o.columns b := by
  induction a with
  | nil => simp
  | cons c a ih => rw [List.cons_append, columns_cons, columns_cons, ih, Nat.add_assoc]

/-- A text takes a column for each character, but for its tabs, which take the tab width. -/
theorem columns_add_count_tab (t : Text) :
    o.columns t + t.count '\t' = t.length + t.count '\t' * o.tabWidth.toNat := by
  induction t with
  | nil => simp
  | cons c t ih =>
    rw [columns_cons, charWidth, List.length_cons]
    by_cases htab : c = '\t'
    · rw [if_pos htab, htab, List.count_cons_self, Nat.succ_mul]
      omega
    · have hone : (1 : UInt64).toNat = 1 := rfl
      rw [if_neg htab, List.count_cons_of_ne htab, hone]
      omega

/-- Two texts one after the other are as wide as both, in words that wrap around as well. -/
theorem displayWidth_append (a b : Text) :
    o.displayWidth (a ++ b) = o.displayWidth a + o.displayWidth b := by
  induction a with
  | nil => exact (UInt64.zero_add _).symm
  | cons c a ih =>
    show o.charWidth c + o.displayWidth (a ++ b) = o.charWidth c + o.displayWidth a + _
    rw [ih, UInt64.add_assoc]

variable {o}

/-- A part of a text takes no more columns than the text. -/
theorem columns_le_of_prefix {a b : Text} (h : a <+: b) : o.columns a ≤ o.columns b := by
  obtain ⟨k, rfl⟩ := h
  rw [columns_append]
  exact Nat.le_add_right _ _

/-- A text without tabs takes a column for each character. -/
theorem columns_eq_length {t : Text} (h : '\t' ∉ t) : o.columns t = t.length := by
  simpa [List.count_eq_zero_of_not_mem h] using o.columns_add_count_tab t

/-- The measured width is the number of columns, but for multiples of 2^64. -/
theorem toNat_displayWidth (t : Text) : (o.displayWidth t).toNat = o.columns t % UInt64.size := by
  induction t with
  | nil => rfl
  | cons c t ih =>
    have hstep : o.displayWidth (c :: t) = o.charWidth c + o.displayWidth t := rfl
    rw [hstep, UInt64.toNat_add, ih, columns_cons, Nat.add_mod_mod]

/-- Below 2^64 the measured width is the number of columns. -/
theorem toNat_displayWidth_of_lt {t : Text} (h : o.columns t < UInt64.size) :
    (o.displayWidth t).toNat = o.columns t := by
  rw [toNat_displayWidth, Nat.mod_eq_of_lt h]

/-- A width that does not wrap around is compared as a number. -/
theorem displayWidth_le_iff {t : Text} (h : o.columns t < UInt64.size) (width : UInt64) :
    o.displayWidth t ≤ width ↔ o.columns t ≤ width.toNat := by
  rw [UInt64.le_iff_toNat_le, toNat_displayWidth_of_lt h]

/-- The same for two texts whose widths are added up. -/
theorem displayWidth_add_le_iff {a b : Text} (h : o.columns a + o.columns b < UInt64.size)
    (width : UInt64) :
    o.displayWidth a + o.displayWidth b ≤ width ↔ o.columns a + o.columns b ≤ width.toNat := by
  rw [← columns_append] at h
  rw [← displayWidth_append, displayWidth_le_iff h, columns_append]

/-- The same for a line with a word behind it. -/
theorem lt_displayWidth_add_iff {line word : Text}
    (h : o.columns (line ++ ' ' :: word) < UInt64.size) (width : UInt64) :
    width < o.displayWidth line + 1 + o.displayWidth word ↔
      width.toNat < o.columns (line ++ ' ' :: word) := by
  have hsum : o.displayWidth line + 1 + o.displayWidth word =
      o.displayWidth (line ++ ' ' :: word) := by
    rw [displayWidth_append, UInt64.add_assoc]
    rfl
  rw [hsum, ← UInt64.not_le, displayWidth_le_iff h, Nat.not_le]

end Docblock.Options
