import Docblock.Text.Offset

/-!
# Cuts at byte offsets

A text can be cut at a byte offset where one of its characters begins or the text ends; such an
offset is a boundary of the text (`Text.IsBoundary`). A cut there gives two texts that make the
whole one, and no other two do with that many bytes in the first (`splitAtByte?_eq_some_iff`). So
offsets compare as the texts before them do: of two cuts of a text, the one with fewer bytes before
it comes first (`exists_append_of_byteSize_le`).

Offsets come from two sources, the places of comments in a file and a cursor in a type, and both are
told as the text before them (`t = a ++ b` with the offset `byteSize a`). Then a sum of offsets is a
text put together, and no arithmetic on offsets is left but that of sizes. That an offset lies on a
boundary is a fact to be proved of each of them, never assumed: `Text.splitAtByte?` and
`Text.slice?` give `none` elsewhere, as slicing inside a character is refused.
-/

namespace Docblock.Text

@[simp] theorem byteSize_nil : byteSize [] = 0 := rfl

theorem byteSize_cons (c : Char) (t : Text) : byteSize (c :: t) = c.utf8Size + byteSize t := rfl

/-- Sizes add up, so an offset behind a text is the text's size plus an offset. -/
@[simp] theorem byteSize_append (a b : Text) : byteSize (a ++ b) = byteSize a + byteSize b := by
  induction a with
  | nil => simp
  | cons c a ih => rw [List.cons_append, byteSize_cons, byteSize_cons, ih, Nat.add_assoc]

/-- A character is at least one byte. -/
theorem length_le_byteSize (t : Text) : t.length ≤ byteSize t := by
  induction t with
  | nil => exact Nat.le_refl _
  | cons c t ih =>
    have hsize := c.utf8Size_pos
    rw [List.length_cons, byteSize_cons]
    omega

/-- Where every character is one byte, offsets count characters. -/
theorem byteSize_eq_length {t : Text} (h : ∀ c ∈ t, c.utf8Size = 1) : byteSize t = t.length := by
  induction t with
  | nil => rfl
  | cons c t ih =>
    rw [List.forall_mem_cons] at h
    rw [byteSize_cons, h.1, ih h.2, List.length_cons, Nat.add_comm]

/-- Only the empty text has no bytes. -/
theorem byteSize_eq_zero_iff {t : Text} : byteSize t = 0 ↔ t = [] := by
  cases t with
  | nil => simp
  | cons c t =>
    have hpos := c.utf8Size_pos
    rw [byteSize_cons]
    simp
    omega

/-- A text is cut at the border of two of its parts. -/
theorem splitAtByte?_append (a b : Text) : splitAtByte? (byteSize a) (a ++ b) = some (a, b) := by
  induction a with
  | nil => cases b <;> rfl
  | cons c a ih =>
    have hpos := c.utf8Size_pos
    have hne : c.utf8Size + byteSize a ≠ 0 := by omega
    have hle : c.utf8Size ≤ c.utf8Size + byteSize a := by omega
    have hsub : c.utf8Size + byteSize a - c.utf8Size = byteSize a := by omega
    simp only [List.cons_append, splitAtByte?, byteSize_cons, hne, hle, hsub, ih, if_true, if_false,
      Option.map_some]

/-- A cut gives two texts that make the whole one, the first of the size that was asked for. -/
theorem splitAtByte?_eq_some_iff {n : Nat} {t a b : Text} :
    splitAtByte? n t = some (a, b) ↔ t = a ++ b ∧ byteSize a = n := by
  constructor
  · intro h
    fun_induction splitAtByte? n t generalizing a with
    | case1 =>
      cases h
      exact ⟨rfl, rfl⟩
    | case2 => cases h
    | case3 =>
      cases h
      exact ⟨rfl, rfl⟩
    | case4 n c r hn hle ih =>
      obtain ⟨⟨a', b'⟩, hsplit, heq⟩ := Option.map_eq_some_iff.1 h
      cases heq
      obtain ⟨rfl, hsize⟩ := ih hsplit
      exact ⟨rfl, by rw [byteSize_cons]; omega⟩
    | case5 => cases h
  · rintro ⟨rfl, rfl⟩
    exact splitAtByte?_append a b

/-- The part of a text between two others is the slice between its borders. -/
theorem slice?_append (a b c : Text) :
    slice? (byteSize a) (byteSize a + byteSize b) (a ++ (b ++ c)) = some b := by
  have hle : ¬ byteSize a + byteSize b < byteSize a := by omega
  have hsub : byteSize a + byteSize b - byteSize a = byteSize b := by omega
  simp [slice?, hle, hsub, splitAtByte?_append]

/-- A slice is the part of the text between two others, of the sizes that were asked for. -/
theorem slice?_eq_some_iff {start stop : Nat} {t m : Text} :
    slice? start stop t = some m ↔
      ∃ a b, t = a ++ (m ++ b) ∧ byteSize a = start ∧ byteSize a + byteSize m = stop := by
  constructor
  · intro h
    unfold slice? at h
    split at h
    · cases h
    · next hle =>
      obtain ⟨⟨a, tail⟩, htail, h⟩ := Option.bind_eq_some_iff.1 h
      obtain ⟨⟨m', b⟩, hmiddle, h⟩ := Option.bind_eq_some_iff.1 h
      cases h
      obtain ⟨rfl, ha⟩ := splitAtByte?_eq_some_iff.1 htail
      obtain ⟨rfl, hm⟩ := splitAtByte?_eq_some_iff.1 hmiddle
      exact ⟨a, b, rfl, ha, by omega⟩
  · rintro ⟨a, b, rfl, rfl, rfl⟩
    exact slice?_append a m b

/-- Of two cuts of a text, the one with no more bytes before it is the first. -/
theorem exists_append_of_byteSize_le {a b a' b' : Text} (h : a ++ b = a' ++ b')
    (hle : byteSize a ≤ byteSize a') : ∃ m, a' = a ++ m ∧ b = m ++ b' := by
  rcases List.append_eq_append_iff.1 h with hfirst | ⟨m, rfl, rfl⟩
  · exact hfirst
  · have hempty : byteSize m = 0 := by
      rw [byteSize_append] at hle
      omega
    obtain rfl := byteSize_eq_zero_iff.1 hempty
    exact ⟨[], by simp, by simp⟩

/-- A character of the text begins at the offset, or the text ends there. -/
def IsBoundary (t : Text) (n : Nat) : Prop := ∃ a b, t = a ++ b ∧ byteSize a = n

/-- The border between two texts is a boundary of both together. -/
theorem isBoundary_append (a b : Text) : IsBoundary (a ++ b) (byteSize a) := ⟨a, b, rfl, rfl⟩

/-- A text can be cut at its boundaries and nowhere else. -/
theorem isSome_splitAtByte?_iff {n : Nat} {t : Text} :
    (splitAtByte? n t).isSome = true ↔ IsBoundary t n := by
  rw [Option.isSome_iff_exists]
  constructor
  · rintro ⟨⟨a, b⟩, h⟩
    exact ⟨a, b, splitAtByte?_eq_some_iff.1 h⟩
  · rintro ⟨a, b, h⟩
    exact ⟨(a, b), splitAtByte?_eq_some_iff.2 h⟩

end Docblock.Text
