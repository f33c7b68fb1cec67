import Mathlib.Data.List.TakeWhile
import Docblock.Proofs.Text.Offsets

/-!
# The bytes of a text

A scan over the bytes of a text stops between two characters if it tests all bytes of a character
alike (`TestsAlike`), and then it takes the bytes of the characters that the same scan over the
characters takes (`TestsAlike.takeWhile_bytes`). A test of bytes does so if it tells ASCII
characters apart and no others: these are one byte each, and all bytes of any other character are
`0x80` or more.

A cursor that holds bytes is compared with a reader of characters through this module alone
(`Docblock.Proofs.TypeExpr.CursorTokens`). The encoding itself is the library's
`String.utf8EncodeChar`. Decoding is not needed there: bytes are only ever tested, never read back,
and a slice that starts inside a character is ruled out by `Text.IsBoundary` rather than by its
bytes.
-/

namespace Docblock.Text

/-- The bytes of the text's UTF-8 form. -/
def bytes (t : Text) : List UInt8 := t.flatMap String.utf8EncodeChar

@[simp] theorem bytes_nil : bytes [] = [] := rfl

/-- The first character of a text gives the first bytes. -/
theorem bytes_cons (c : Char) (t : Text) :
    bytes (c :: t) = String.utf8EncodeChar c ++ bytes t := rfl

/-- Texts put together have their bytes put together, so offsets into the second are behind the
first. -/
@[simp] theorem bytes_append (a b : Text) : bytes (a ++ b) = bytes a ++ bytes b :=
  List.flatMap_append

/-- As many bytes as `Text.byteSize` adds up, which is what offsets are counted with. -/
@[simp] theorem length_bytes (t : Text) : (bytes t).length = byteSize t := by
  induction t with
  | nil => rfl
  | cons c t ih =>
    rw [bytes_cons, List.length_append, String.length_utf8EncodeChar, ih, byteSize_cons]

/-- The bytes from a boundary of the text on are the bytes of what follows it. -/
theorem drop_bytes_append (a b : Text) : (bytes (a ++ b)).drop (byteSize a) = bytes b := by
  rw [bytes_append, ← length_bytes, List.drop_left]

/-! ## The bytes of a character -/

/-- A character below `0x80` is one byte, and that byte is its number. -/
theorem utf8EncodeChar_ascii {c : Char} (h : c.toNat < 0x80) :
    String.utf8EncodeChar c = [UInt8.ofNat c.toNat] := by
  have hle : c.val.toNat ≤ 127 := by
    have : c.val.toNat < 128 := h
    omega
  rw [String.utf8EncodeChar]
  exact if_pos hle

/-- No byte of a character beyond ASCII is an ASCII character. -/
theorem le_of_mem_utf8EncodeChar {c : Char} (h : 0x80 ≤ c.toNat) {b : UInt8}
    (hb : b ∈ String.utf8EncodeChar c) : 0x80 ≤ b := by
  have hle : ¬ c.val.toNat ≤ 127 := by
    have : 128 ≤ c.val.toNat := h
    omega
  rw [String.utf8EncodeChar] at hb
  rw [if_neg hle] at hb
  rw [UInt8.le_iff_toNat_le]
  split at hb
  · simp only [List.mem_cons, List.not_mem_nil, or_false] at hb
    rcases hb with rfl | rfl <;> simp only [UInt8.toNat_ofNat', UInt8.reduceToNat] <;> omega
  split at hb
  · simp only [List.mem_cons, List.not_mem_nil, or_false] at hb
    rcases hb with rfl | rfl | rfl <;>
      simp only [UInt8.toNat_ofNat', UInt8.reduceToNat] <;> omega
  · simp only [List.mem_cons, List.not_mem_nil, or_false] at hb
    rcases hb with rfl | rfl | rfl | rfl <;>
      simp only [UInt8.toNat_ofNat', UInt8.reduceToNat] <;> omega

/-! ## Scans -/

/-- A test of bytes that answers for each byte of a character as a test of characters does for the
character. -/
def TestsAlike (p : UInt8 → Bool) (q : Char → Bool) : Prop :=
  ∀ c, ∀ b ∈ String.utf8EncodeChar c, p b = q c

/-- Tests are alike if they are on ASCII characters and answer the same for all that is not
ASCII. -/
theorem TestsAlike.of_ascii {p : UInt8 → Bool} {q : Char → Bool} (answer : Bool)
    (hascii : ∀ n < 0x80, p (UInt8.ofNat n) = q (Char.ofNat n))
    (hbytes : ∀ b : UInt8, 0x80 ≤ b → p b = answer)
    (hchars : ∀ c : Char, 0x80 ≤ c.toNat → q c = answer) : TestsAlike p q := by
  intro c b hb
  rcases Nat.lt_or_ge c.toNat 0x80 with hc | hc
  · rw [utf8EncodeChar_ascii hc, List.mem_singleton] at hb
    rw [hb, hascii _ hc, Char.ofNat_toNat]
  · rw [hbytes b (le_of_mem_utf8EncodeChar hc hb), hchars c hc]

variable {p : UInt8 → Bool} {q : Char → Bool}

/-- A scan over the bytes takes whole characters. -/
theorem TestsAlike.takeWhile_bytes (h : TestsAlike p q) (t : Text) :
    (bytes t).takeWhile p = bytes (t.takeWhile q) := by
  induction t with
  | nil => rfl
  | cons c t ih =>
    cases hc : q c with
    | true =>
      have hall : ∀ b ∈ String.utf8EncodeChar c, p b = true := fun b hb => (h c b hb).trans hc
      rw [bytes_cons, List.takeWhile_append_of_pos hall, ih, List.takeWhile_cons_of_pos hc,
        bytes_cons]
    | false =>
      obtain ⟨b, bs, hbs⟩ := List.exists_cons_of_ne_nil (String.utf8EncodeChar_ne_nil (c := c))
      have hb : p b = false := (h c b (by simp [hbs])).trans hc
      rw [bytes_cons, hbs, List.cons_append, List.takeWhile_cons_of_neg (by simp [hb]),
        List.takeWhile_cons_of_neg (by simp [hc]), bytes_nil]

/-- The first byte is tested as the first character is. -/
theorem TestsAlike.any_head_bytes (h : TestsAlike p q) (t : Text) :
    (bytes t).head?.any p = t.head?.any q := by
  cases t with
  | nil => rfl
  | cons c t =>
    obtain ⟨b, bs, hbs⟩ := List.exists_cons_of_ne_nil (String.utf8EncodeChar_ne_nil (c := c))
    rw [bytes_cons, hbs]
    exact h c b (by simp [hbs])

end Docblock.Text
