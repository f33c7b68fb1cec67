/-!
# Text and its white space

Every rule of this library is a rule about characters, so a text is a list of characters. This
module holds the property White_Space of the Unicode standard as a predicate, and the cuts that are
made along it: trimming at either end, and splitting into words.

`Docblock.Proofs.Text.Words` has the laws of these cuts. The white space of types is another,
smaller set (`Token.isLayout`), and where the two differ a law asks for plain blanks.
-/

namespace Docblock

/-- A text, character by character. -/
abbrev Text := List Char

namespace Text

/-- What is said of each character of a text is decided along the text. -/
instance (priority := high) decidableForallMem (t : Text) (p : Char → Prop) [DecidablePred p] :
    Decidable (∀ c ∈ t, p c) := List.decidableBAll p t

/-- What is said of the character at one place, if there is one, is decided there. -/
instance (priority := high) decidableForallMemOption (c? : Option Char) (p : Char → Prop)
    [DecidablePred p] : Decidable (∀ c ∈ c?, p c) := c?.decidableForallMem

/-- Whether a text is one of a list of texts is decided along the list. -/
instance (priority := high) decidableMem (t : Text) (ts : List Text) : Decidable (t ∈ ts) :=
  List.instDecidableMemOfLawfulBEq t ts

/-- The Unicode property White_Space. -/
def isBlank (c : Char) : Bool :=
  let n := c.toNat
  (0x09 ≤ n && n ≤ 0x0D) || n == 0x20 || n == 0x85 || n == 0xA0 || n == 0x1680 ||
    (0x2000 ≤ n && n ≤ 0x200A) || n == 0x2028 || n == 0x2029 || n == 0x202F || n == 0x205F ||
    n == 0x3000

/-- Whether nothing but white space stands in a text; the empty text counts. -/
def allBlank (t : Text) : Bool := t.all isBlank

/-- A list without the elements at its end that satisfy `p`. -/
def dropEndWhile {α : Type} (p : α → Bool) (l : List α) : List α := (l.reverse.dropWhile p).reverse

/-- The text without leading white space. -/
def trimStart (t : Text) : Text := t.dropWhile isBlank

/-- The text without trailing white space. -/
def trimEnd (t : Text) : Text := dropEndWhile isBlank t

/-- The text without white space at either end. -/
def trim (t : Text) : Text := trimEnd (trimStart t)

/-- The text up to its first white space. -/
def firstWord (t : Text) : Text := t.takeWhile (!isBlank ·)

/-- The text from its first white space on. -/
def afterFirstWord (t : Text) : Text := t.dropWhile (!isBlank ·)

/-- The words of a text: its maximal runs without white space. -/
def words (t : Text) : List Text := (t.splitOnP isBlank).filter (!·.isEmpty)

theorem isPrefixOf?_eq_some_iff {start t r : Text} :
    start.isPrefixOf? t = some r ↔ t = start ++ r := by
  induction start generalizing t with
  | nil =>
    cases t with
    | nil => exact Option.some_inj
    | cons d t => exact Option.some_inj
  | cons c start ih =>
    cases t with
    | nil => exact ⟨nofun, nofun⟩
    | cons d t =>
      show (if c == d then start.isPrefixOf? t else none) = some r ↔ _
      by_cases hcd : c = d
      · simp [hcd, ih]
      · simp [hcd, Ne.symm hcd]

/-- The text without `start` at its front, if it begins with it. -/
def dropStart? (start t : Text) : Option Text := start.isPrefixOf? t

/-- The text without `tail` at its end, if it ends with it. -/
def dropEnd? (tail t : Text) : Option Text :=
  (tail.reverse.isPrefixOf? t.reverse).map List.reverse

/-- Whether `part` stands somewhere in the text. -/
def includes (part : Text) : Text → Bool
  | [] => part.isEmpty
  | c :: r => part.isPrefixOf (c :: r) || includes part r

/-- ASCII letters compare without regard to case. -/
def eqIgnoringCase (a b : Text) : Bool := a.map Char.toLower == b.map Char.toLower

/-- The decimal numeral of a number. -/
def ofNat (n : Nat) : Text := Nat.toDigits 10 n

end Text

end Docblock
