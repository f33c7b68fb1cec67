import Docblock.Text.Blank

/-!
# What is left of a row

A reader takes elements off the front of a row, most often characters off a text, and gives back
what is left, with the fact that this is shorter; so whatever reads on is known to end.
-/

namespace Docblock

/-- What is left of a row after at least one of its elements was read. -/
abbrev Shorter {α : Type} (s : List α) := { r : List α // r.length < s.length }

/-- What is left of a row after any number of its elements was read. -/
abbrev NoLonger {α : Type} (s : List α) := { r : List α // r.length ≤ s.length }

end Docblock
