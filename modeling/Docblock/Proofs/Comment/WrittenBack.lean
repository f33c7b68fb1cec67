import Mathlib.Data.List.Forall2
import Docblock.Proofs.Comment.Composed

/-!
# No line is lost when a comment is read

The nodes of a comment are written back line by line (`Node.lines`): prose as it is, and a tag as
its name with the first line of its description behind it, and then the other lines of the
description. These are the lines of the comment again. A line that begins no tag is kept as it is;
of one that begins a tag the white space at either end is lost, and that behind the name is one
space (`Restores`, `nodes_restored`).

The law is about every comment and has no hypothesis: `Restored` collects what the nodes are (prose
first, then tags with names that are words), how each line corresponds to one written back, and that
no line of prose or of a description begins a tag. What is lost of a first line is named exactly, in
the three forms of `Restores`; the type of a tag is not read yet, so nothing can be lost by failing
to read it.
-/

namespace Docblock

open Text

/-- A line that a node is written back as: the first of a tag, or another. -/
inductive NodeLine where
  | heading (text : Text)
  | kept (text : Text)
deriving DecidableEq

/-- The lines that a node is written back as. -/
def Node.lines : Node → List NodeLine
  | .prose text => [.kept text]
  | .tag t =>
    match pieces t.description with
    | [] => [.heading t.name]
    | first :: rest =>
      .heading (if first.isEmpty then t.name else t.name ++ ' ' :: first) :: rest.map .kept

namespace Comment

/-- What is written back for a line of a comment. The first line of a tag is trimmed, and one space
stands behind its first word if something follows. -/
inductive Restores : Text → NodeLine → Prop
  | kept (line : Text) : Restores line (.kept line)
  | name {line name : Text} (hname : Unbroken name) (hline : trim line = name) :
      Restores line (.heading name)
  | spaced {line name gap rest : Text} (hname : Unbroken name) (hgap : gap ≠ [])
      (hblank : allBlank gap = true) (hrest : rest ≠ [])
      (hbegins : ∀ c ∈ rest.head?, isBlank c = false) (hline : trim line = name ++ (gap ++ rest)) :
      Restores line (.heading (name ++ ' ' :: rest))

/-- The nodes are read from the lines, and no line is lost. -/
structure Restored (lines : List Text) (nodes : List Node) : Prop where
  prose_first : ∃ (prose : List Text) (tags : List Tag), nodes = prose.map .prose ++ tags.map .tag
  name : ∀ t, .tag t ∈ nodes → Unbroken t.name ∧ t.name.head? = some '@'
  restores : List.Forall₂ Restores lines (nodes.flatMap Node.lines)
  beginsNoTag : ∀ text, .kept text ∈ nodes.flatMap Node.lines → BeginsNoTag text

/-! ## One block -/

namespace Block

variable (b : Block)

/-- The lines of a block's tag are its first line, written anew, and its further lines as they are.
-/
theorem lines_tag : (Node.tag b.tag).lines =
    .heading (if b.description.isEmpty then b.name else b.name ++ ' ' :: b.description) ::
      b.rest.map .kept := by
  rw [Node.lines, b.pieces_description]
  rfl

/-- Behind the name of a tag stands nothing, or white space and then the description. -/
theorem trim_head_eq :
    (b.description = [] ∧ trim b.head = b.name) ∨
      (b.description ≠ [] ∧ ∃ gap, gap ≠ [] ∧ allBlank gap = true ∧
        trim b.head = b.name ++ (gap ++ b.description)) := by
  set behind := afterFirstWord (trim b.head)
  have hline : trim b.head = b.name ++ behind := by
    rw [b.name_eq]
    exact (firstWord_append_afterFirstWord _).symm
  have hblank := allBlank_takeWhile behind
  have hbehind : behind.takeWhile isBlank ++ b.description = behind := by
    rw [b.description_eq]
    exact List.takeWhile_append_dropWhile
  by_cases hempty : b.description = []
  · -- white space at the end has been trimmed
    rw [hempty, List.append_nil] at hbehind
    have htrim := congrArg trimEnd hline
    rw [trim, trimEnd_trimEnd, ← trim, ← hbehind, trimEnd_append_of_allBlank _ hblank,
      b.unbroken.trimEnd_eq] at htrim
    exact .inl ⟨hempty, htrim⟩
  · refine .inr ⟨hempty, behind.takeWhile isBlank, fun hnil => ?_, hblank, by rw [hbehind, hline]⟩
    -- what follows the first word begins with white space
    rw [hnil, List.nil_append] at hbehind
    obtain ⟨c, r, hr⟩ := List.exists_cons_of_ne_nil hempty
    have hfull := b.head?_description c (by rw [hr]; rfl)
    have hspace := head?_afterFirstWord (trim b.head) c (by
      show c ∈ behind.head?
      rw [← hbehind, hr]
      rfl)
    rw [hfull] at hspace
    cases hspace

/-- The lines of a block are restored by its tag. -/
theorem restores_lines : List.Forall₂ Restores b.lines (Node.tag b.tag).lines := by
  rw [b.lines_tag, Block.lines]
  refine .cons ?_ ?_
  · rcases b.trim_head_eq with ⟨hempty, hline⟩ | ⟨hne, gap, hgap, hblank, hline⟩
    · rw [hempty]
      exact .name b.unbroken hline
    · rw [if_neg (by simpa using hne)]
      exact .spaced b.unbroken hgap hblank hne b.head?_description hline
  · exact List.forall₂_map_right_iff.2 (List.forall₂_same.2 fun l _ => .kept l)

end Block

/-! ## Comments -/

/-- Prose is written back as it is. -/
theorem flatMap_lines_prose (prose : List Text) :
    (prose.map Node.prose).flatMap Node.lines = prose.map .kept := by
  induction prose with
  | nil => rfl
  | cons l prose ih =>
    rw [List.map_cons, List.flatMap_cons, ih]
    rfl

/-- The lines of several blocks are restored by their tags, in order. -/
theorem restores_blocks (blocks : List Block) :
    List.Forall₂ Restores (blocks.flatMap Block.lines)
      (((blocks.map Block.tag).map Node.tag).flatMap Node.lines) := by
  induction blocks with
  | nil => exact .nil
  | cons b blocks ih => exact List.rel_append b.restores_lines ih

/-- The lines of a comment are restored from its nodes. -/
theorem nodes_restored (comment : Text) : Restored (bodyLines comment) (nodes comment) := by
  obtain ⟨prose, blocks, hlines, hprose⟩ :=
    exists_blocks fun l (hl : l ∈ bodyLines comment) => trimmed_of_mem_bodyLines hl
  have hnodes := nodes_of_bodyLines hprose hlines
  refine ⟨⟨prose, blocks.map Block.tag, hnodes⟩, fun t ht => ?_, ?_, fun text htext => ?_⟩
  · obtain ⟨b, rfl⟩ : ∃ b : Block, b.tag = t := by
      have hmem : ∃ b ∈ blocks, b.tag = t := by simpa [hnodes] using ht
      exact hmem.imp fun _ => And.right
    exact ⟨b.unbroken, b.at_name⟩
  · rw [hlines, hnodes, List.flatMap_append, flatMap_lines_prose]
    refine List.rel_append ?_ (restores_blocks blocks)
    exact List.forall₂_map_right_iff.2 (List.forall₂_same.2 fun l _ => .kept l)
  · rw [hnodes, List.flatMap_append, flatMap_lines_prose, List.map_map] at htext
    rcases List.mem_append.1 htext with htext | htext
    · obtain ⟨l, hl, hsame⟩ := List.mem_map.1 htext
      obtain rfl := NodeLine.kept.inj hsame
      exact (hprose l hl).beginsNoTag
    -- a kept line of a tag is one of its further lines, for its first one is headed by the tag
    · obtain ⟨n, hn, htext⟩ := List.mem_flatMap.1 htext
      obtain ⟨b, -, rfl⟩ := List.mem_map.1 hn
      have hkept : ∃ l ∈ b.rest, NodeLine.kept l = .kept text := by
        simpa [b.lines_tag] using htext
      obtain ⟨l, hl, hsame⟩ := hkept
      obtain rfl := NodeLine.kept.inj hsame
      exact (b.loose l hl).beginsNoTag

example :
    (nodes "/** Sum.\n * @see\n *  @param   int $a  the\n *   first */".toList).flatMap Node.lines =
    [.kept "Sum.".toList, .heading "@see".toList, .heading "@param int $a  the".toList,
      .kept "  first".toList] := by decide

end Comment

end Docblock
