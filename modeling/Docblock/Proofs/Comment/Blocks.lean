import Docblock.Proofs.Comment.TypedTags

/-!
# A comment is composed to a fixed point

The lines of a comment are prose and then blocks, one for each tag (`exists_blocks`). What they are
composed to has the same form: prose that filling has made, and for each block one that is read back
(`compose_blocks`). Composed again, each part stays as it is (`compose_parse_eq_self`). The blank
line between the prose and the first typed tag is not put in again, since the prose ends with it.

The three ways of writing a tag are joined here (`exists_readBack`), and this is where the
hypotheses on types and descriptions are used. All else is about prose and blocks in general. That
two composed comments agree line by line is seen from the equation for all lines (`compose_eq`);
collapsing blank lines is done once over all of them, and it can be taken apart since no block
begins with a blank line.

Whether nullable types are expanded is fixed to not, since the tags that are read back are those of
arranged trees.
-/

namespace Docblock.Comment

open Text

/-! ## Prose and blocks -/

/-- The lines of a comment are prose, and then blocks. -/
theorem exists_blocks {lines : List Text} (h : ∀ l ∈ lines, trimEnd l = l ∧ '\n' ∉ l) :
    ∃ (prose : List Text) (blocks : List Block),
      lines = prose ++ blocks.flatMap Block.lines ∧ ∀ l ∈ prose, Loose l := by
  induction lines with
  | nil => exact ⟨[], [], rfl, by simp⟩
  | cons line lines ih =>
    obtain ⟨⟨htrim, hlf⟩, hlines⟩ := List.forall_mem_cons.1 h
    obtain ⟨prose, blocks, rfl, hprose⟩ := ih hlines
    cases htag : tagLine? line with
    | none =>
      exact ⟨line :: prose, blocks, rfl, List.forall_mem_cons.2 ⟨⟨htrim, hlf, htag⟩, hprose⟩⟩
    | some tag =>
      exact ⟨[], ⟨line, tag.1, tag.2, prose, htag, htrim, hlf, hprose⟩ :: blocks, rfl, by simp⟩

/-- Loose lines at the front are grouped to themselves. -/
theorem groupLines_append {prose : List Text} (h : ∀ l ∈ prose, tagLine? l = none)
    (lines : List Text) :
    groupLines (prose ++ lines) = (prose ++ (groupLines lines).1, (groupLines lines).2) := by
  induction prose with
  | nil => rfl
  | cons l prose ih =>
    obtain ⟨hl, hprose⟩ := List.forall_mem_cons.1 h
    rw [List.cons_append, groupLines_cons_of_none hl, ih hprose]
    rfl

/-- Blocks are grouped to their tags. -/
theorem groupLines_blocks {prose : List Text} (h : ∀ l ∈ prose, Loose l) (blocks : List Block) :
    groupLines (prose ++ blocks.flatMap Block.lines) = (prose, blocks.map Block.tag) := by
  suffices htags : groupLines (blocks.flatMap Block.lines) = ([], blocks.map Block.tag) by
    rw [groupLines_append fun l hl => (h l hl).tagLine?, htags, List.append_nil]
  induction blocks with
  | nil => rfl
  | cons b blocks ih =>
    rw [List.flatMap_cons, Block.lines, List.cons_append, groupLines_cons_of_tag b.tagLine?,
      groupLines_append fun l hl => (b.loose l hl).tagLine?, ih, List.append_nil]
    rfl

/-! ## Composing prose and tags -/

/-- Whether the last line of prose says something. -/
def endsFull (prose : List Text) : Bool := prose.getLast?.any (!allBlank ·)

/-- The blank line between prose and the tags after it, if the first has a type. -/
def parting (prose : List Text) (tags : List Tag) : List Text :=
  if endsFull prose && tags.head?.any isTyped then [[]] else []

/-- Behind a tag no blank line is put in, so tags are written one after the other. -/
theorem composeNodes_tags (o : Options) (parted : Bool) (tags : List Tag) :
    composeNodes o false parted (tags.map .tag) = tags.flatMap (tagLines o) := by
  induction tags generalizing parted with
  | nil => rfl
  | cons t tags ih => simp [composeNodes, ih]

/-- Before the tags a blank line is put in at most once, where prose stands before them and the
first of them has a type. -/
theorem composeNodes_afterProse (o : Options) (afterProse : Bool) (tags : List Tag) :
    composeNodes o afterProse false (tags.map .tag) =
      (if afterProse && tags.head?.any isTyped then [[]] else []) ++ tags.flatMap (tagLines o) := by
  cases tags with
  | nil => simp [composeNodes]
  | cons t tags => simp [composeNodes, composeNodes_tags, Bool.and_comm]

/-- Prose is written paragraph by paragraph, and only its last one counts for the line that parts it
from the tags. -/
theorem composeNodes_prose (o : Options) {prose : List Text} (h : ∀ l ∈ prose, '\n' ∉ l)
    (afterProse parted : Bool) (nodes : List Node) :
    composeNodes o afterProse parted (prose.map .prose ++ nodes) =
      prose.flatMap (fillParagraph o []) ++
        composeNodes o ((prose.getLast?.map (!allBlank ·)).getD afterProse) parted nodes := by
  induction prose generalizing afterProse with
  | nil => rfl
  | cons l prose ih =>
    obtain ⟨hl, hprose⟩ := List.forall_mem_cons.1 h
    rw [List.map_cons, List.cons_append, composeNodes, ih hprose, fill_of_lf_not_mem o [] hl,
      List.flatMap_cons, List.append_assoc, List.getLast?_cons]
    cases prose.getLast? <;> rfl

/-- The lines of prose and tags: the paragraphs, perhaps a blank line, and the tags, with blank
lines collapsed. -/
theorem compose_eq (o : Options) {prose : List Text} (h : ∀ l ∈ prose, '\n' ∉ l)
    (tags : List Tag) :
    compose o (prose.map .prose ++ tags.map .tag) =
      collapseBlank false (prose.flatMap (fillParagraph o []) ++ parting prose tags ++
        tags.flatMap (tagLines o)) := by
  have hlast : (prose.getLast?.map (!allBlank ·)).getD false = endsFull prose := by
    rw [endsFull]
    cases prose.getLast? <;> rfl
  rw [compose, composeNodes_prose o h, hlast, composeNodes_afterProse, ← List.append_assoc]
  rfl

/-! ## Composing again -/

/-- A block that is read back is read back as itself. -/
theorem ReadBack.fixed {o : Options} {b b' : Block} (h : ReadBack o b b') : ReadBack o b' b' :=
  ⟨h.again, h.again, rfl, id⟩

/-- A tag's lines begin with one that is not blank. -/
theorem ReadBack.head?_tagLines {o : Options} {b b' : Block} (h : ReadBack o b b') :
    ∀ l ∈ (tagLines o (readType b.tag)).head?, allBlank l = false := by
  intro l hl
  obtain ⟨ls, hls⟩ := List.head?_eq_some_iff.1 hl
  rw [← Bool.not_eq_true]
  intro hblank
  have hlines := h.lines
  rw [hls, collapseBlank_cons_blank hblank] at hlines
  obtain ⟨hhead, -⟩ := List.cons.inj hlines
  have hfull := b'.allBlank_head
  rw [← hhead] at hfull
  cases hfull

/-- The tags of blocks, with their types. -/
def tagsOf (blocks : List Block) : List Tag := blocks.map fun b => readType b.tag

/-- What prose and blocks are read as, before the types of the tags are read. -/
theorem nodes_of_bodyLines {comment : Text} {prose : List Text} {blocks : List Block}
    (hprose : ∀ l ∈ prose, Loose l)
    (h : bodyLines comment = prose ++ blocks.flatMap Block.lines) :
    nodes comment = prose.map .prose ++ (blocks.map Block.tag).map .tag := by
  rw [nodes, h, groupLines_blocks hprose]

/-- A comment with the lines of prose and blocks is read as that prose and these tags. -/
theorem parse_of_bodyLines {comment : Text} {prose : List Text} {blocks : List Block}
    (hprose : ∀ l ∈ prose, Loose l)
    (h : bodyLines comment = prose ++ blocks.flatMap Block.lines) :
    parse comment = prose.map .prose ++ (tagsOf blocks).map .tag := by
  rw [parse, nodes_of_bodyLines hprose h, tagsOf]
  simp [readNode, Function.comp_def]

/-- The lines of blocks that are read back, one block after the other. -/
theorem collapseBlank_tagsOf {o : Options} {blocks blocks' : List Block}
    (h : List.Forall₂ (ReadBack o) blocks blocks') :
    (∀ l ∈ ((tagsOf blocks).flatMap (tagLines o)).head?, allBlank l = false) ∧
      collapseBlank false ((tagsOf blocks).flatMap (tagLines o)) =
        blocks'.flatMap Block.lines := by
  induction h with
  | nil => exact ⟨by simp [tagsOf], rfl⟩
  | @cons b b' blocks blocks' hb _ ih =>
    obtain ⟨hhead, hlines⟩ := ih
    have hcons : (tagsOf (b :: blocks)).flatMap (tagLines o) =
        tagLines o (readType b.tag) ++ (tagsOf blocks).flatMap (tagLines o) := rfl
    rw [hcons, collapseBlank_append hhead, hb.lines, hlines]
    refine ⟨fun l hl => ?_, rfl⟩
    rw [List.head?_append] at hl
    cases hfirst : (tagLines o (readType b.tag)).head? with
    | none => exact hhead l (by simpa [hfirst] using hl)
    | some k => exact hb.head?_tagLines l (by simpa [hfirst] using hl)

/-- What prose before tags is composed to. -/
def proseLines (o : Options) (prose : List Text) (tags : List Tag) : List Text :=
  collapseBlank false (prose.flatMap (fillParagraph o []) ++ parting prose tags)

/-- The lines of prose and of blocks that are read back, each with its own lines. -/
theorem compose_blocks {o : Options} {prose : List Text} (hprose : ∀ l ∈ prose, Loose l)
    {blocks blocks' : List Block} (h : List.Forall₂ (ReadBack o) blocks blocks') :
    compose o (prose.map .prose ++ (tagsOf blocks).map .tag) =
      proseLines o prose (tagsOf blocks) ++ blocks'.flatMap Block.lines := by
  obtain ⟨hhead, hlines⟩ := collapseBlank_tagsOf h
  rw [compose_eq o fun l hl => (hprose l hl).lf_not_mem, collapseBlank_append hhead, hlines]
  rfl

/-- The lines of prose are such as filling makes. -/
theorem made_of_mem_proseLines {o : Options} {prose : List Text} (hprose : ∀ l ∈ prose, Loose l)
    (tags : List Tag) : ∀ l ∈ proseLines o prose tags, Made o l := by
  refine made_of_mem_collapseBlank (List.forall_mem_append.2 ⟨made_of_mem_flatMap hprose, ?_⟩) false
  intro l hl
  rw [parting] at hl
  split at hl
  · rw [List.mem_singleton.1 hl]
    exact made_nil o
  · cases hl

/-- Before a tag with a type the lines of prose end with a blank one. -/
theorem endsFull_proseLines {o : Options} {prose : List Text} (hprose : ∀ l ∈ prose, Loose l)
    {tags : List Tag} (htyped : tags.head?.any isTyped = true) :
    endsFull (proseLines o prose tags) = false := by
  have hlast : ∀ l ∈ (prose.flatMap (fillParagraph o []) ++ parting prose tags).getLast?,
      allBlank l = true := by
    intro l hl
    cases hfull : endsFull prose with
    | true =>
      rw [parting, hfull, htyped] at hl
      obtain rfl : [] = l := by simpa using hl
      rfl
    | false =>
      rw [parting, hfull, Bool.false_and, if_neg Bool.false_ne_true, List.append_nil] at hl
      cases prose using List.reverseRecOn with
      | nil => simp at hl
      | append_singleton prose last =>
        -- nothing is put in between, for the prose ends with a blank line already
        have hblank : allBlank last = true := by simpa [endsFull] using hfull
        have hnil : last = [] := by
          rw [← (hprose last (by simp)).trimmed, trimEnd_eq_nil_iff.2 hblank]
        have hfilled := filled_nil o
        rw [Filled] at hfilled
        rw [List.flatMap_append, List.flatMap_singleton, hnil, hfilled] at hl
        obtain rfl : [] = l := by simpa using hl
        rfl
  have hnil := getLast?_collapseBlank hlast false
  rw [endsFull, proseLines]
  cases hends : (collapseBlank false
    (prose.flatMap (fillParagraph o []) ++ parting prose tags)).getLast? with
  | none => rfl
  | some l => rw [hnil l hends]; rfl

/-- The lines of prose are composed to themselves, and the blank line at their end is not put in
again. -/
theorem proseLines_proseLines {o : Options} {prose : List Text} (hprose : ∀ l ∈ prose, Loose l)
    {tags tags' : List Tag} (h : tags'.head?.any isTyped = tags.head?.any isTyped) :
    proseLines o (proseLines o prose tags) tags' = proseLines o prose tags := by
  have hparting : parting (proseLines o prose tags) tags' = [] := by
    rw [parting, h]
    cases htyped : tags.head?.any isTyped with
    | true => simp [endsFull_proseLines hprose htyped]
    | false => simp
  have hfill : (proseLines o prose tags).flatMap (fillParagraph o []) = proseLines o prose tags :=
    flatMap_fillParagraph fun l hl => (made_of_mem_proseLines hprose tags l hl).filled
  rw [proseLines, hfill, hparting, List.append_nil, proseLines, collapseBlank_collapseBlank]

/-- Reading back keeps whether the first tag has a type. -/
theorem isTyped_head?_tagsOf {o : Options} {blocks blocks' : List Block}
    (h : List.Forall₂ (ReadBack o) blocks blocks') :
    (tagsOf blocks').head?.any isTyped = (tagsOf blocks).head?.any isTyped := by
  cases h with
  | nil => rfl
  | cons hb _ => exact hb.isTyped

/-- Blocks that are read back are read back as themselves. -/
theorem forall₂_fixed {o : Options} {blocks blocks' : List Block}
    (h : List.Forall₂ (ReadBack o) blocks blocks') : List.Forall₂ (ReadBack o) blocks' blocks' := by
  induction h with
  | nil => exact .nil
  | cons hb _ ih => exact .cons hb.fixed ih

/-- What a comment is composed to is composed to itself. -/
theorem compose_parse_eq_self {o : Options} {comment : Text} {prose : List Text}
    (hprose : ∀ l ∈ prose, Loose l) {blocks blocks' : List Block}
    (h : List.Forall₂ (ReadBack o) blocks blocks')
    (hlines : bodyLines comment =
      proseLines o prose (tagsOf blocks) ++ blocks'.flatMap Block.lines) :
    compose o (parse comment) =
      proseLines o prose (tagsOf blocks) ++ blocks'.flatMap Block.lines := by
  have hloose : ∀ l ∈ proseLines o prose (tagsOf blocks), Loose l :=
    fun l hl => (made_of_mem_proseLines hprose _ l hl).toLoose
  have hfixed := forall₂_fixed h
  rw [parse_of_bodyLines hloose hlines, compose_blocks hloose hfixed,
    proseLines_proseLines hprose (isTyped_head?_tagsOf h)]

/-! ## The first and the last line -/

/-- The composed lines begin with one that is not blank, if the prose does. -/
theorem head?_composed {o : Options} {prose : List Text} {tags : List Tag} {blocks : List Block}
    (h : ∀ l ∈ prose.head?, allBlank l = false) :
    ∀ l ∈ (proseLines o prose tags ++ blocks.flatMap Block.lines).head?, allBlank l = false := by
  have hblocks : ∀ l ∈ (blocks.flatMap Block.lines).head?, allBlank l = false :=
    head?_flatMap fun b _ l hl => by
      obtain rfl : b.head = l := by simpa [Block.lines] using hl
      exact b.allBlank_head
  cases prose with
  | nil => exact hblocks
  | cons first prose =>
    intro l hl
    have hfirst := allBlank_of_mem_fillParagraph (o := o) (h first rfl)
    obtain ⟨k, ks, hks⟩ := List.exists_cons_of_ne_nil (fillParagraph_ne_nil o [] first)
    rw [hks] at hfirst
    have hk := hfirst k List.mem_cons_self
    rw [proseLines, List.flatMap_cons, hks, List.cons_append, List.cons_append,
      collapseBlank_cons hk] at hl
    obtain rfl : k = l := by simpa using hl
    exact hk

/-- A block ends with a line that is not blank, if its further lines do; the first is never blank.
-/
theorem Block.getLast?_lines (b : Block) :
    (∀ l ∈ b.lines.getLast?, allBlank l = false) ↔ ∀ l ∈ b.rest.getLast?, allBlank l = false := by
  rw [Block.lines, List.getLast?_cons]
  cases b.rest.getLast? <;> simp [b.allBlank_head]

/-- Blocks end with a line that is not blank, and so do those that are read back for them. -/
theorem getLast?_blocks {o : Options} {blocks blocks' : List Block}
    (h : List.Forall₂ (ReadBack o) blocks blocks')
    (hlast : ∀ l ∈ (blocks.flatMap Block.lines).getLast?, allBlank l = false) :
    ∀ l ∈ (blocks'.flatMap Block.lines).getLast?, allBlank l = false := by
  induction h with
  | nil => simp
  | @cons b b' blocks blocks' hb hblocks ih =>
    intro l hl
    rcases mem_getLast?_append hl with hl | ⟨hnil, hlast'⟩
    · refine ih (fun k hk => hlast k ?_) l hl
      rw [List.flatMap_cons, List.getLast?_append, Option.mem_def.1 hk]
      rfl
    · -- the block is the last, here and there
      have hend : blocks' = [] := by
        cases blocks' with
        | nil => rfl
        | cons c blocks' => cases hnil
      subst hend
      cases hblocks
      rw [List.flatMap_singleton] at hlast
      exact b'.getLast?_lines.2 (hb.ends (b.getLast?_lines.1 hlast)) l hlast'

/-- The composed lines end with one that is not blank, if the comment did. -/
theorem getLast?_composed {o : Options} {prose : List Text} {blocks blocks' : List Block}
    (h : List.Forall₂ (ReadBack o) blocks blocks')
    (hlast : ∀ l ∈ (prose ++ blocks.flatMap Block.lines).getLast?, allBlank l = false) :
    ∀ l ∈ (proseLines o prose (tagsOf blocks) ++ blocks'.flatMap Block.lines).getLast?,
      allBlank l = false := by
  intro l hl
  rcases mem_getLast?_append hl with hl | ⟨hnil, hprose⟩
  · refine getLast?_blocks h (fun k hk => hlast k ?_) l hl
    rw [List.getLast?_append, Option.mem_def.1 hk]
    rfl
  · cases h with
    | nil =>
      rw [List.flatMap_nil, List.append_nil] at hlast
      have hparting : parting prose (tagsOf []) = [] := by simp [parting, tagsOf]
      rw [proseLines, hparting, List.append_nil] at hprose
      exact getLast?_collapseBlank_of_full (getLast?_flatMap_fillParagraph o hlast) false l hprose
    | cons => cases hnil

/-! ## Every block is read back -/

/-- Where each element of a row has a partner the rows can be paired. -/
theorem exists_forall₂ {α β : Type} {R : α → β → Prop} {l : List α} (h : ∀ a ∈ l, ∃ b, R a b) :
    ∃ l', List.Forall₂ R l l' := by
  induction l with
  | nil => exact ⟨[], .nil⟩
  | cons a l ih =>
    obtain ⟨⟨b, hb⟩, hl⟩ := List.forall_mem_cons.1 h
    obtain ⟨l', hl'⟩ := ih hl
    exact ⟨b :: l', .cons hb hl'⟩

/-- Every tag of a comment is read back, in the way in which it is written. -/
theorem exists_readBack {o : Options} (hexpand : o.expandNull = false)
    (hunit : ∀ c ∈ o.indentUnit, c = ' ' ∨ c = '\t') {b : Block}
    (hplain : PlainBlanks b.tag.description)
    (htyped : ∀ type, (readType b.tag).type = .typed type →
      type.Leaves (fun _ => True) ('\n' ∉ ·) ∧
        (trimStart (readType b.tag).description).head? ≠ some '{') : ∃ b', ReadBack o b b' := by
  rcases readType_cases b.tag with ⟨htitle, -⟩ | ⟨parsed, htitle, hparsed, hread⟩ |
    ⟨e, htitle, herror, -⟩
  · exact readBack_untyped o htitle
  · rw [hread] at htyped
    obtain ⟨hliterals, hbrace⟩ := htyped parsed.type rfl
    refine readBack_typed hexpand hunit hplain htitle hparsed hliterals ?_
    have hrest := handed_plainBlanks.part hplain (parse_rest_suffix hparsed).isInfix
    rw [Mark.Absent, skip_eq_trimStart hrest]
    rintro ⟨k, hk⟩
    rw [← hk] at hbrace
    exact hbrace rfl
  · exact readBack_failed o htitle herror

/-- The blocks of a comment of plain white space are read back, if no literal of a type is broken
and no description that follows a type begins with a brace. -/
theorem exists_forall₂_readBack {o : Options} (hexpand : o.expandNull = false)
    (hunit : ∀ c ∈ o.indentUnit, c = ' ' ∨ c = '\t') {comment : Text} (hplain : PlainBlanks comment)
    (htags : ∀ t type, .tag t ∈ parse comment → t.type = .typed type →
      type.Leaves (fun _ => True) ('\n' ∉ ·) ∧ (trimStart t.description).head? ≠ some '{')
    {prose : List Text} (hprose : ∀ l ∈ prose, Loose l) {blocks : List Block}
    (hlines : bodyLines comment = prose ++ blocks.flatMap Block.lines) :
    ∃ blocks', List.Forall₂ (ReadBack o) blocks blocks' := by
  refine exists_forall₂ fun b hb => exists_readBack hexpand hunit ?_ fun type => htags _ type ?_
  · have hnode : .tag b.tag ∈ nodes comment := by
      rw [nodes_of_bodyLines hprose hlines]
      exact List.mem_append_right _ (List.mem_map_of_mem (List.mem_map_of_mem hb))
    exact (nodes_has handed_plainBlanks
      (handed_plainBlanks.part hplain (inner_infix_self comment)) _ hnode).description
  · rw [parse_of_bodyLines hprose hlines]
    exact List.mem_append_right _ (List.mem_map_of_mem (List.mem_map_of_mem hb))

end Docblock.Comment
