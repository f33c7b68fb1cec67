import Docblock.Proofs.Comment.Blocks
import Docblock.Proofs.TypeExpr.Gaps

/-!
# The lines that are composed for a comment

Something stands on the first and on the last line that is composed for a comment (`ends_compose`):
a tag begins with its name, and it ends with a word or with the last line of its type. A line is
broken again only inside a literal (`lf_not_mem_compose`), since everything else that is written on
a line comes from one line of the comment.

Blank lines at the ends of a comment would be dropped when it is read again, so a comment that began
or ended with one would have fewer lines the second time. Lines that are broken again would lack the
margin. Both are therefore facts about every comment and every set of options, and the laws about
written comments start from them (`Docblock.Proofs.DocComment.Rereading`,
`Docblock.Proofs.Comment.BlankLines`).

The indent unit has to be white space, and without a line feed in it for the second of the two.
-/

namespace Docblock.Comment

open Text

/-! ## Filling -/

/-- A text fills at least one line. -/
theorem fill_ne_nil (o : Options) (seed text : Text) : fill o seed text ≠ [] := by
  obtain ⟨first, rest, hpieces⟩ := exists_pieces_eq_cons text
  rw [fill_of_pieces o seed hpieces]
  exact List.append_ne_nil_of_left_ne_nil (fillParagraph_ne_nil o seed first) _

/-- A text whose first paragraph is nowhere blank begins with a line that is not blank, and ends
with one if its last paragraph does or it has only one. -/
theorem ends_fill {o : Options} {seed text first : Text} {rest : List Text}
    (hpieces : pieces text = first :: rest)
    (hfirst : ∀ l ∈ fillParagraph o seed first, allBlank l = false) :
    (∀ l ∈ (fill o seed text).head?, allBlank l = false) ∧
      ((∀ p ∈ rest.getLast?, allBlank p = false) →
        ∀ l ∈ (fill o seed text).getLast?, allBlank l = false) := by
  rw [fill_of_pieces o seed hpieces]
  constructor
  · intro l hl
    rw [List.head?_append_of_ne_nil _ (fillParagraph_ne_nil o seed first)] at hl
    exact hfirst l (List.mem_of_mem_head? hl)
  · intro hrest l hl
    rcases mem_getLast?_append hl with hl | ⟨-, hl⟩
    · exact getLast?_flatMap_fillParagraph o hrest l hl
    · exact hfirst l (List.mem_of_getLast? hl)

/-- A line that says something does so with a word behind it. -/
theorem allBlank_withWord {line : Text} (h : allBlank line = false) (word : Option Text) :
    allBlank (withWord line word) = false := by
  cases word with
  | none => exact h
  | some w =>
    show allBlank (line ++ ' ' :: w) = false
    rw [allBlank_append, h, Bool.false_and]

/-! ## Tags with a type -/

/-- A tag's name stands on the first line of its type. -/
theorem head?_headRow (o : Options) {name : Text} (hname : Unbroken name) (type : TypeExpr)
    (level : WrapLevel) : ∀ l ∈ (headRow o name type level).head?, allBlank l = false := by
  intro l hl
  obtain rfl : name ++ ' ' :: (type.render o level).1 = l := Option.some.inj hl
  rw [allBlank_append, hname.allBlank_eq_false, Bool.false_and]

/-- The last line of a type holds a part of it. -/
theorem allBlank_getLast_headRow (o : Options) {name : Text} (hname : Unbroken name)
    (type : TypeExpr) (level : WrapLevel) :
    allBlank ((headRow o name type level).getLast (headRow_ne_nil _ _ _ _)) = false := by
  have hlast : ∀ l ∈ (headRow o name type level).getLast?, allBlank l = false := by
    intro l hl
    rcases mem_getLast?_cons hl with hl | ⟨-, rfl⟩
    · have hanchored := TypeExpr.anchored_pieces 0 (TypeExpr.arrange o.expandNull type)
      exact Piece.getLast?_render hanchored l hl
    · exact head?_headRow o hname type level _ rfl
  exact hlast _ (List.getLast?_eq_some_getLast _)

/-- The lines of a tag with its type begin with its name, and end with something if the last line of
the description does. -/
theorem ends_typedLines {o : Options} {name : Text} (hname : Unbroken name) (type : TypeExpr)
    (description : Text) :
    (∀ l ∈ (typedLines o name description type).head?, allBlank l = false) ∧
      ((∀ p ∈ (pieces description).tail.getLast?, allBlank p = false) →
        ∀ l ∈ (typedLines o name description type).getLast?, allBlank l = false) := by
  rw [typedLines_eq]
  dsimp only
  set level := chooseLevel o name type (splitFirstWord description).1
  obtain ⟨first, rest, hpieces⟩ := exists_pieces_eq_cons (splitFirstWord description).2
  have hseed := allBlank_withWord (allBlank_getLast_headRow o hname type level)
    (splitFirstWord description).1
  obtain ⟨hhead, hlast⟩ :=
    ends_fill hpieces (allBlank_of_mem_fillParagraph_of_seed (o := o) hseed first)
  constructor
  · intro l hl
    rw [List.head?_append] at hl
    -- the first line is that of the type, unless the type has one line only, which is then filled
    cases hrow : (headRow o name type level).dropLast.head? with
    | none => exact hhead l (by simpa [hrow] using hl)
    | some k =>
      obtain rfl : k = l := by simpa [hrow] using hl
      apply head?_headRow o hname type level
      rw [List.head?_dropLast] at hrow
      split at hrow
      · exact hrow
      · cases hrow
  · intro h l hl
    rcases mem_getLast?_append hl with hl | ⟨hnil, -⟩
    · refine hlast (fun p hp => h p ?_) l hl
      have htail := tail_pieces_suffix (splitFirstWord_parts description).2
      rw [hpieces, List.tail_cons] at htail
      exact mem_getLast?_of_suffix htail hp
    · exact absurd hnil (fill_ne_nil o _ _)

/-! ## Tags -/

namespace Block

variable (o : Options) (b : Block)

/-- The tag as it is written, line by line. -/
theorem pieces_written : pieces b.tag.written = (b.name ++ ' ' :: b.description) :: b.rest := by
  have hlines : ∀ l ∈ (b.name ++ ' ' :: b.description) :: b.rest, '\n' ∉ l := by
    refine List.forall_mem_cons.2 ⟨?_, fun l hl => (b.loose l hl).lf_not_mem⟩
    simp [b.unbroken.lf_not_mem, b.lf_not_mem_description]
  have hwritten : b.tag.written = unpieces ((b.name ++ ' ' :: b.description) :: b.rest) :=
    name_append_unpieces b.name b.description b.rest
  rw [hwritten, pieces_unpieces (List.cons_ne_nil _ _) hlines]

/-- The description of a tag, line by line. -/
theorem pieces_description : pieces b.tag.description = b.description :: b.rest := by
  have hlines : ∀ l ∈ b.description :: b.rest, '\n' ∉ l :=
    List.forall_mem_cons.2 ⟨b.lf_not_mem_description, fun l hl => (b.loose l hl).lf_not_mem⟩
  exact pieces_unpieces (List.cons_ne_nil _ _) hlines

/-- The further lines of a description are those of its block. -/
theorem tail_pieces_description : (pieces b.tag.description).tail = b.rest := by
  rw [b.pieces_description, List.tail_cons]

/-- A tag says its name, if nothing else. -/
theorem allBlank_written : allBlank (b.name ++ ' ' :: b.description) = false := by
  rw [allBlank_append, b.unbroken.allBlank_eq_false, Bool.false_and]

/-- Every tag has a line. -/
theorem tagLines_ne_nil : tagLines o (readType b.tag) ≠ [] := by
  rcases readType_cases b.tag with ⟨-, hread⟩ | ⟨parsed, -, -, hread⟩ | ⟨e, -, -, hread⟩
  · rw [hread]
    exact fill_ne_nil o [] b.tag.written
  · rw [hread]
    show typedLines o b.name parsed.rest parsed.type ≠ []
    rw [typedLines_eq]
    exact List.append_ne_nil_of_right_ne_nil _ (fill_ne_nil o _ _)
  · rw [hread]
    show (pieces b.tag.written).map trimEnd ≠ []
    rw [b.pieces_written, List.map_cons]
    exact List.cons_ne_nil _ _

/-- The lines of a tag begin with its name, and end with something if its own last line does. -/
theorem ends_tagLines :
    (∀ l ∈ (tagLines o (readType b.tag)).head?, allBlank l = false) ∧
      ((∀ l ∈ b.rest.getLast?, allBlank l = false) →
        ∀ l ∈ (tagLines o (readType b.tag)).getLast?, allBlank l = false) := by
  have hpieces := b.pieces_written
  rcases readType_cases b.tag with ⟨-, hread⟩ | ⟨parsed, -, hparsed, hread⟩ | ⟨e, -, -, hread⟩
  · rw [hread]
    exact ends_fill hpieces (allBlank_of_mem_fillParagraph b.allBlank_written)
  · rw [hread]
    obtain ⟨hhead, hlast⟩ := ends_typedLines (o := o) b.unbroken parsed.type parsed.rest
    refine ⟨hhead, fun h => hlast fun p hp => h p ?_⟩
    have htail := tail_pieces_suffix (parse_rest_suffix hparsed)
    rw [b.tail_pieces_description] at htail
    exact mem_getLast?_of_suffix htail hp
  · rw [hread]
    show (∀ l ∈ ((pieces b.tag.written).map trimEnd).head?, allBlank l = false) ∧
      (_ → ∀ l ∈ ((pieces b.tag.written).map trimEnd).getLast?, allBlank l = false)
    rw [hpieces, List.head?_map, List.getLast?_map]
    constructor
    · intro l hl
      obtain ⟨k, hk, rfl⟩ := Option.map_eq_some_iff.1 hl
      obtain rfl := Option.some.inj hk
      rw [allBlank_trimEnd, b.allBlank_written]
    · intro h l hl
      obtain ⟨k, hk, rfl⟩ := Option.map_eq_some_iff.1 hl
      rw [allBlank_trimEnd]
      rcases mem_getLast?_cons hk with hk | ⟨-, rfl⟩
      · exact h k hk
      · exact b.allBlank_written

end Block

/-! ## Comments -/

/-- What is read of a comment: prose, and the tags of its blocks. -/
theorem exists_parse_eq (comment : Text) : ∃ (prose : List Text) (blocks : List Block),
    bodyLines comment = prose ++ blocks.flatMap Block.lines ∧ (∀ l ∈ prose, Loose l) ∧
      parse comment = prose.map .prose ++ (tagsOf blocks).map .tag := by
  obtain ⟨prose, blocks, hlines, hprose⟩ :=
    exists_blocks fun l (hl : l ∈ bodyLines comment) => trimmed_of_mem_bodyLines hl
  exact ⟨prose, blocks, hlines, hprose, parse_of_bodyLines hprose hlines⟩

/-- Lines that begin with one that is not blank still do. -/
theorem head?_collapseBlank {ls : List Text} (h : ∀ l ∈ ls.head?, allBlank l = false)
    (afterBlank : Bool) : (collapseBlank afterBlank ls).head? = ls.head? := by
  cases ls with
  | nil => rfl
  | cons l ls => rw [collapseBlank_cons (h l rfl), List.head?_cons, List.head?_cons]

/-- Something stands on the first and on the last line that is composed for a comment. -/
theorem ends_compose (o : Options) (comment : Text) :
    (∀ l ∈ (compose o (parse comment)).head?, allBlank l = false) ∧
      ∀ l ∈ (compose o (parse comment)).getLast?, allBlank l = false := by
  obtain ⟨prose, blocks, hlines, hprose, hparse⟩ := exists_parse_eq comment
  obtain ⟨hfirst, hlast⟩ := allBlank_ends_bodyLines comment
  rw [hlines] at hfirst hlast
  rw [hparse, compose_eq o fun l hl => (hprose l hl).lf_not_mem]
  constructor
  · have hhead : ∀ l ∈ (prose.flatMap (fillParagraph o []) ++ parting prose (tagsOf blocks) ++
        (tagsOf blocks).flatMap (tagLines o)).head?, allBlank l = false := by
      cases prose with
      | nil =>
        refine head?_flatMap fun t ht => ?_
        obtain ⟨b, -, rfl⟩ := List.mem_map.1 ht
        exact (b.ends_tagLines o).1
      | cons first prose =>
        have hfull := allBlank_of_mem_fillParagraph (o := o) (hfirst first rfl)
        intro l hl
        rw [List.flatMap_cons, List.append_assoc, List.append_assoc,
          List.head?_append_of_ne_nil _ (fillParagraph_ne_nil o [] first)] at hl
        exact hfull l (List.mem_of_mem_head? hl)
    rw [head?_collapseBlank hhead]
    exact hhead
  · apply getLast?_collapseBlank_of_full
    cases blocks using List.reverseRecOn with
    | nil =>
      have hparting : parting prose (tagsOf []) = [] := by simp [parting, tagsOf]
      rw [hparting, List.append_nil]
      rw [List.flatMap_nil, List.append_nil] at hlast
      simpa [tagsOf] using getLast?_flatMap_fillParagraph o hlast
    | append_singleton blocks b =>
      have hrest : ∀ l ∈ b.rest.getLast?, allBlank l = false := by
        refine fun l hl => hlast l (mem_getLast?_of_suffix ?_ hl)
        rw [List.flatMap_append, List.flatMap_singleton, Block.lines]
        exact ⟨prose ++ (blocks.flatMap Block.lines ++ [b.head]), by simp⟩
      intro l hl
      have htags : (tagsOf (blocks ++ [b])).flatMap (tagLines o) =
          (tagsOf blocks).flatMap (tagLines o) ++ tagLines o (readType b.tag) := by
        simp [tagsOf]
      rw [htags, ← List.append_assoc] at hl
      rcases mem_getLast?_append hl with hl | ⟨hnil, -⟩
      · exact (b.ends_tagLines o).2 hrest l hl
      · exact absurd hnil (b.tagLines_ne_nil o)

/-! ## Line feeds -/

/-- The lines of a tag with a type are not broken again, if those of the type are not. -/
theorem lf_not_mem_typedLines {o : Options} {name : Text} (hname : '\n' ∉ name) {type : TypeExpr}
    (htype : ∀ level, ∀ l ∈ type.lines o level, '\n' ∉ l) (description : Text) :
    ∀ l ∈ typedLines o name description type, '\n' ∉ l := by
  set level := chooseLevel o name type (splitFirstWord description).1
  have hrow : ∀ l ∈ headRow o name type level, '\n' ∉ l := by
    obtain ⟨hfirst, hrest⟩ := List.forall_mem_cons.1 (htype level)
    refine List.forall_mem_cons.2 ⟨fun hmem => ?_, hrest⟩
    rcases List.mem_append.1 hmem with hmem | hmem
    · exact hname hmem
    · exact hfirst ((List.mem_cons.1 hmem).resolve_left (by decide))
  rw [typedLines_eq]
  refine List.forall_mem_append.2 ⟨fun l hl => hrow l (List.dropLast_subset _ hl), ?_⟩
  apply lf_not_mem_fill
  have hlast := hrow _ (List.getLast_mem (headRow_ne_nil o name type level))
  cases hword : (splitFirstWord description).1 with
  | none => simpa [withWord, level, hword] using hlast
  | some word =>
    have hplain := (unbroken_splitFirstWord hword).lf_not_mem
    simpa [withWord, hplain, level, hword] using hlast

/-- The literals of the types of a comment are in one piece. -/
def WholeLiterals (comment : Text) : Prop :=
  ∀ t type, .tag t ∈ parse comment → t.type = .typed type →
    type.Leaves (fun _ => True) ('\n' ∉ ·)

/-- The lines of a tag are not broken again, if the literals in its type are in one piece. -/
theorem Block.lf_not_mem_tagLines {o : Options} (hunit : '\n' ∉ o.indentUnit) (b : Block)
    (hliterals : ∀ type, (readType b.tag).type = .typed type →
      type.Leaves (fun _ => True) ('\n' ∉ ·)) :
    ∀ l ∈ tagLines o (readType b.tag), '\n' ∉ l := by
  rcases readType_cases b.tag with ⟨-, hread⟩ | ⟨parsed, -, hparsed, hread⟩ | ⟨e, -, -, hread⟩
  · rw [hread]
    exact lf_not_mem_fill o List.not_mem_nil b.tag.written
  · rw [hread] at hliterals ⊢
    exact lf_not_mem_typedLines b.unbroken.lf_not_mem
      (lf_not_mem_of_mem_lines hparsed (hliterals parsed.type rfl) hunit) parsed.rest
  · rw [hread]
    intro l hl
    obtain ⟨piece, hpiece, rfl⟩ := List.mem_map.1 hl
    exact fun hmem => lf_not_mem_of_mem_pieces hpiece ((trimEnd_prefix_self piece).subset hmem)

/-- No line that is composed for a comment is broken again, if its literals are in one piece. -/
theorem lf_not_mem_compose {o : Options} (hunit : '\n' ∉ o.indentUnit) {comment : Text}
    (hliterals : WholeLiterals comment) : ∀ l ∈ compose o (parse comment), '\n' ∉ l := by
  obtain ⟨prose, blocks, -, hprose, hparse⟩ := exists_parse_eq comment
  rw [hparse, compose_eq o fun l hl => (hprose l hl).lf_not_mem]
  intro l hl
  rcases mem_of_mem_collapseBlank hl with rfl | hl
  · exact List.not_mem_nil
  rcases List.mem_append.1 hl with hl | hl
  · rcases List.mem_append.1 hl with hl | hl
    · exact (made_of_mem_flatMap hprose l hl).lf_not_mem
    · unfold parting at hl
      split at hl
      · exact List.mem_singleton.1 hl ▸ List.not_mem_nil
      · cases hl
  · obtain ⟨t, ht, hl⟩ := List.mem_flatMap.1 hl
    obtain ⟨b, -, rfl⟩ := List.mem_map.1 ht
    refine b.lf_not_mem_tagLines hunit (fun type htype => hliterals _ type ?_ htype) l hl
    rw [hparse]
    exact List.mem_append_right _ (List.mem_map_of_mem ht)

/-- A comment on one line has one line at most. -/
theorem length_bodyLines_le_one {comment : Text} (h : '\n' ∉ comment) :
    (bodyLines comment).length ≤ 1 := by
  have hinner : '\n' ∉ inner comment := fun hmem => h ((inner_infix_self comment).subset hmem)
  have hlines : (Text.lines (inner comment)).length ≤ 1 := by
    rw [Text.lines, pieces_of_lf_not_mem hinner, linesOfPieces]
    split <;> simp
  calc (bodyLines comment).length
      ≤ (((Text.lines (inner comment)).map bodyLine).dropWhile allBlank).length := by
        rw [bodyLines, dropEndWhile_eq_rdropWhile]
        exact (List.rdropWhile_prefix _ _).length_le
    _ ≤ ((Text.lines (inner comment)).map bodyLine).length := List.length_dropWhile_le _ _
    _ ≤ 1 := by rwa [List.length_map]

/-- In a comment on one line no literal is broken. -/
theorem wholeLiterals_of_lf_not_mem {comment : Text} (h : '\n' ∉ comment) :
    WholeLiterals comment := by
  obtain ⟨prose, blocks, hlines, -, hparse⟩ := exists_parse_eq comment
  intro t type ht htype
  rw [hparse] at ht
  obtain ⟨b, hb, rfl⟩ : ∃ b ∈ blocks, readType b.tag = t := by
    simpa [tagsOf] using ht
  have hrest : b.rest = [] := by
    have hlength := length_bodyLines_le_one h
    have hsublist : b.lines.length ≤ (bodyLines comment).length := by
      obtain ⟨front, back, hblocks⟩ := List.append_of_mem hb
      rw [hlines, hblocks, List.flatMap_append, List.flatMap_cons]
      simp only [List.length_append]
      omega
    rw [Block.lines, List.length_cons] at hsublist
    exact List.eq_nil_of_length_eq_zero (by omega)
  have hdescription : '\n' ∉ b.tag.description := by
    show '\n' ∉ unpieces (b.description :: b.rest)
    rw [hrest]
    simpa [unpieces] using b.lf_not_mem_description
  rcases readType_cases b.tag with ⟨-, hread⟩ | ⟨parsed, -, hparsed, hread⟩ | ⟨e, -, -, hread⟩
  · rw [hread] at htype
    cases htype
  · rw [hread] at htype
    obtain rfl := TagType.typed.inj htype
    exact leaves_of_lf_not_mem hparsed hdescription
  · rw [hread] at htype
    cases htype

end Docblock.Comment
