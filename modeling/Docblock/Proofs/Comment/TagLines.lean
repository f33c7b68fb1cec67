import Docblock.Proofs.Comment.Composed

/-!
# The lines that begin a tag

When a comment is composed, its tags and nothing else begin a line with `@`. The lines of one tag
begin with its name, and no other of them begins with `@` (`OpensAlone`): the lines of the type hold
no name with an `@`, a word that begins with `@` never begins a line, and the other lines of a
description begin as they did. So the lines of a comment that begin with `@` are one for each tag,
in the same order (`format_tagLines`), and a comment that is read again has the same tags.

The indent unit is white space, so it holds no `@`, and nothing is asked of the comment: the law
holds of every text between delimiters, of types that could be read and of those that could not.
That names in types hold no `@` is a fact about the reader of types (`TypeLine`), and that filling
never breaks before one is its own rule. A description may hold words with `@` anywhere, and they
are no tags as long as they do not begin a line.
-/

namespace Docblock

open Text

/-- The tag of a node, if it is one. -/
def Node.tag? : Node → Option Tag
  | .prose _ => none
  | .tag t => some t

namespace Comment

/-! ## Lines -/

/-- Whether the line begins with `@`, behind white space or none. -/
def opensTag (line : Text) : Bool := (trimStart line).head? == some '@'

/-- The line begins with the name, and ends there or goes on with a space. -/
def HeadedBy (name line : Text) : Prop := ∃ k, line = name ++ k ∧ ∀ c ∈ k.head?, c = ' '

/-- The test and the property that filling keeps are the same. -/
theorem opensTag_eq_false_iff {line : Text} : opensTag line = false ↔ BeginsNoTag line := by
  simp [opensTag, BeginsNoTag]

/-- A blank line begins no tag. -/
theorem opensTag_of_allBlank {line : Text} (h : allBlank line = true) : opensTag line = false := by
  rw [opensTag, trimStart_eq_nil_iff.2 h]
  rfl

/-- Trimming a line makes no tag of it. -/
theorem beginsNoTag_trimEnd {line : Text} (h : BeginsNoTag line) : BeginsNoTag (trimEnd line) := by
  rw [← tagLine?_eq_none_iff_beginsNoTag, tagLine?_eq_none_iff_words] at h ⊢
  rwa [words_trimEnd]

namespace HeadedBy

variable {name line : Text}

/-- A line may go on with a space, if it goes on. -/
theorem append (h : HeadedBy name line) {s : Text} (hs : ∀ c ∈ s.head?, c = ' ') :
    HeadedBy name (line ++ s) := by
  obtain ⟨k, rfl, hk⟩ := h
  refine ⟨k ++ s, List.append_assoc _ _ _, fun c hc => ?_⟩
  cases k with
  | nil => exact hs c hc
  | cons d k => exact hk c hc

/-- A trimmed line is headed by the same name. -/
theorem trimEnd (hname : Unbroken name) (h : HeadedBy name line) :
    HeadedBy name (trimEnd line) := by
  obtain ⟨k, rfl, hk⟩ := h
  cases hblank : allBlank k with
  | true => exact ⟨[], by rw [trimEnd_append_of_allBlank _ hblank, hname.trimEnd_eq]; simp, by simp⟩
  | false =>
    refine ⟨Text.trimEnd k, trimEnd_append hblank, fun c hc => hk c ?_⟩
    obtain ⟨r, hr⟩ := trimEnd_prefix_self k
    rw [← hr, List.head?_append, Option.mem_def.1 hc]
    rfl

/-- A line that is headed by the name of a tag begins a tag. -/
theorem opensTag (hat : name.head? = some '@') (h : HeadedBy name line) :
    opensTag line = true := by
  obtain ⟨k, rfl, -⟩ := h
  have hhead : (name ++ k).head? = some '@' := by
    rw [List.head?_append, hat]
    rfl
  rw [Comment.opensTag, trimStart_eq_self (by rw [hhead]; decide), hhead]
  rfl

end HeadedBy

/-! ## The lines of a tag -/

/-- The first line begins with the name of a tag, and no other line begins a tag. -/
def OpensAlone (name : Text) (lines : List Text) : Prop :=
  ∃ first rest, lines = first :: rest ∧ HeadedBy name first ∧ ∀ l ∈ rest, BeginsNoTag l

/-- The last line may go on, and more lines may follow. -/
theorem OpensAlone.goesOn {name last : Text} {front : List Text}
    (h : OpensAlone name (front ++ [last])) (hname : Unbroken name) (hfull : allBlank last = false)
    {s : Text} (hs : ∀ c ∈ s.head?, c = ' ') {more : List Text}
    (hmore : ∀ l ∈ more, BeginsNoTag l) :
    OpensAlone name (front ++ trimEnd (last ++ s) :: more) := by
  obtain ⟨first, rest, hlines, hfirst, hrest⟩ := h
  cases front with
  | nil =>
    obtain ⟨rfl, -⟩ := List.cons.inj hlines
    exact ⟨_, more, rfl, (hfirst.append hs).trimEnd hname, hmore⟩
  | cons l front =>
    obtain ⟨rfl, rfl⟩ := List.cons.inj hlines
    obtain ⟨hfront, hlast⟩ := List.forall_mem_append.1 hrest
    rw [List.forall_mem_singleton] at hlast
    refine ⟨l, front ++ trimEnd (last ++ s) :: more, rfl, hfirst, ?_⟩
    refine List.forall_mem_append.2 ⟨hfront, List.forall_mem_cons.2 ⟨?_, hmore⟩⟩
    exact beginsNoTag_trimEnd (hlast.append_of_full hfull s)

/-- The lines of paragraphs begin no tag, and neither do those of words the first of which begins
none. -/
theorem beginsNoTag_of_mem_paragraphs {o : Options} {ws paragraphs : List Text}
    (hws : ∀ w ∈ ws, Unbroken w) (hat : ∀ w ∈ ws.head?, w.head? ≠ some '@')
    (h : ∀ p ∈ paragraphs, Loose p) :
    ∀ l ∈ fillRest o ws ++ paragraphs.flatMap (fillParagraph o []), BeginsNoTag l := by
  refine List.forall_mem_append.2 ⟨fun l hl => ?_, fun l hl => ?_⟩
  · exact (made_of_mem_fillRest hws hat l hl).beginsNoTag
  · exact (made_of_mem_flatMap h l hl).beginsNoTag

/-- A line with a word, or without one, as a line with a row of words. -/
theorem withWord_eq_append_spaced (line : Text) (word : Option Text) :
    withWord line word = line ++ spaced word.toList := by
  cases word <;> simp [withWord]

/-- A tag with its type begins with its name alone, if no line of the type begins a tag. -/
theorem opensAlone_typedLines {o : Options} {name : Text} (hname : Unbroken name) {type : TypeExpr}
    (htype : ∀ level, ∀ l ∈ type.lines o level, BeginsNoTag l) {description : Text}
    (hrest : ∀ p ∈ (pieces description).tail, Loose p) :
    OpensAlone name (typedLines o name description type) := by
  rw [typedLines_eq]
  set word := (splitFirstWord description).1
  set row := headRow o name type (chooseLevel o name type word) with hrow
  have hne : row ≠ [] := headRow_ne_nil _ _ _ _
  have hfull : allBlank (row.getLast hne) = false := allBlank_getLast_headRow o hname type _
  obtain ⟨first, rest, hpieces⟩ := exists_pieces_eq_cons (splitFirstWord description).2
  obtain ⟨us, vs, hsplit, hat, hfill⟩ := exists_fill_seed o (allBlank_withWord hfull word) hpieces
  have hvs : ∀ w ∈ vs, Unbroken w := fun w hw =>
    unbroken_of_mem_words (hsplit ▸ List.mem_append_right us hw)
  have hloose : ∀ p ∈ rest, Loose p := by
    have htail := tail_pieces_suffix (splitFirstWord_parts description).2
    rw [hpieces, List.tail_cons] at htail
    exact fun p hp => hrest p (htail.subset hp)
  have halone : OpensAlone name (row.dropLast ++ [row.getLast hne]) := by
    rw [List.dropLast_append_getLast hne]
    refine ⟨_, _, hrow, ⟨_, rfl, by simp⟩, fun l hl => ?_⟩
    exact htype _ l (List.mem_cons_of_mem _ hl)
  show OpensAlone name (row.dropLast ++ fill o (withWord (row.getLast hne) word) _)
  rw [hfill, withWord_eq_append_spaced, List.append_assoc, ← spaced_append]
  exact halone.goesOn hname hfull (eq_space_of_mem_head?_spaced _)
    (beginsNoTag_of_mem_paragraphs hvs hat hloose)

/-- The lines of one tag begin one tag. -/
theorem Block.opensAlone_tagLines {o : Options} (hunit : '@' ∉ o.indentUnit) (b : Block) :
    OpensAlone b.name (tagLines o (readType b.tag)) := by
  rcases readType_cases b.tag with ⟨-, hread⟩ | ⟨parsed, -, hparsed, hread⟩ | ⟨e, -, -, hread⟩
  · -- the words behind the name are filled in after it
    have hwords : ∀ w ∈ words b.description, Unbroken w := fun _ => unbroken_of_mem_words
    obtain ⟨us, vs, hsplit, -, hat, hfill⟩ :=
      exists_fillWords o b.unbroken.allBlank_eq_false hwords
    have hvs : ∀ w ∈ vs, Unbroken w := fun w hw => hwords w (hsplit ▸ List.mem_append_right us hw)
    have halone : OpensAlone b.name ([] ++ [b.name]) := ⟨b.name, [], rfl, ⟨[], by simp⟩, by simp⟩
    rw [hread]
    show OpensAlone b.name (fill o [] (b.name ++ ' ' :: unpieces (b.description :: b.rest)))
    rw [fill_name o b.unbroken b.lf_not_mem_description fun l hl => (b.loose l hl).lf_not_mem,
      hfill]
    exact halone.goesOn b.unbroken b.unbroken.allBlank_eq_false (eq_space_of_mem_head?_spaced us)
      (beginsNoTag_of_mem_paragraphs hvs hat b.loose)
  · rw [hread]
    refine opensAlone_typedLines b.unbroken (fun level => ?_) fun p hp => b.loose p ?_
    · exact beginsNoTag_of_mem_lines hparsed hunit level
    · have htail := tail_pieces_suffix (parse_rest_suffix hparsed)
      rw [b.tail_pieces_description] at htail
      exact htail.subset hp
  · rw [hread]
    show OpensAlone b.name ((pieces b.tag.written).map trimEnd)
    rw [b.pieces_written]
    refine ⟨_, _, rfl, HeadedBy.trimEnd b.unbroken ⟨_, rfl, by simp⟩, fun l hl => ?_⟩
    obtain ⟨k, hk, rfl⟩ := List.mem_map.1 hl
    exact beginsNoTag_trimEnd (b.loose k hk).beginsNoTag

/-! ## The lines of a comment -/

/-- Among lines that begin no tag there is none to be found. -/
theorem filter_opensTag_eq_nil {lines : List Text} (h : ∀ l ∈ lines, BeginsNoTag l) :
    lines.filter opensTag = [] := by
  rw [List.filter_eq_nil_iff]
  intro l hl
  rw [opensTag_eq_false_iff.2 (h l hl)]
  exact Bool.false_ne_true

/-- Of the lines of blocks, one for each block begins a tag. -/
theorem forall₂_opensTag_blocks {o : Options} (hunit : '@' ∉ o.indentUnit) (blocks : List Block) :
    List.Forall₂ (fun t line => HeadedBy t.name line) (blocks.map Block.tag)
      (((tagsOf blocks).flatMap (tagLines o)).filter opensTag) := by
  induction blocks with
  | nil => exact .nil
  | cons b blocks ih =>
    obtain ⟨first, rest, hlines, hfirst, hrest⟩ := b.opensAlone_tagLines hunit
    have hcons : (tagsOf (b :: blocks)).flatMap (tagLines o) =
        first :: (rest ++ (tagsOf blocks).flatMap (tagLines o)) := by
      rw [tagsOf, List.map_cons, List.flatMap_cons, hlines, List.cons_append]
      rfl
    rw [hcons, List.filter_cons_of_pos (hfirst.opensTag b.at_name), List.filter_append,
      filter_opensTag_eq_nil hrest, List.nil_append, List.map_cons]
    exact .cons hfirst ih

/-- The lines of a formatted comment that begin with `@` are one for each tag of the comment, in the
same order. Each begins with the name of its tag, and ends there or goes on with a space. -/
theorem format_tagLines {o : Options} (hunit : ∀ c ∈ o.indentUnit, isBlank c = true)
    (comment : Text) :
    List.Forall₂ (fun t line => HeadedBy t.name line) ((nodes comment).filterMap Node.tag?)
      ((format o comment).filter opensTag) := by
  obtain ⟨prose, blocks, hlines, hprose⟩ :=
    exists_blocks fun l (hl : l ∈ bodyLines comment) => trimmed_of_mem_bodyLines hl
  have htags : (nodes comment).filterMap Node.tag? = blocks.map Block.tag := by
    rw [nodes_of_bodyLines hprose hlines, List.filterMap_append, List.filterMap_map,
      List.filterMap_map]
    simp [Function.comp_def, Node.tag?]
  have hbefore : ∀ l ∈ prose.flatMap (fillParagraph o []) ++ parting prose (tagsOf blocks),
      BeginsNoTag l := by
    refine List.forall_mem_append.2 ⟨fun l hl => ?_, fun l hl => ?_⟩
    · exact (made_of_mem_flatMap hprose l hl).beginsNoTag
    · unfold parting at hl
      split at hl
      · rw [List.mem_singleton.1 hl]
        exact loose_nil.beginsNoTag
      · cases hl
  -- the lines in front of the first tag open none, and blank lines that are dropped open none
  -- either
  rw [htags, format, parse_of_bodyLines hprose hlines,
    compose_eq o fun l hl => (hprose l hl).lf_not_mem,
    filter_collapseBlank fun _ => opensTag_of_allBlank, List.filter_append,
    filter_opensTag_eq_nil hbefore, List.nil_append]
  exact forall₂_opensTag_blocks (fun hmem => absurd (hunit _ hmem) (by decide)) blocks

/-- Words that begin with `@` stand in the prose, behind a type and in a description, and none of
them begins a line. -/
theorem format_tagLines_param :
    let o : Options := { printWidth := 18, wrapText := true }
    let comment := ("/** Mail is sent to @all\n * @param array\x7bid: int\x7d @a of @all\n" ++
      " *   or @b\n * @internal */").toList
    (∀ c ∈ o.indentUnit, isBlank c = true) ∧
      format o comment = ["Mail is sent to @all", "", "@param array\x7b", "    id: int",
        "\x7d @a of @all", "  or @b", "@internal"].map String.toList ∧
      List.Forall₂ (fun t line => HeadedBy t.name line) ((nodes comment).filterMap Node.tag?)
        ((format o comment).filter opensTag) := by
  intro o comment
  have hunit : ∀ c ∈ o.indentUnit, isBlank c = true := by decide
  have hparse : parse comment = [.prose "Mail is sent to @all".toList,
      .tag ⟨"@param".toList, "@a of @all\n  or @b".toList,
        .typed (.shape [.keyed (.named "id".toList) false (.named "int".toList)])⟩,
      .tag ⟨"@internal".toList, [], .untyped⟩] := by
    with_unfolding_all rfl
  refine ⟨hunit, ?_, format_tagLines hunit comment⟩
  rw [format, hparse]
  decide

end Comment

end Docblock
