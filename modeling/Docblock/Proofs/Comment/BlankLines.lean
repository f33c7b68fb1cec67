import Mathlib.Data.List.Chain
import Docblock.Proofs.Comment.TagLines

/-!
# The blank lines of a formatted comment

A formatted comment has lines if there are any between its delimiters, and no line too many: none is
blank at either end, and no two blank lines stand one below the other (`WellSpaced`). Where prose
stands before a tag with a type, and no other tag does, a blank line parts the two. These are the
parts of `format_wellSpaced`.

The blank lines come from four places: from prose, from descriptions, from tags that are kept as
they were written, and from the parting line itself. Since they collapse only when all lines have
been put together, the first two facts are about collapsing alone. The parting line is the last of
the lines that prose is composed to, and nothing collapses across it, since the line of the tag that
follows is not blank. Blank lines between tags are those of the comment; none is put in there, and
that none is missing is not claimed.
-/

namespace Docblock.Comment

open Text

/-! ## Collapsing -/

/-- Collapsing leaves nothing of nothing only. -/
theorem collapseBlank_eq_nil_iff {ls : List Text} : collapseBlank false ls = [] ↔ ls = [] := by
  constructor
  · exact fun h => Classical.not_not.1 fun hne => collapseBlank_ne_nil hne h
  · rintro rfl
    rfl

/-- Of two lines one below the other, one at least is not blank. -/
def Apart (a b : Text) : Prop := allBlank a = true → allBlank b = false

/-- Behind a blank line no other is left, neither within the lines nor before the first. -/
theorem isChain_collapseBlank (afterBlank : Bool) (ls : List Text) :
    (collapseBlank afterBlank ls).IsChain Apart ∧
      (afterBlank = true → ∀ l ∈ (collapseBlank afterBlank ls).head?, allBlank l = false) := by
  induction ls generalizing afterBlank with
  | nil => exact ⟨.nil, fun _ l hl => nomatch hl⟩
  | cons line ls ih =>
    cases hline : allBlank line with
    | true =>
      obtain ⟨hchain, hhead⟩ := ih true
      rw [collapseBlank_cons_blank hline]
      cases afterBlank with
      | true => exact ⟨hchain, hhead⟩
      | false => exact ⟨List.isChain_cons.2 ⟨fun l hl _ => hhead rfl l hl, hchain⟩, nofun⟩
    | false =>
      obtain ⟨hchain, -⟩ := ih false
      rw [collapseBlank_cons hline]
      refine ⟨List.isChain_cons.2 ⟨fun l _ hblank => ?_, hchain⟩, fun _ l hl => ?_⟩
      · rw [hline] at hblank
        cases hblank
      · obtain rfl := Option.some.inj hl
        exact hline

/-- Lines without a blank one at either end, and without two blank ones that adjoin. -/
structure WellSpaced (lines : List Text) : Prop where
  first : ∀ l ∈ lines.head?, allBlank l = false
  last : ∀ l ∈ lines.getLast?, allBlank l = false
  apart : lines.IsChain Apart

/-- The lines of a formatted comment are well spaced. -/
theorem wellSpaced_format (o : Options) (comment : Text) : WellSpaced (format o comment) where
  first := (ends_compose o comment).1
  last := (ends_compose o comment).2
  apart := (isChain_collapseBlank false _).1

/-! ## Comments without lines -/

/-- A comment has lines if it is read as any. -/
theorem format_eq_nil_iff (o : Options) (comment : Text) :
    format o comment = [] ↔ bodyLines comment = [] := by
  obtain ⟨prose, blocks, hlines, hprose, hparse⟩ := exists_parse_eq comment
  rw [format, hparse, compose_eq o fun l hl => (hprose l hl).lf_not_mem, collapseBlank_eq_nil_iff,
    hlines]
  simp only [List.append_eq_nil_iff, List.flatMap_eq_nil_iff]
  constructor
  · rintro ⟨⟨hfill, -⟩, htags⟩
    refine ⟨List.eq_nil_iff_forall_not_mem.2 fun l hl => ?_, fun b hb => ?_⟩
    · exact fillParagraph_ne_nil o [] l (hfill l hl)
    · exact absurd (htags _ (List.mem_map_of_mem hb)) (b.tagLines_ne_nil o)
  · rintro ⟨rfl, hblocks⟩
    have hempty : blocks = [] :=
      List.eq_nil_iff_forall_not_mem.2 fun b hb => List.cons_ne_nil _ _ (hblocks b hb)
    subst hempty
    exact ⟨⟨List.forall_mem_nil _, rfl⟩, List.forall_mem_nil _⟩

/-! ## Prose before a tag with a type -/

/-- Prose before a first tag with a type is composed to lines that begin no tag, and to a blank line
behind them. -/
theorem exists_proseLines_eq (o : Options) {prose : List Text} (hprose : ∀ l ∈ prose, Loose l)
    (hne : prose ≠ []) {tags : List Tag} (htyped : tags.head?.any isTyped = true) :
    ∃ before, proseLines o prose tags = before ++ [[]] ∧ ∀ l ∈ before, BeginsNoTag l := by
  have hmade := made_of_mem_proseLines (o := o) hprose tags
  obtain ⟨first, rest, rfl⟩ := List.exists_cons_of_ne_nil hne
  have hlines : proseLines o (first :: rest) tags ≠ [] := by
    rw [proseLines, ne_eq, collapseBlank_eq_nil_iff, List.flatMap_cons, List.append_assoc]
    exact List.append_ne_nil_of_left_ne_nil (fillParagraph_ne_nil o [] first) _
  have hend := endsFull_proseLines (o := o) hprose htyped
  rw [endsFull, List.getLast?_eq_some_getLast hlines, Option.any_some, Bool.not_eq_false'] at hend
  have hlast : (proseLines o (first :: rest) tags).getLast hlines = [] := by
    rw [← (hmade _ (List.getLast_mem hlines)).trimmed, trimEnd_eq_nil_iff.2 hend]
  refine ⟨_, ?_, fun l hl => (hmade l (List.dropLast_subset _ hl)).beginsNoTag⟩
  rw [← hlast, List.dropLast_append_getLast hlines]

/-- Prose and tags are told apart in a row of nodes. -/
theorem prose_append_tag_inj {prose prose' : List Text} {t : Tag} {tags : List Tag}
    {rest : List Node}
    (h : prose.map Node.prose ++ .tag t :: rest = prose'.map .prose ++ tags.map .tag) :
    prose = prose' ∧ ∃ ts, tags = t :: ts := by
  induction prose generalizing prose' with
  | nil =>
    cases prose' with
    | nil =>
      cases tags with
      | nil => cases h
      | cons u ts =>
        obtain ⟨rfl, -⟩ : t = u ∧ _ := by simpa using h
        exact ⟨rfl, ts, rfl⟩
    | cons => cases h
  | cons l prose ih =>
    cases prose' with
    | nil => cases tags <;> cases h
    | cons l' prose' =>
      obtain ⟨hl, hrest⟩ := List.cons.inj h
      obtain ⟨rfl, htags⟩ := ih hrest
      exact ⟨congrArg (· :: prose) (Node.prose.inj hl), htags⟩

/-- A formatted comment is empty just if no line stands between the delimiters of the comment. No
line at its ends is blank, and no two blank lines adjoin. If prose stands before the first tag and
that tag has a type, the line before the first line of the tag is blank; the first line of the tag
is the first one that begins with `@`. -/
theorem format_wellSpaced {o : Options} (hunit : ∀ c ∈ o.indentUnit, isBlank c = true)
    (comment : Text) :
    (format o comment = [] ↔ bodyLines comment = []) ∧ WellSpaced (format o comment) ∧
      ∀ prose t rest, parse comment = prose.map .prose ++ .tag t :: rest → prose ≠ [] →
        isTyped t = true →
        ∃ before first after, format o comment = before ++ [] :: first :: after ∧
          first ∈ (tagLines o t).head? ∧ HeadedBy t.name first ∧
          ∀ l ∈ before, opensTag l = false := by
  refine ⟨format_eq_nil_iff o comment, wellSpaced_format o comment, ?_⟩
  intro prose t rest hnodes hne htyped
  obtain ⟨prose', blocks, -, hprose, hparse⟩ := exists_parse_eq comment
  rw [hparse] at hnodes
  obtain ⟨rfl, ts, htags⟩ := prose_append_tag_inj hnodes.symm
  obtain ⟨b, blocks, rfl⟩ : ∃ b bs, blocks = b :: bs := by
    refine List.exists_cons_of_ne_nil ?_
    rintro rfl
    cases htags
  obtain ⟨rfl, rfl⟩ := List.cons.inj htags
  have hat : '@' ∉ o.indentUnit := fun hmem => absurd (hunit _ hmem) (by decide)
  obtain ⟨first, more, hlines, hfirst, -⟩ := b.opensAlone_tagLines hat
  have hname : (readType b.tag).name = b.name := by
    rcases readType_cases b.tag with ⟨-, h⟩ | ⟨_, -, -, h⟩ | ⟨_, -, -, h⟩ <;> rw [h] <;> rfl
  have hfull : allBlank first = false := (b.ends_tagLines o).1 first (by rw [hlines]; rfl)
  have hhead : (tagsOf (b :: blocks)).head?.any isTyped = true := htyped
  -- the prose ends with the blank line that parts it from a tag with a type
  obtain ⟨before, hbefore, hnotag⟩ := exists_proseLines_eq o hprose hne hhead
  set after := more ++ (tagsOf blocks).flatMap (tagLines o)
  have htag : (tagsOf (b :: blocks)).flatMap (tagLines o) = first :: after := by
    rw [tagsOf, List.map_cons, List.flatMap_cons, hlines]
    rfl
  refine ⟨before, first, collapseBlank false after, ?_, by rw [hlines]; rfl, hname ▸ hfirst,
    fun l hl => opensTag_eq_false_iff.2 (hnotag l hl)⟩
  rw [format, hparse, compose_eq o fun l hl => (hprose l hl).lf_not_mem, htag,
    collapseBlank_append (by simpa using hfull), collapseBlank_cons hfull]
  show proseLines o prose (tagsOf (b :: blocks)) ++ _ = _
  rw [hbefore, List.append_assoc]
  rfl

/-- Blank lines at both ends, within prose and between tags, and none before the first tag. -/
theorem format_wellSpaced_param :
    let o : Options := {}
    let comment := ("/**\n *\n * Sum\n *\n *\n * of all.\n * @param ?int $a\n *   or none\n" ++
      " *\n *\n * @return int\n *\n */").toList
    let t : Tag := { name := "@param".toList
                     description := "$a\n  or none\n\n".toList
                     type := .typed (.nullable (.named "int".toList)) }
    (∀ c ∈ o.indentUnit, isBlank c = true) ∧ isTyped t = true ∧
      format o comment = ["Sum", "", "of all.", "", "@param ?int $a", "  or none", "",
        "@return int"].map String.toList ∧
      WellSpaced (format o comment) ∧
      ∃ before first after, format o comment = before ++ [] :: first :: after ∧
        first ∈ (tagLines o t).head? ∧ HeadedBy t.name first ∧
        ∀ l ∈ before, opensTag l = false := by
  intro o comment t
  have hunit : ∀ c ∈ o.indentUnit, isBlank c = true := by decide
  have hparse : parse comment = (["Sum", "", "", "of all."].map String.toList).map .prose ++
      .tag t :: [.tag ⟨"@return".toList, [], .typed (.named "int".toList)⟩] := by
    with_unfolding_all rfl
  obtain ⟨-, hspaced, hparted⟩ := format_wellSpaced hunit comment
  refine ⟨hunit, rfl, ?_, hspaced, hparted _ t _ hparse (List.cons_ne_nil _ _) rfl⟩
  rw [format, hparse]
  decide

end Docblock.Comment
