import Docblock.Proofs.Comment.Filling
import Docblock.Proofs.Comment.Lines
import Docblock.Proofs.TypeExpr.Neat
import Docblock.Proofs.TypeExpr.Respacing

/-!
# A tag is read back from its lines

The lines of a tag, read again, make a tag that has the same lines (`ReadBack`). There are three
reasons, one for each way in which a tag is written. Words that filling has set are set again as
they are. A tag that is kept as it was written changes by blank lines alone, which no type can be
read from. And a type is read back from its lines as the arranged tree, because the rest of the
description goes on behind it as it did before.

A block is what the lines of one tag are before they are grouped, with the facts about them that
grouping needs as fields; so the tag of a block is a tag that grouping would give, and to show that
lines are read as a tag is to give a block with these lines. The block that is read back is not the
old one. It has the old name, since nothing changes a name, and new lines (`Block.rewrite`).

The third way of writing a tag is the subject of `Docblock.Proofs.Comment.TypedTags`.
-/

namespace Docblock.Comment

open Text

/-- The lines of a tag: the line that begins it, and those up to the next tag. -/
structure Block where
  head : Text
  name : Text
  /-- What stands behind the name on the first line. -/
  description : Text
  rest : List Text
  tagLine? : tagLine? head = some (name, description)
  trimmed : trimEnd head = head
  lf_not_mem : '\n' ∉ head
  loose : ∀ l ∈ rest, Loose l

namespace Block

/-- The lines of the block, from the first. -/
def lines (b : Block) : List Text := b.head :: b.rest

/-- The tag that the lines are grouped to. -/
def tag (b : Block) : Tag := { name := b.name, description := unpieces (b.description :: b.rest) }

/-- The line that begins a block begins with `@`, but for white space. -/
theorem head?_trim_head (b : Block) : (trim b.head).head? = some '@' :=
  (tagLine?_eq_some_iff.1 b.tagLine?).1

/-- The name is the first word of that line. -/
theorem name_eq (b : Block) : b.name = firstWord (trim b.head) :=
  (tagLine?_eq_some_iff.1 b.tagLine?).2.1

/-- The description is what the line has behind its name. -/
theorem description_eq (b : Block) :
    b.description = trimStart (afterFirstWord (trim b.head)) :=
  (tagLine?_eq_some_iff.1 b.tagLine?).2.2

/-- The line that begins a block is not blank. -/
theorem allBlank_head (b : Block) : allBlank b.head = false := by
  rw [Bool.eq_false_iff]
  intro hblank
  have hat := b.head?_trim_head
  rw [head?_trim, words_of_allBlank hblank] at hat
  cases hat

/-- The lines of a block are trimmed and in one piece. -/
theorem trimmed_of_mem (b : Block) : ∀ l ∈ b.lines, trimEnd l = l ∧ '\n' ∉ l :=
  List.forall_mem_cons.2 ⟨⟨b.trimmed, b.lf_not_mem⟩,
    fun l hl => ⟨(b.loose l hl).trimmed, (b.loose l hl).lf_not_mem⟩⟩

/-- A name is a word. -/
theorem unbroken (b : Block) : Unbroken b.name := by
  obtain ⟨r, hr⟩ := List.head?_eq_some_iff.1 b.head?_trim_head
  have hfull : allBlank (trim b.head) = false := by
    rw [hr, allBlank_cons]
    rfl
  have hstart : trimStart (trim b.head) = trim b.head :=
    trimStart_eq_self (by rw [b.head?_trim_head]; decide)
  rw [b.name_eq, ← hstart]
  exact unbroken_firstWord hfull

/-- A name begins with `@`. -/
theorem at_name (b : Block) : b.name.head? = some '@' := by
  obtain ⟨c, r, hr⟩ := List.exists_cons_of_ne_nil b.unbroken.ne_nil
  have hat := b.head?_trim_head
  rw [← firstWord_append_afterFirstWord (trim b.head), ← b.name_eq, hr] at hat
  rw [hr]
  exact hat

/-- The description stands at the end of the line. -/
theorem description_suffix (b : Block) : b.description <:+ trim b.head := by
  rw [b.description_eq]
  exact (trimStart_suffix _).trans (afterFirstWord_suffix _)

/-- The description is trimmed, as its line is. -/
theorem trimmed_description (b : Block) : trimEnd b.description = b.description :=
  trimEnd_eq_self_of_suffix (trimEnd_trimEnd _) b.description_suffix

/-- The description begins with no white space. -/
theorem head?_description (b : Block) : ∀ c ∈ b.description.head?, isBlank c = false := by
  rw [b.description_eq]
  exact head?_trimStart _

/-- The description of the first line is in one piece. -/
theorem lf_not_mem_description (b : Block) : '\n' ∉ b.description := fun hmem =>
  b.lf_not_mem ((trim_infix_self b.head).subset (b.description_suffix.subset hmem))

end Block

/-- The lines of a block are composed to those of another, and these to themselves. -/
structure ReadBack (o : Options) (b b' : Block) : Prop where
  lines : collapseBlank false (tagLines o (readType b.tag)) = b'.lines
  again : collapseBlank false (tagLines o (readType b'.tag)) = b'.lines
  isTyped : isTyped (readType b'.tag) = isTyped (readType b.tag)
  ends : (∀ l ∈ b.rest.getLast?, allBlank l = false) →
    ∀ l ∈ b'.rest.getLast?, allBlank l = false

/-- Collapsing leaves lines that filling could have made. -/
theorem made_of_mem_collapseBlank {o : Options} {lines : List Text} (h : ∀ l ∈ lines, Made o l)
    (afterBlank : Bool) : ∀ l ∈ collapseBlank afterBlank lines, Made o l := by
  intro l hl
  rcases mem_of_mem_collapseBlank hl with rfl | hl
  · exact made_nil o
  · exact h l hl

/-- A line that begins with a name is a tag of that name. -/
theorem tagLine?_append {name k : Text} (hname : Unbroken name) (hat : name.head? = some '@')
    (hk : ∀ c ∈ k.head?, isBlank c = true) (htrim : trimEnd (name ++ k) = name ++ k) :
    tagLine? (name ++ k) = some (name, trimStart k) := by
  have hhead : (name ++ k).head? = some '@' := by
    rw [List.head?_append, hat]
    rfl
  have hword : trim (name ++ k) = name ++ k := by
    rw [trim, trimStart_eq_self, htrim]
    rw [hhead]
    decide
  have hletters : ∀ c ∈ name, (!isBlank c) = true := fun c hc => by simp [hname.not_isBlank c hc]
  have hend : k.takeWhile (!isBlank ·) = [] ∧ k.dropWhile (!isBlank ·) = k := by
    cases k with
    | nil => simp
    | cons c k => simp [hk c rfl]
  rw [tagLine?_eq_some_iff, hword, hhead, firstWord, afterFirstWord,
    List.takeWhile_append_of_pos hletters, List.dropWhile_append_of_pos hletters, hend.1, hend.2]
  simp

section Rewrite

variable (b : Block) {k description : Text} {rest : List Text}
  (hk : ∀ c ∈ k.head?, isBlank c = true) (htrim : trimEnd (b.name ++ k) = b.name ++ k)
  (hlf : '\n' ∉ k) (hdescription : trimStart k = description) (hrest : ∀ l ∈ rest, Loose l)

/-- The block with another text behind its name, and with other lines. -/
def Block.rewrite : Block where
  head := b.name ++ k
  name := b.name
  description := description
  rest := rest
  tagLine? := hdescription ▸ tagLine?_append b.unbroken b.at_name hk htrim
  trimmed := htrim
  lf_not_mem := by simp [b.unbroken.lf_not_mem, hlf]
  loose := hrest

/-- The lines of a rewritten block are the name with what was put behind it, and the lines it was
given. -/
theorem Block.lines_rewrite :
    (b.rewrite hk htrim hlf hdescription hrest).lines = (b.name ++ k) :: rest := rfl

/-- The tag of a rewritten block keeps its name and takes its description from the new lines. -/
theorem Block.tag_rewrite : (b.rewrite hk htrim hlf hdescription hrest).tag =
    { name := b.name, description := unpieces (description :: rest) } := rfl

end Rewrite

/-- A name in front of joined lines is in front of the first of them. -/
theorem name_append_unpieces (name first : Text) (rest : List Text) :
    name ++ ' ' :: unpieces (first :: rest) = unpieces ((name ++ ' ' :: first) :: rest) := by
  have happend := unpieces_cons_append (name ++ [' ']) first rest
  simpa using happend.symm

/-! ## Tags without a type -/

/-- A paragraph that begins with a name is the name with the words filled in behind it. -/
theorem fillParagraph_name (o : Options) {name : Text} (hname : Unbroken name) (text : Text) :
    fillParagraph o [] (name ++ ' ' :: text) = fillWords o name (words text) := by
  have hstart : (name ++ ' ' :: text).takeWhile isBlank = [] := by
    cases name with
    | nil => exact absurd rfl hname.ne_nil
    | cons c name => simp [hname.not_isBlank c List.mem_cons_self]
  rw [fillParagraph_nil, hstart, words_append_blank (by decide), words_unbroken hname,
    List.singleton_append, fillWords, breaksBefore_of_allBlank allBlank_nil]
  rfl

/-- The lines of a tag that is filled like prose. -/
theorem fill_name (o : Options) {name : Text} (hname : Unbroken name) {first : Text}
    {rest : List Text} (hfirst : '\n' ∉ first) (hrest : ∀ l ∈ rest, '\n' ∉ l) :
    fill o [] (name ++ ' ' :: unpieces (first :: rest)) =
      fillWords o name (words first) ++ rest.flatMap (fillParagraph o []) := by
  have hlf : '\n' ∉ name ++ ' ' :: first := by simp [hname.lf_not_mem, hfirst]
  rw [name_append_unpieces, fill_unpieces o [] hlf hrest, fillParagraph_name o hname]

/-- A tag that takes no type is read back. Its words are filled as prose is, and the words that went
with the name the first time do so again. -/
theorem readBack_untyped (o : Options) {b : Block} (htitle : b.tag.title ∉ Tag.typedTitles) :
    ∃ b', ReadBack o b b' := by
  have hplain (description : Text) : readType { name := b.name, description } =
      { name := b.name, description } := if_neg htitle
  have hfirstWords : ∀ w ∈ words b.description, Unbroken w := fun _ => unbroken_of_mem_words
  -- the words `us` stand behind the name without a break, and `vs` begin a line of their own
  obtain ⟨us, vs, hsplit, hruns, hhead, hfill⟩ :=
    exists_fillWords o b.unbroken.allBlank_eq_false hfirstWords
  obtain ⟨husWords, hvsWords⟩ := List.forall_mem_append.1 (hsplit ▸ hfirstWords)
  set paragraphs := fillRest o vs ++ b.rest.flatMap (fillParagraph o [])
  have hmade : ∀ l ∈ collapseBlank false paragraphs, Made o l :=
    made_of_mem_collapseBlank (List.forall_mem_append.2
      ⟨made_of_mem_fillRest hvsWords hhead, made_of_mem_flatMap b.loose⟩) false
  have hfull : allBlank (b.name ++ spaced us) = false := by simp [b.unbroken.allBlank_eq_false]
  have htrim : trimEnd (b.name ++ spaced us) = b.name ++ spaced us :=
    trimEnd_append_spaced b.unbroken.trimEnd_eq husWords
  have hcollapse := collapseBlank_cons hfull false paragraphs
  have hbegins : ∀ c ∈ (spaced us).head?, isBlank c = true := by
    cases us <;> simp [isBlank]
  refine ⟨b.rewrite hbegins htrim (lf_not_mem_spaced husWords) rfl
    fun l hl => (hmade l hl).toLoose, ?_, ?_, ?_, ?_⟩
  · rw [Block.tag, hplain, tagLines]
    simp only [Tag.written]
    rw [fill_name o b.unbroken b.lf_not_mem_description fun l hl => (b.loose l hl).lf_not_mem,
      hfill, htrim]
    exact hcollapse
  · have hwords : words (trimStart (spaced us)) = us := words_trimStart_spaced husWords
    have hstart : '\n' ∉ trimStart (spaced us) :=
      fun hmem => lf_not_mem_spaced husWords ((trimStart_suffix _).subset hmem)
    rw [Block.tag_rewrite, hplain, tagLines]
    simp only [Tag.written]
    rw [fill_name o b.unbroken hstart fun l hl => (hmade l hl).lf_not_mem, hwords,
      hruns.fillWords_eq, htrim, flatMap_fillParagraph fun l hl => (hmade l hl).filled,
      List.singleton_append, ← hcollapse, collapseBlank_collapseBlank, hcollapse,
      Block.lines_rewrite]
  · rw [Block.tag_rewrite, Block.tag, hplain, hplain]
    rfl
  · exact fun hlast =>
      getLast?_collapseBlank_of_full (getLast?_paragraphs o hvsWords hlast) false

/-! ## Tags that are kept as they are written -/

/-- A line is not squeezed, only the line feeds around it. -/
theorem squeeze_lf_append {l : Text} (hne : l ≠ []) (hlf : '\n' ∉ l) (r : Text) :
    squeeze ('\n' :: (l ++ r)) = '\n' :: (l ++ squeeze r) := by
  obtain ⟨c, k, rfl⟩ := List.exists_cons_of_ne_nil hne
  have hc : c ≠ '\n' := by
    rintro rfl
    exact hlf List.mem_cons_self
  rw [squeeze_lf_cons, List.cons_append, List.dropWhile_cons_of_neg (by simpa using hc),
    ← List.cons_append, squeeze_append hlf]

/-- Lines are alike to what they collapse to. -/
theorem alike_collapseBlank {ls : List Text} (h : ∀ l ∈ ls, trimEnd l = l ∧ '\n' ∉ l) :
    Alike (ls.flatMap ('\n' :: ·)) ((collapseBlank false ls).flatMap ('\n' :: ·)) ∧
      Alike ('\n' :: ls.flatMap ('\n' :: ·))
        ('\n' :: (collapseBlank true ls).flatMap ('\n' :: ·)) := by
  induction ls with
  | nil => exact ⟨rfl, rfl⟩
  | cons l ls ih =>
    obtain ⟨⟨htrim, hlf⟩, hls⟩ := List.forall_mem_cons.1 h
    obtain ⟨hfalse, htrue⟩ := ih hls
    have hfeed (s : Text) : squeeze ('\n' :: '\n' :: s) = squeeze ('\n' :: s) := by
      rw [squeeze, if_pos (by simp)]
    -- a blank line adds a line feed to a run of them, which squeezing takes out again
    cases hblank : allBlank l with
    | true =>
      obtain rfl : l = [] := by rw [← htrim, trimEnd_eq_nil_iff.2 hblank]
      refine ⟨htrue, ?_⟩
      rw [List.flatMap_cons, collapseBlank_cons_blank hblank, Alike]
      exact (hfeed _).trans htrue
    | false =>
      have hcons : Alike ('\n' :: (l ++ ls.flatMap ('\n' :: ·)))
          ('\n' :: (l ++ (collapseBlank false ls).flatMap ('\n' :: ·))) := by
        have hne := ne_nil_of_allBlank_eq_false hblank
        rw [Alike, squeeze_lf_append hne hlf, squeeze_lf_append hne hlf, hfalse]
      rw [collapseBlank_cons hblank, collapseBlank_cons hblank]
      refine ⟨hcons, ?_⟩
      rw [Alike, List.flatMap_cons, List.flatMap_cons]
      exact (hfeed _).trans (hcons.trans (hfeed _).symm)

/-- What stands behind the name when the first line is written and trimmed. -/
theorem Block.exists_trimEnd_eq (b : Block) :
    ∃ k, trimEnd (b.name ++ ' ' :: b.description) = b.name ++ k ∧
      trimStart k = b.description ∧ ∀ c ∈ k.head?, isBlank c = true := by
  by_cases hempty : b.description = []
  · rw [hempty]
    refine ⟨[], ?_, rfl, by simp⟩
    rw [trimEnd_append_of_allBlank _ (by decide), b.unbroken.trimEnd_eq, List.append_nil]
  · have hwords := allBlank_eq_false_of_trimEnd b.trimmed_description hempty
    have hfull : allBlank (' ' :: b.description) = false := by simp [allBlank_cons, hwords]
    have hspaced : trimEnd (' ' :: b.description) = ' ' :: b.description := by
      have happend := trimEnd_append (a := [' ']) hwords
      rwa [b.trimmed_description] at happend
    refine ⟨' ' :: b.description, by rw [trimEnd_append hfull, hspaced], ?_, by simp [isBlank]⟩
    rw [trimStart, List.dropWhile_cons_of_pos (by decide)]
    exact trimStart_eq_self b.head?_description

/-- A tag whose type cannot be read is read back. It changes by blank lines alone, and the reader
fails on the text with fewer of them as it does on the old one. -/
theorem readBack_failed (o : Options) {b : Block} (htitle : b.tag.title ∈ Tag.typedTitles)
    {e : ParseError} (herror : TypeExpr.parse b.tag.name b.tag.description = .error e) :
    ∃ b', ReadBack o b b' := by
  have hloose : ∀ l ∈ collapseBlank false b.rest, Loose l := by
    intro l hl
    rcases mem_of_mem_collapseBlank hl with rfl | hl
    · exact loose_nil
    · exact b.loose l hl
  -- each blank line that is dropped is one line feed in a run of several
  have halike : Alike (unpieces (b.description :: b.rest))
      (unpieces (b.description :: collapseBlank false b.rest)) := by
    rw [unpieces_cons, unpieces_cons, Alike, squeeze_append b.lf_not_mem_description,
      squeeze_append b.lf_not_mem_description]
    exact congrArg (b.description ++ ·) (alike_collapseBlank fun l hl =>
      ⟨(b.loose l hl).trimmed, (b.loose l hl).lf_not_mem⟩).1
  obtain ⟨e', herror'⟩ := TypeExpr.parse_error_of_alike halike herror
  obtain ⟨k, hk, hkfirst, hkblank⟩ := b.exists_trimEnd_eq
  have hlines (rest : List Text) (hrest : ∀ l ∈ rest, Loose l) :
      (pieces (b.name ++ ' ' :: unpieces (b.description :: rest))).map trimEnd =
        (b.name ++ k) :: rest := by
    have hlf : ∀ l ∈ (b.name ++ ' ' :: b.description) :: rest, '\n' ∉ l := by
      refine List.forall_mem_cons.2 ⟨?_, fun l hl => (hrest l hl).lf_not_mem⟩
      simp [b.unbroken.lf_not_mem, b.lf_not_mem_description]
    have hrest' : rest.map trimEnd = rest := by
      conv_rhs => rw [← List.map_id rest]
      exact List.map_congr_left fun l hl => (hrest l hl).trimmed
    rw [name_append_unpieces, pieces_unpieces (by simp) hlf, List.map_cons, hk, hrest']
  have htrim : trimEnd (b.name ++ k) = b.name ++ k := by rw [← hk, trimEnd_trimEnd]
  have hcollapse := collapseBlank_cons (l := b.name ++ k)
    (by simp [b.unbroken.allBlank_eq_false]) false b.rest
  have hlf : '\n' ∉ k := by
    intro hmem
    have hwhole := (trimEnd_prefix_self _).subset (hk ▸ List.mem_append_right b.name hmem)
    simp [b.unbroken.lf_not_mem, b.lf_not_mem_description] at hwhole
  have hread := readType_of_error htitle herror
  have hread' := readType_of_error (t := (b.rewrite hkblank htrim hlf hkfirst hloose).tag) htitle
    herror'
  refine ⟨b.rewrite hkblank htrim hlf hkfirst hloose, ?_, ?_, ?_,
    fun hlast => getLast?_collapseBlank_of_full hlast false⟩
  · rw [hread]
    show collapseBlank false ((pieces (b.name ++ ' ' :: unpieces _)).map trimEnd) = _
    rw [hlines _ b.loose, hcollapse, Block.lines_rewrite]
  · rw [hread', Block.tag_rewrite]
    show collapseBlank false ((pieces (b.name ++ ' ' :: unpieces _)).map trimEnd) = _
    rw [hlines _ hloose, ← hcollapse, collapseBlank_collapseBlank, hcollapse, Block.lines_rewrite]
  · rw [hread', hread]
    rfl

end Docblock.Comment
