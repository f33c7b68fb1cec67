import Docblock.Proofs.Comment.Filling
import Docblock.Proofs.Comment.Lines
import Docblock.Proofs.TypeExpr.Gaps

/-!
# Composing conserves what a comment says

What a comment says is its text without the white space (`Text.ink`). None of the steps from nodes
to lines changes that: the gaps of a type are blank at every wrap level (`ink_lines`), filling sets
the words of a text one after the other (`ink_fill`), the first word of a description leaves what
follows it (`ink_splitFirstWord`), and only blank lines collapse. So the lines of a comment say what
its nodes say, in their order (`ink_compose`).

White space is taken out as `Text.isBlank` knows it, so also where it parts words: the law says that
characters are kept in their order, not that words are kept apart. Where words end is told by the
laws about filling (`fill_wraps` in `Docblock.Proofs.Comment.Greedy`) and about types
(`Docblock.Proofs.TypeExpr.Conservation`). It holds of arbitrary nodes, whether or not they were
read from a comment, and of every indent unit of blanks.

What a type says is taken from its form on one line. That this is what the type said in the comment
is a law of reading and printing types, and not part of composing.
-/

namespace Docblock

namespace Text

/-- The text without its white space. -/
def ink (t : Text) : Text := t.filter (!isBlank ·)

@[simp] theorem ink_nil : ink [] = [] := rfl

/-- Texts put together say what each of them says. -/
@[simp] theorem ink_append (a b : Text) : ink (a ++ b) = ink a ++ ink b :=
  List.filter_append a b

theorem ink_cons_blank {c : Char} (hc : isBlank c = true) (t : Text) :
    ink (c :: t) = ink t := by simp [ink, hc]

@[simp] theorem ink_space_cons (t : Text) : ink (' ' :: t) = ink t :=
  ink_cons_blank (by decide) t

@[simp] theorem ink_lf_cons (t : Text) : ink ('\n' :: t) = ink t :=
  ink_cons_blank (by decide) t

/-- White space says nothing. -/
theorem ink_of_allBlank {t : Text} (h : allBlank t = true) : ink t = [] := by
  simpa [ink, allBlank_iff] using h

/-- What a text says has no white space to be taken out. -/
theorem ink_ink (t : Text) : ink (ink t) = ink t := by simp [ink]

/-- Dropping white space drops nothing that is said. -/
theorem ink_dropWhile {p : Char → Bool} (hp : ∀ c, p c = true → isBlank c = true) (t : Text) :
    ink (t.dropWhile p) = ink t := by
  have hfront : allBlank (t.takeWhile p) = true :=
    allBlank_iff.2 fun c hc => hp c (List.mem_takeWhile_imp hc)
  conv_rhs => rw [← List.takeWhile_append_dropWhile (p := p) (l := t)]
  rw [ink_append, ink_of_allBlank hfront, List.nil_append]

/-- Trimming takes nothing that is said. -/
@[simp] theorem ink_trimStart (t : Text) : ink (trimStart t) = ink t :=
  ink_dropWhile (fun _ => id) t

@[simp] theorem ink_trimEnd (t : Text) : ink (trimEnd t) = ink t := by
  have hreverse : trimEnd t = (t.reverse.dropWhile isBlank).reverse := rfl
  rw [hreverse, ink, List.filter_reverse]
  have hdrop := ink_dropWhile (fun _ => id) t.reverse
  rw [ink, ink, List.filter_reverse] at hdrop
  rw [hdrop, List.reverse_reverse, ink]

/-- The words of a text are what is left of it without white space. -/
theorem flatten_words (t : Text) : (words t).flatten = ink t := by
  induction t with
  | nil => rfl
  | cons c t ih =>
    cases hc : isBlank c with
    | true => rw [words_cons_blank hc, ih, ink_cons_blank hc]
    | false =>
      obtain ⟨first, rest, hsplit⟩ := List.exists_cons_of_ne_nil (List.splitOnP_ne_nil isBlank t)
      rw [words, hsplit] at ih
      rw [words, List.splitOnP_cons_eq_if_modifyHead, hsplit]
      have hink : ink (c :: t) = c :: ink t := by simp [ink, hc]
      rw [hink, ← ih]
      cases first <;> simp [hc]

/-- Joining lines adds nothing that is said. -/
theorem ink_unpieces (ls : List Text) : ink (unpieces ls) = ink ls.flatten := by
  cases ls with
  | nil => rfl
  | cons l ls =>
    rw [unpieces_cons]
    induction ls generalizing l with
    | nil => simp
    | cons next ls ih => simp_all

end Text

open Text

/-! ## Types -/

namespace Piece

/-- Pieces whose gaps are blank say the same at every wrap level. -/
theorem ink_flat {unit : Text} (hunit : ∀ c ∈ unit, isBlank c = true) {ps : List Piece}
    (h : ∀ p ∈ ps, p.Soft) (level : WrapLevel) :
    ink (flat level unit ps) = ps.flatMap fun
      | .word text => ink text
      | .gap .. => [] := by
  induction ps with
  | nil => rfl
  | cons p ps ih =>
    obtain ⟨hp, hps⟩ := List.forall_mem_cons.1 h
    cases p with
    | word text => simp [ih hps]
    | gap threshold depth inline =>
      have hindent : allBlank (List.replicate depth unit).flatten = true := by
        refine allBlank_iff.2 fun c hc => ?_
        obtain ⟨row, hrow, hc⟩ := List.mem_flatten.1 hc
        exact hunit c (List.eq_of_mem_replicate hrow ▸ hc)
      have hgap : ink (gapText level unit threshold depth inline) = [] := by
        unfold gapText
        split
        · rw [ink_lf_cons, ink_of_allBlank hindent]
        · exact ink_of_allBlank hp.2
      simp [ih hps, hgap]

end Piece

namespace TypeExpr

/-- The lines of a type say the same at every wrap level. -/
theorem ink_lines (t : TypeExpr) {o : Options} (hunit : ∀ c ∈ o.indentUnit, isBlank c = true)
    (level level' : WrapLevel) :
    ink (t.lines o level).flatten = ink (t.lines o level').flatten := by
  have hflat := Piece.ink_flat hunit (soft_pieces 0 (arrange o.expandNull t))
  rw [← ink_unpieces, ← ink_unpieces, unpieces_lines, unpieces_lines]
  exact (hflat level).trans (hflat level').symm

end TypeExpr

namespace Comment

/-! ## Filling -/

/-- Setting words says what the line and the words say. -/
theorem ink_fillWords (o : Options) (line : Text) (ws : List Text) :
    ink (fillWords o line ws).flatten = ink line ++ ink ws.flatten := by
  induction ws generalizing line with
  | nil => simp [fillWords]
  | cons word ws ih =>
    rw [fillWords]
    split
    · simp [ih]
    · have happend : ink (appendWord line word) = ink line ++ ink word := by
        unfold appendWord
        split <;> simp
      simp [ih, happend]

/-- A paragraph says what its seed and its words say. -/
theorem ink_fillParagraph (o : Options) (seed paragraph : Text) :
    ink (fillParagraph o seed paragraph).flatten = ink seed ++ ink paragraph := by
  have hstart : ink (if seed.isEmpty then paragraph.takeWhile isBlank else seed) = ink seed := by
    split
    · next hseed =>
      rw [ink_of_allBlank (allBlank_takeWhile _), List.isEmpty_iff.1 hseed, ink_nil]
    · rfl
  rw [fillParagraph, ink_fillWords, hstart, flatten_words, ink_ink]

/-- Filling sets the words of a text behind the seed, and nothing else. -/
theorem ink_fill (o : Options) (seed text : Text) :
    ink (fill o seed text).flatten = ink seed ++ ink text := by
  obtain ⟨first, rest, hpieces⟩ := exists_pieces_eq_cons text
  have hrest : ink (rest.flatMap (fillParagraph o [])).flatten = ink rest.flatten := by
    clear hpieces
    induction rest with
    | nil => rfl
    | cons paragraph rest ih => simp [ink_fillParagraph, ih]
  have htext : ink text = ink first ++ ink rest.flatten := by
    rw [← unpieces_pieces text, hpieces, ink_unpieces, List.flatten_cons, ink_append]
  rw [fill, hpieces]
  simp [ink_fillParagraph, hrest, htext]

/-! ## Tags -/

/-- The first word and the remainder say what the description says. -/
theorem ink_splitFirstWord (description : Text) :
    ink ((splitFirstWord description).1.getD []) ++ ink (splitFirstWord description).2 =
      ink description := by
  have hlines : ink (trimStart (description.takeWhile (· != '\n'))) ++
      ink (description.dropWhile (· != '\n')) = ink description := by
    rw [ink_trimStart, ← ink_append, List.takeWhile_append_dropWhile]
  simp only [splitFirstWord]
  split
  · have hblank (c : Char) (hc : (c == ' ' || c == '\t') = true) : isBlank c = true := by
      simp only [Bool.or_eq_true, beq_iff_eq] at hc
      rcases hc with rfl | rfl <;> decide
    simpa using ink_dropWhile hblank description
  · rw [← hlines]
    conv_rhs => rw [← firstWord_append_afterFirstWord
      (trimStart (description.takeWhile (· != '\n')))]
    simp

/-- A word behind a line is said after it. -/
theorem ink_withWord (line : Text) (word : Option Text) :
    ink (withWord line word) = ink line ++ ink (word.getD []) := by
  cases word <;> simp [withWord]

/-- The lines of a tag with a type say its name, its type and its description. -/
theorem ink_typedLines {o : Options} (hunit : ∀ c ∈ o.indentUnit, isBlank c = true)
    (name description : Text) (type : TypeExpr) :
    ink (typedLines o name description type).flatten =
      ink (name ++ (type.lines o .never).flatten ++ description) := by
  rw [typedLines_eq]
  dsimp only
  set level := chooseLevel o name type (splitFirstWord description).1
  set row := headRow o name type level
  have hne : row ≠ [] := headRow_ne_nil _ _ _ _
  have hrow : ink row.flatten = ink name ++ ink (type.lines o .never).flatten := by
    rw [type.ink_lines hunit .never level]
    simp [row, headRow, headLines, TypeExpr.lines]
  calc
    _ = ink (row.dropLast.flatten ++ row.getLast hne) ++
          (ink ((splitFirstWord description).1.getD []) ++
            ink (splitFirstWord description).2) := by
      simp only [List.flatten_append, ink_append, ink_fill, ink_withWord, List.append_assoc]
      rfl
    _ = ink row.flatten ++ ink description := by
      rw [ink_splitFirstWord]
      conv_rhs => rw [← List.dropLast_append_getLast hne]
      simp
    _ = _ := by simp [hrow]

/-- What a node says: a tag its name, its type on one line, and its description. -/
def content (o : Options) : Node → Text
  | .prose text => text
  | .tag ⟨name, description, .typed type⟩ =>
    name ++ (type.lines o .never).flatten ++ description
  | .tag t => t.name ++ t.description

/-- The lines of a tag say what the tag says, in each of the three ways in which a tag is written.
-/
theorem ink_tagLines {o : Options} (hunit : ∀ c ∈ o.indentUnit, isBlank c = true) (t : Tag) :
    ink (tagLines o t).flatten = ink (content o (.tag t)) := by
  obtain ⟨name, description, type⟩ := t
  cases type with
  | typed type => exact ink_typedLines hunit name description type
  | untyped => simp [tagLines, ink_fill, content, Tag.written]
  | failed e =>
    have htrim (ls : List Text) : ink (ls.map trimEnd).flatten = ink ls.flatten := by
      induction ls with
      | nil => rfl
      | cons l ls ih => simp [ih]
    rw [tagLines, verbatimLines, htrim, ← ink_unpieces, unpieces_pieces]
    simp [content, Tag.written]

/-! ## Composing -/

/-- The lines of nodes say what each node says, in their order; the parting line says nothing. -/
theorem ink_composeNodes {o : Options} (hunit : ∀ c ∈ o.indentUnit, isBlank c = true)
    (afterProse parted : Bool) (nodes : List Node) :
    ink (composeNodes o afterProse parted nodes).flatten =
      nodes.flatMap fun n => ink (content o n) := by
  induction nodes generalizing afterProse parted with
  | nil => rfl
  | cons n nodes ih =>
    cases n with
    | prose text => simp [composeNodes, ink_fill, ih, content]
    | tag t =>
      rw [composeNodes]
      split <;> simp [ink_tagLines hunit, ih]

/-- Collapsing takes nothing that is said. -/
theorem ink_collapseBlank (afterBlank : Bool) (ls : List Text) :
    ink (collapseBlank afterBlank ls).flatten = ink ls.flatten := by
  induction ls generalizing afterBlank with
  | nil => rfl
  | cons l ls ih =>
    cases hl : allBlank l with
    | true =>
      rw [collapseBlank_cons_blank hl]
      cases afterBlank <;> simp [ih, ink_of_allBlank hl]
    | false => simp [collapseBlank_cons hl, ih]

/-- The lines of a comment say what its nodes say, one after the other. -/
theorem ink_compose {o : Options} (hunit : ∀ c ∈ o.indentUnit, isBlank c = true)
    (nodes : List Node) :
    ink (compose o nodes).flatten = nodes.flatMap fun n => ink (content o n) := by
  rw [compose, ink_collapseBlank, ink_composeNodes hunit]

/-- A shape that breaks, with the description glued to its last line. -/
theorem ink_compose_shape :
    let o : Options := { printWidth := 16, tabWidth := 2, wrapText := true }
    let nullable : TypeExpr := .union [.named "int".toList, .named "null".toList]
    let shape : TypeExpr := .shape [.keyed (.named "a".toList) true nullable,
      .keyed (.named "b".toList) false (.named "c".toList)]
    let nodes : List Node := [.prose " Sum  of".toList,
      .tag ⟨"@var".toList, " $a  the first\n of".toList, .typed shape⟩,
      .tag ⟨"@see".toList, "x".toList, .untyped⟩]
    (∀ c ∈ o.indentUnit, isBlank c = true) ∧
      compose o nodes = [" Sum of", "", "@var array\x7b", "  a?: null | int,", "  b: c",
        "\x7d $a the first", " of", "@see x"].map String.toList ∧
      ink (compose o nodes).flatten =
        "Sumof@vararray\x7ba?:null|int,b:c\x7d$athefirstof@seex".toList := by
  intro o nullable shape nodes
  have hunit : ∀ c ∈ o.indentUnit, isBlank c = true := by decide
  exact ⟨hunit, by decide, (ink_compose hunit nodes).trans (by decide)⟩

end Comment

end Docblock
