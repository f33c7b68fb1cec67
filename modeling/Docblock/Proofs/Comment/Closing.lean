import Docblock.Proofs.Comment.Filling
import Docblock.Proofs.Comment.Lines
import Docblock.Proofs.DocComment.Margin
import Docblock.Proofs.Source.Relexing

/-!
# A comment written anew closes where it ends

Nothing that is composed from the nodes of a comment closes it: words and lines are parts of the old
comment, a type is its names and literals between marks without a slash, and all that layout puts
between them is white space. With its margin and its delimiters the comment closes at its end and
nowhere before (`DocComment.format_isDocComment`).

A closing mark could form in two ways: in a text that comes from the comment, and at a border where
the printer puts two texts together. The first cannot be, since the old comment ended at its first
closing mark; the texts of nodes are stretches of it (`Docblock.Proofs.Comment.Reading`), and so are
names and literals in types. For the second, spaces stand at all borders that matter. Neither the
width nor the level at which a type is set plays a part, so the law holds of all options whose
indent unit is white space.
-/

namespace Docblock

namespace Text

/-- What does not close a comment passes to all that is cut out of it. -/
theorem noClose_handed : Handed NoClose where
  part := NoClose.part
  unpieces := by
    intro ls h
    induction ls with
    | nil => exact noClose_nil
    | cons l ls ih =>
      obtain ⟨hl, hls⟩ := List.forall_mem_cons.1 h
      cases ls with
      | nil => simpa [unpieces] using hl
      | cons next ls =>
        have hrest := (ih hls).cons (by decide : '\n' ≠ '*')
        simpa [unpieces] using hl.append hrest (by simp)

end Text

open Text

/-! ## Types -/

/-- The lines of a type that was read off a text without a closing mark have none either. -/
theorem noClose_lines {location text : Text} {parsed : TypeExpr.Parsed}
    (hparsed : TypeExpr.parse location text = .ok parsed) (htext : NoClose text) {o : Options}
    (hunit : ∀ c ∈ o.indentUnit, isBlank c = true) (level : WrapLevel) :
    ∀ line ∈ parsed.type.lines o level, NoClose line := by
  obtain ⟨r, hreads, -⟩ := parse_eq_ok_iff.1 hparsed
  have hleaves : parsed.type.Leaves ('/' ∉ ·) (· <:+: text) :=
    (hreads.leaves (fun _ hw _ => hw.not_mem (by decide) (by decide))
      (fun _ hw _ => hw.not_mem (by decide) (by decide)) (List.suffix_refl text)).2
  have hpieces : ∀ p ∈ (TypeExpr.arrange o.expandNull parsed.type).pieces 0, p.Each Clean := by
    refine (hleaves.arrange (by decide)).pieces (fun w hw _ _ => clean_of_not_mem hw)
      (fun w hw => ⟨clean_of_not_mem hw, clean_of_not_mem (by simpa using hw)⟩) ?_ 0
    intro quote body hbody
    have hquote : Clean [quote.char] := clean_of_not_mem (by cases quote <;> decide)
    have hfront : NoClose ([quote.char] ++ body) :=
      hquote.noClose.append_of_getLast? (htext.part hbody) (by cases quote <;> decide)
    refine ⟨hfront.append hquote.noClose hquote.head?, ?_⟩
    cases quote <;> simp [Quote.char]
  obtain ⟨hfirst, hrest⟩ := Piece.each_render .nil (fun _ _ => Clean.append)
    (clean_of_allBlank hunit) hpieces
  exact List.forall_mem_cons.2 ⟨hfirst.noClose, fun l hl => (hrest l hl).noClose⟩

/-! ## Filling -/

namespace Comment

/-- A word does not close a comment together with the line before it, for a space stands between. -/
theorem noClose_appendWord {line word : Text} (hline : NoClose line) (hword : NoClose word) :
    NoClose (appendWord line word) := by
  unfold appendWord
  split
  · next hblank =>
    refine hline.append_of_getLast? hword fun hlast => ?_
    have hstar := List.all_eq_true.1 hblank '*' (List.mem_of_getLast? hlast)
    exact absurd hstar (by decide)
  · exact hline.append (hword.cons (by decide)) (by simp)

/-- Filling joins texts with spaces only. -/
theorem noClose_fill (o : Options) {seed text : Text} (hseed : NoClose seed)
    (htext : NoClose text) : ∀ l ∈ fill o seed text, NoClose l :=
  has_of_mem_fill NoClose.part (fun _ _ => noClose_appendWord) noClose_nil hseed
    fun _ hpiece => htext.part (infix_of_mem_pieces hpiece)

/-! ## Tags and nodes -/

/-- A word behind a space adds no closing mark. -/
theorem noClose_withWord {line : Text} {word : Option Text} (hline : NoClose line)
    (hword : ∀ w ∈ word, NoClose w) : NoClose (withWord line word) := by
  cases word with
  | none => exact hline
  | some w => exact hline.append ((hword w rfl).cons (by decide)) (by simp)

/-- The lines of a tag with a type do not close a comment, if its parts do not. -/
theorem noClose_typedLines {o : Options} {name description : Text} {type : TypeExpr}
    (hname : NoClose name) (hdescription : NoClose description)
    (htype : ∀ level, ∀ line ∈ type.lines o level, NoClose line) :
    ∀ l ∈ typedLines o name description type, NoClose l := by
  obtain ⟨hword, hremainder⟩ := splitFirstWord_parts description
  set level := chooseLevel o name type (splitFirstWord description).1
  have hhead : ∀ l ∈ headRow o name type level, NoClose l := by
    obtain ⟨hfirst, hrest⟩ := List.forall_mem_cons.1 (htype level)
    exact List.forall_mem_cons.2 ⟨hname.append (hfirst.cons (by decide)) (by simp), hrest⟩
  rw [typedLines_eq]
  refine List.forall_mem_append.2 ⟨fun l hl => hhead l (List.dropLast_subset _ hl), ?_⟩
  refine noClose_fill o ?_ (hdescription.part hremainder.isInfix)
  exact noClose_withWord (hhead _ (List.getLast_mem _)) fun w hw =>
    hdescription.part (hword w hw)

/-- A tag written as it was does not close a comment. -/
theorem noClose_written {t : Tag} (h : t.Has NoClose) : NoClose t.written :=
  h.name.append (h.description.cons (by decide)) (by simp)

/-- The lines of a tag that was read with its type. -/
theorem noClose_tagLines {o : Options} (hunit : ∀ c ∈ o.indentUnit, isBlank c = true) {t : Tag}
    (h : t.Has NoClose) (huntyped : t.type = .untyped) :
    ∀ l ∈ tagLines o (readType t), NoClose l := by
  have hwritten := noClose_written h
  rcases readType_cases t with ⟨-, hread⟩ | ⟨parsed, -, hparsed, hread⟩ | ⟨e, -, -, hread⟩
  · rw [hread, tagLines, huntyped]
    exact noClose_fill o noClose_nil hwritten
  · rw [hread]
    exact noClose_typedLines h.name
      (h.description.part (parse_rest_suffix hparsed).isInfix)
      (noClose_lines hparsed h.description hunit)
  · rw [hread]
    show ∀ l ∈ (pieces t.written).map trimEnd, NoClose l
    intro l hl
    obtain ⟨piece, hpiece, rfl⟩ := List.mem_map.1 hl
    exact (hwritten.part (infix_of_mem_pieces hpiece)).part (trimEnd_prefix_self _).isInfix

/-- The lines of nodes do not close a comment, once the types of the tags have been read off them.
-/
theorem noClose_composeNodes {o : Options} (hunit : ∀ c ∈ o.indentUnit, isBlank c = true)
    {nodes : List Node} (h : ∀ n ∈ nodes, n.Has NoClose)
    (huntyped : ∀ t, .tag t ∈ nodes → t.type = .untyped) (afterProse parted : Bool) :
    ∀ l ∈ composeNodes o afterProse parted (nodes.map readNode), NoClose l := by
  induction nodes generalizing afterProse parted with
  | nil => simp [composeNodes]
  | cons n nodes ih =>
    obtain ⟨hn, hnodes⟩ := List.forall_mem_cons.1 h
    have hrest := ih hnodes fun t ht => huntyped t (List.mem_cons_of_mem _ ht)
    cases n with
    | prose text =>
      exact List.forall_mem_append.2 ⟨noClose_fill o noClose_nil hn, hrest _ _⟩
    | tag t =>
      refine List.forall_mem_append.2 ⟨List.forall_mem_append.2 ⟨?_, ?_⟩, hrest _ _⟩
      · intro l hl
        split at hl
        · rw [List.mem_singleton.1 hl]
          exact noClose_nil
        · simp at hl
      · exact noClose_tagLines hunit hn (huntyped t List.mem_cons_self)

/-- Grouping lines reads no types. -/
theorem untyped_of_mem_groupLines {lines : List Text} :
    ∀ t ∈ (groupLines lines).2, t.type = .untyped := by
  induction lines with
  | nil => simp [groupLines]
  | cons line lines ih =>
    cases htag : tagLine? line with
    | some tag =>
      rw [groupLines_cons_of_tag htag]
      exact List.forall_mem_cons.2 ⟨rfl, ih⟩
    | none =>
      rw [groupLines_cons_of_none htag]
      exact ih

/-- The nodes of a comment have no types yet. -/
theorem untyped_of_mem_nodes {comment : Text} {t : Tag} (h : .tag t ∈ nodes comment) :
    t.type = .untyped := by
  rcases List.mem_append.1 h with h | h
  · simp at h
  · obtain ⟨t', ht', heq⟩ := List.mem_map.1 h
    cases heq
    exact untyped_of_mem_groupLines t ht'

/-- The lines composed for a comment do not close it if what stands between its delimiters does
not. -/
theorem noClose_compose {o : Options} (hunit : ∀ c ∈ o.indentUnit, isBlank c = true)
    {comment : Text} (h : NoClose (inner comment)) :
    ∀ l ∈ compose o (parse comment), NoClose l := by
  intro l hl
  rcases mem_of_mem_collapseBlank hl with rfl | hl
  · exact noClose_nil
  · exact noClose_composeNodes hunit (nodes_has noClose_handed h)
      (fun _ => untyped_of_mem_nodes) false false l hl

end Comment

/-! ## Delimiters -/

namespace DocComment

open Source

/-- A text between the two marks of a block comment, if it has no closing mark and does not end with
a star, makes a comment that is closed at its end. -/
theorem isDocComment_of_noClose {body : Text} (h : NoClose ('*' :: body))
    (hlast : body.getLast? = some ' ') :
    IsDocComment ('/' :: '*' :: '*' :: (body ++ ['*', '/'])) := by
  refine ⟨body ++ ['*', '/'], rfl, '*' :: body, rfl, ?_⟩
  refine h.append_of_getLast? (noClose_of_not_mem (by decide)) ?_
  simp [List.getLast?_cons, hlast]

/-- A margin adds a star behind a space, and a space behind it, so no closing mark forms. -/
theorem noClose_marginLine {indent line : Text} (hindent : ∀ c ∈ indent, isBlank c = true)
    (hline : NoClose line) : NoClose (marginLine indent line) := by
  have hmargin : NoClose (" * ".toList ++ line) := by
    have hspace : NoClose (' ' :: line) := hline.cons (by decide)
    have hstar : NoClose ('*' :: ' ' :: line) := noClose_cons.2 ⟨by simp, hspace⟩
    exact hstar.cons (by decide)
  have htrim := hmargin.part (trimEnd_prefix_self (" * ".toList ++ line)).isInfix
  refine (clean_of_allBlank hindent).noClose.append_of_getLast? htrim fun hlast => ?_
  exact absurd (hindent _ (List.mem_of_getLast? hlast)) (by decide)

/-- A line between delimiters is a doc comment, for a space stands on either side. -/
theorem singleLine_isDocComment {line : Text} (h : NoClose line) :
    IsDocComment (singleLine line) := by
  have hopen : NoClose ('*' :: ' ' :: line) := noClose_cons.2 ⟨by simp, h.cons (by decide)⟩
  have hbody : NoClose ('*' :: (' ' :: line ++ [' '])) :=
    hopen.append (noClose_of_not_mem (by decide)) (by simp)
  have hcomment := isDocComment_of_noClose hbody (List.getLast?_concat)
  simpa [singleLine] using hcomment

/-- Rows with margins between delimiters are a doc comment. -/
theorem multiLine_isDocComment {indent : Text} (hindent : ∀ c ∈ indent, isBlank c = true)
    {lines : List Text} (h : ∀ l ∈ lines, NoClose l) : IsDocComment (multiLine indent lines) := by
  have hrows : ∀ row ∈ [] :: marginRows indent lines, NoClose row := by
    refine List.forall_mem_cons.2 ⟨noClose_nil, List.forall_mem_append.2 ⟨fun row hrow => ?_,
      List.forall_mem_singleton.2 ?_⟩⟩
    · obtain ⟨l, hl, rfl⟩ := List.mem_map.1 hrow
      exact noClose_marginLine hindent (h l hl)
    · have hblank : allBlank (indent ++ [' ']) = true := by
        rw [allBlank_append, allBlank_iff.2 hindent]
        decide
      exact (clean_of_allBlank (allBlank_iff.1 hblank)).noClose
  have hopen : NoClose ('*' :: unpieces ([] :: marginRows indent lines)) := by
    refine noClose_cons.2 ⟨?_, noClose_handed.unpieces hrows⟩
    cases hcases : marginRows indent lines <;> simp [unpieces]
  have hlast : (unpieces ([] :: marginRows indent lines)).getLast? = some ' ' := by
    have happend := unpieces_append_cons ([] :: lines.map (marginLine indent)) indent [' '] []
    have hspace : unpieces [[' ']] = [' '] := by simp [unpieces]
    rw [List.cons_append] at happend
    rw [marginRows, happend, hspace, List.getLast?_concat]
  rw [multiLine_eq]
  exact isDocComment_of_noClose hopen hlast

/-- Lines that close nothing are rendered to a doc comment in either form. -/
theorem render_isDocComment {o : Options} {indent : Text} (old : Text)
    (hindent : ∀ c ∈ indent, isBlank c = true) {lines : List Text} (h : ∀ l ∈ lines, NoClose l) :
    IsDocComment (render o indent old lines) := by
  unfold render
  split
  · next line =>
    split
    · exact singleLine_isDocComment (h line List.mem_cons_self)
    · exact multiLine_isDocComment hindent h
  · exact multiLine_isDocComment hindent h

/-- What stands between the delimiters of a doc comment does not close it. -/
theorem noClose_inner {text : Text} (h : IsDocComment text) : NoClose (Comment.inner text) := by
  obtain ⟨m, rfl, b, hb, hclose⟩ := h
  have hend : docStart m = '/' :: '*' :: (b ++ ['*', '/']) := by rw [docStart, ← hb]
  have htrim : trim (docStart m) = docStart m := by
    have hstart : trimStart (docStart m) = docStart m := by simp [trimStart, docStart, isBlank]
    rw [trim, hstart, hend, trimEnd, dropEndWhile_eq_rdropWhile, List.rdropWhile_eq_self_iff]
    simp [isBlank]
  have hopen : dropStart? "/**".toList (docStart m) = some m :=
    dropStart?_eq_some_iff.2 rfl
  have hinner : Comment.inner (docStart m) = (dropEnd? "*/".toList m).getD m := by
    simp only [Comment.inner, htrim, hopen]
    rfl
  rw [hinner]
  cases b with
  | nil =>
    obtain rfl : m = ['/'] := by simpa using hb
    -- the star of the opening mark is that of the closing one: a slash is all that is left, and it
    -- closes nothing
    have hdrop : dropEnd? "*/".toList ['/'] = none := by decide
    rw [hdrop]
    exact noClose_cons.2 ⟨by simp, noClose_nil⟩
  | cons c b =>
    obtain ⟨rfl, rfl⟩ : c = '*' ∧ m = b ++ ['*', '/'] := by simpa [eq_comm] using hb
    have hdrop : dropEnd? "*/".toList (b ++ ['*', '/']) = some b := dropEnd?_eq_some_iff.2 rfl
    rw [hdrop]
    exact hclose.part ⟨['*'], ['*'], by simp⟩

/-- A doc comment that is written anew is a doc comment. -/
theorem format_isDocComment {o : Options} (hunit : ∀ c ∈ o.indentUnit, isBlank c = true)
    {indent text : Text} (hindent : ∀ c ∈ indent, isBlank c = true) (htext : IsDocComment text)
    {formatted : Formatted} (h : format o indent text = some formatted) :
    IsDocComment formatted.text := by
  have hlines (width : UInt64) :
      ∀ l ∈ Comment.compose (o.withPrintWidth width) (Comment.parse text), NoClose l :=
    Comment.noClose_compose (by rwa [indentUnit_withPrintWidth]) (noClose_inner htext)
  obtain ⟨-, hformatted⟩ := format_eq_some_iff.1 h
  rw [hformatted]
  dsimp only
  exact render_isDocComment text hindent (hlines _)

/-- The indentation of a comment is white space, also behind code. -/
theorem allBlank_indent (c : DocComment) : ∀ d ∈ c.indent, isBlank d = true := by
  unfold indent
  split
  · next hblank => exact List.all_eq_true.1 hblank
  · intro d hd
    rw [List.eq_of_mem_replicate hd]
    decide

end DocComment

end Docblock
