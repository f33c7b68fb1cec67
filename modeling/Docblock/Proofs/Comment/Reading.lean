import Docblock.Comment.Body
import Docblock.Proofs.Text.Words
import Docblock.Proofs.TypeExpr.Leaves

/-!
# What a comment is read as

All that the nodes of a comment hold was cut out of the text between its delimiters, and put
together line by line. So what is known of that text and passes to its parts is known of the nodes
(`nodes_has`), and of the descriptions that are left of the tags (`description_has`).

Three users rely on it: no part of a comment closes it (`Docblock.Proofs.Comment.Closing`), no part
of it holds other white space than the comment does (`Docblock.Proofs.Comment.TypedTags`), and no
part of a comment on one line holds a line feed. Types are no texts, so what is known of a comment
passes to the names and literals in a type by way of `TypeExpr.Leaves`. What the grouping of lines
into tags loses is not told here; see `Docblock.Proofs.Comment.WrittenBack`.
-/

namespace Docblock

/-- What is known of the texts of a tag. -/
structure Tag.Has (P : Text → Prop) (t : Tag) : Prop where
  name : P t.name
  description : P t.description

/-- What is known of the texts of a node. -/
def Node.Has (P : Text → Prop) : Node → Prop
  | .prose text => P text
  | .tag t => t.Has P

namespace Comment

/-! ## The lines of a comment -/

/-- What stands between the delimiters is one stretch of the comment. -/
theorem inner_infix_self (comment : Text) : inner comment <:+: comment := by
  unfold inner
  set body := Text.trim comment
  refine (Text.getD_dropEnd?_front _ _).isInfix.trans (.trans ?_ (Text.trim_infix_self comment))
  cases h : Text.dropStart? "/**".toList body with
  | some r =>
    have hrear : r <:+ body := ⟨_, (Text.dropStart?_eq_some_iff.1 h).symm⟩
    exact hrear.isInfix
  | none => exact (Text.getD_dropStart?_rear "/*".toList body).isInfix

/-- Between its two marks a comment holds the text that was put there. -/
theorem inner_delimited (m : Text) : inner ('/' :: '*' :: '*' :: (m ++ ['*', '/'])) = m := by
  set comment : Text := '/' :: '*' :: '*' :: (m ++ ['*', '/'])
  have hend : comment = ('/' :: '*' :: '*' :: m) ++ ['*', '/'] := by simp [comment]
  have htrim : Text.trim comment = comment := by
    have hstart : Text.trimStart comment = comment := Text.trimStart_eq_self fun c hc => by
      obtain rfl : '/' = c := by simpa [comment] using hc
      decide
    have hlast : comment.getLast? = some '/' := by
      rw [hend, List.getLast?_append]
      rfl
    rw [Text.trim, hstart, Text.trimEnd_eq_self_iff, hlast]
    decide
  have hopen : Text.dropStart? "/**".toList comment = some (m ++ ['*', '/']) :=
    Text.dropStart?_eq_some_iff.2 rfl
  have hclose : Text.dropEnd? "*/".toList (m ++ ['*', '/']) = some m :=
    Text.dropEnd?_eq_some_iff.2 rfl
  simp only [inner, htrim, hopen]
  exact congrArg (fun r : Option Text => r.getD _) hclose

/-- A line without its margin is a rear part of the line. -/
theorem dropMargin_suffix (line : Text) : dropMargin line <:+ line := by
  unfold dropMargin
  split
  · next r h =>
    have hline : '*' :: r <:+ line := h ▸ Text.trimStart_suffix line
    exact (List.dropWhile_suffix _).trans ((List.suffix_cons '*' r).trans hline)
  · exact List.suffix_refl line

/-- What a line says is one stretch of it. -/
theorem bodyLine_infix_self (line : Text) : bodyLine line <:+: line := by
  unfold bodyLine
  exact (Text.trimEnd_prefix_self _).isInfix.trans
    ((Text.getD_dropStart?_rear _ _).trans (dropMargin_suffix line)).isInfix

/-- Each line of a comment stands between its delimiters. -/
theorem infix_of_mem_bodyLines {comment line : Text} (h : line ∈ bodyLines comment) :
    line <:+: inner comment := by
  have hmap : line ∈ (Text.lines (inner comment)).map bodyLine :=
    List.dropWhile_sublist _ |>.subset ((List.rdropWhile_prefix _ _).subset h)
  obtain ⟨l, hl, rfl⟩ := List.mem_map.1 hmap
  exact (bodyLine_infix_self l).trans (Text.infix_of_mem_lines hl)

/-- A line of a comment is of one piece, and nothing blank stands at its end. -/
theorem trimmed_of_mem_bodyLines {comment line : Text} (h : line ∈ bodyLines comment) :
    Text.trimEnd line = line ∧ '\n' ∉ line := by
  have hmap : line ∈ (Text.lines (inner comment)).map bodyLine :=
    List.dropWhile_sublist _ |>.subset ((List.rdropWhile_prefix _ _).subset h)
  obtain ⟨l, hl, rfl⟩ := List.mem_map.1 hmap
  obtain ⟨piece, hpiece, hpart⟩ := Text.infix_of_mem_linesOfPieces hl
  refine ⟨Text.trimEnd_trimEnd _, fun hmem => ?_⟩
  exact Text.lf_not_mem_of_mem_pieces hpiece (hpart.subset ((bodyLine_infix_self l).subset hmem))

/-- The first line of a comment is not blank, and neither is the last. -/
theorem allBlank_ends_bodyLines (comment : Text) :
    (∀ l ∈ (bodyLines comment).head?, Text.allBlank l = false) ∧
      ∀ l ∈ (bodyLines comment).getLast?, Text.allBlank l = false := by
  unfold bodyLines
  generalize (Text.lines (inner comment)).map bodyLine = lines
  rw [Text.dropEndWhile_eq_rdropWhile]
  refine ⟨fun l hl => ?_, fun l hl => ?_⟩
  · obtain ⟨k, hk⟩ := List.rdropWhile_prefix Text.allBlank (lines.dropWhile Text.allBlank)
    have hhead := List.head?_dropWhile_not Text.allBlank lines
    rw [← hk, List.head?_append, Option.mem_def.1 hl] at hhead
    simpa using hhead
  · have hne : (lines.dropWhile Text.allBlank).rdropWhile Text.allBlank ≠ [] := by
      rintro hnil
      rw [hnil] at hl
      cases hl
    have hlast := List.rdropWhile_last_not Text.allBlank (lines.dropWhile Text.allBlank) hne
    rw [List.getLast?_eq_some_getLast hne] at hl
    rw [← Option.some.inj hl]
    simpa using hlast

/-! ## The nodes of a comment -/

variable {P : Text → Prop}

/-- A line begins a tag if it begins with `@`, but for white space. The name is its first word, and
the description the rest without the white space between. -/
theorem tagLine?_eq_some_iff {line name description : Text} :
    tagLine? line = some (name, description) ↔
      (Text.trim line).head? = some '@' ∧ name = Text.firstWord (Text.trim line) ∧
        description = Text.trimStart (Text.afterFirstWord (Text.trim line)) := by
  simp only [tagLine?, Option.ite_none_right_eq_some, Option.some.injEq, Prod.mk.injEq]
  tauto

/-- A line begins no tag if it does not begin with `@`. -/
theorem tagLine?_eq_none_iff {line : Text} :
    tagLine? line = none ↔ (Text.trim line).head? ≠ some '@' := by
  simp [tagLine?]

/-- A line that begins a tag takes the loose lines behind it into its description. -/
theorem groupLines_cons_of_tag {line name description : Text}
    (h : tagLine? line = some (name, description)) (lines : List Text) :
    groupLines (line :: lines) =
      ([], { name, description := Text.unpieces (description :: (groupLines lines).1) } ::
        (groupLines lines).2) := by
  simp [groupLines, h]

/-- A line that begins no tag joins the loose lines. -/
theorem groupLines_cons_of_none {line : Text} (h : tagLine? line = none) (lines : List Text) :
    groupLines (line :: lines) = (line :: (groupLines lines).1, (groupLines lines).2) := by
  simp [groupLines, h]

/-- What a tag is read off is in its line. -/
theorem tagLine?_has (hP : Text.Handed P) {line name description : Text} (hline : P line)
    (h : tagLine? line = some (name, description)) : P name ∧ P description := by
  obtain ⟨-, rfl, rfl⟩ := tagLine?_eq_some_iff.1 h
  have htrim := hP.part hline (Text.trim_infix_self line)
  exact ⟨hP.part htrim (Text.firstWord_prefix_self _).isInfix,
    hP.part htrim ((Text.trimStart_suffix _).trans (Text.afterFirstWord_suffix _)).isInfix⟩

/-- What is known of the lines is known of the tags, since joining lines is one of the things that
`Text.Handed` provides for. -/
theorem groupLines_has (hP : Text.Handed P) {lines : List Text} (hlines : ∀ l ∈ lines, P l) :
    (∀ l ∈ (groupLines lines).1, P l) ∧ ∀ t ∈ (groupLines lines).2, t.Has P := by
  induction lines with
  | nil => simp [groupLines]
  | cons line lines ih =>
    obtain ⟨hline, hlines⟩ := List.forall_mem_cons.1 hlines
    obtain ⟨hloose, htags⟩ := ih hlines
    cases htag : tagLine? line with
    | some tag =>
      obtain ⟨name, description⟩ := tag
      obtain ⟨hname, hdescription⟩ := tagLine?_has hP hline htag
      rw [groupLines_cons_of_tag htag]
      refine ⟨by simp, List.forall_mem_cons.2 ⟨⟨hname, ?_⟩, htags⟩⟩
      exact hP.unpieces (List.forall_mem_cons.2 ⟨hdescription, hloose⟩)
    | none =>
      rw [groupLines_cons_of_none htag]
      exact ⟨List.forall_mem_cons.2 ⟨hline, hloose⟩, htags⟩

/-- What is known of the text between the delimiters is known of the nodes. -/
theorem nodes_has (hP : Text.Handed P) {comment : Text} (h : P (inner comment)) :
    ∀ n ∈ nodes comment, n.Has P := by
  obtain ⟨hloose, htags⟩ :=
    groupLines_has hP fun _ hl => hP.part h (infix_of_mem_bodyLines hl)
  intro n hn
  rcases List.mem_append.1 hn with hn | hn
  · obtain ⟨text, htext, rfl⟩ := List.mem_map.1 hn
    exact hloose text htext
  · obtain ⟨t, ht, rfl⟩ := List.mem_map.1 hn
    exact htags t ht

/-- A type that is read leaves the rest of the description. -/
theorem readType_of_ok {t : Tag} (htitle : t.title ∈ Tag.typedTitles)
    {parsed : TypeExpr.Parsed} (h : TypeExpr.parse t.name t.description = .ok parsed) :
    readType t = { t with type := .typed parsed.type, description := parsed.rest } := by
  simp only [readType, if_pos htitle, h]

/-- A type that cannot be read leaves the description as it is. -/
theorem readType_of_error {t : Tag} (htitle : t.title ∈ Tag.typedTitles) {e : ParseError}
    (h : TypeExpr.parse t.name t.description = .error e) :
    readType t = { t with type := .failed e } := by
  simp only [readType, if_pos htitle, h]

/-- The three outcomes of reading the type of a tag. -/
theorem readType_cases (t : Tag) :
    (t.title ∉ Tag.typedTitles ∧ readType t = t) ∨
      (∃ parsed, t.title ∈ Tag.typedTitles ∧
        TypeExpr.parse t.name t.description = .ok parsed ∧
        readType t = { t with type := .typed parsed.type, description := parsed.rest }) ∨
      ∃ e, t.title ∈ Tag.typedTitles ∧ TypeExpr.parse t.name t.description = .error e ∧
        readType t = { t with type := .failed e } := by
  by_cases htitle : t.title ∈ Tag.typedTitles
  · cases hparse : TypeExpr.parse t.name t.description with
    | ok parsed => exact .inr (.inl ⟨parsed, htitle, rfl, readType_of_ok htitle hparse⟩)
    | error e => exact .inr (.inr ⟨e, htitle, rfl, readType_of_error htitle hparse⟩)
  · exact .inl ⟨htitle, if_neg htitle⟩

/-- What is left behind a type is a rear part of the text. -/
theorem parse_rest_suffix {location text : Text} {parsed : TypeExpr.Parsed}
    (h : TypeExpr.parse location text = .ok parsed) : parsed.rest <:+ text := by
  obtain ⟨r, hreads, hrest⟩ := parse_eq_ok_iff.1 h
  rw [hrest]
  exact (List.dropWhile_suffix _).trans hreads.suffix

/-- What is known of the text between the delimiters is known of the descriptions that are left of
the tags. -/
theorem description_has (hP : Text.Handed P) {comment : Text} (h : P (inner comment)) {t : Tag}
    (ht : .tag t ∈ parse comment) : P t.description := by
  obtain ⟨n, hn, hread⟩ := List.mem_map.1 ht
  have hnode := nodes_has hP h n hn
  cases n with
  | prose text => cases hread
  | tag u =>
    obtain rfl : readType u = t := by simpa [readNode] using hread
    have hdescription : P u.description := hnode.description
    rcases readType_cases u with ⟨-, hu⟩ | ⟨parsed, -, hparsed, hu⟩ | ⟨e, -, -, hu⟩
    · rwa [hu]
    · rw [hu]
      exact hP.part hdescription (parse_rest_suffix hparsed).isInfix
    · rwa [hu]

end Comment

end Docblock
