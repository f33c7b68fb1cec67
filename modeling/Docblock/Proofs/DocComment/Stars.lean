import Docblock.Proofs.Comment.BlankLines
import Docblock.Proofs.DocComment.Delimiters

/-!
# Comments of stars

A comment is left alone exactly if no line is read off it (`format_eq_none_iff`). Of a comment that
holds only stars and white space this depends on the rows between its delimiters: the first run of
stars in a row is its margin, and a second run is what the row says (`format_eq_none_iff_of_stars`).
So a banner of stars is left alone, while a bare bullet behind the margin is a line.

A margin is a run of stars and the white space around it, and there is at most one in a row. So the
rows of a banner have nothing behind the margin, and two bullets in a row have one. In the comment
`/**/` the two marks share a star, so it is no filling between them, and the law does not speak of
it.

The first law (`format_eq_none_iff`) holds of every comment. It is the reason why nothing that says
something is ever dropped, and nothing that says nothing is ever written.
-/

namespace Docblock

namespace Text

/-- A carriage return at the end of a line is no part of any word. -/
theorem words_dropReturn (t : Text) : words (dropReturn t) = words t := by
  rw [dropReturn]
  cases hdrop : dropEnd? ['\r'] t with
  | none => rfl
  | some r =>
    rw [dropEnd?_eq_some_iff] at hdrop
    rw [Option.getD_some, hdrop, words_append_allBlank _ rfl]

/-- What does not depend on the line ends is known of the lines if it is known of the pieces. -/
theorem forall_mem_linesOfPieces_iff {P : Text → Prop} (hnil : P [])
    (hreturn : ∀ t, P (dropReturn t) ↔ P t) {ps : List Text} :
    (∀ l ∈ linesOfPieces ps, P l) ↔ ∀ piece ∈ ps, P piece := by
  fun_induction linesOfPieces ps with
  | case1 => rfl
  | case2 last hempty =>
    rw [List.forall_mem_singleton, List.isEmpty_iff.1 hempty]
    exact iff_of_true (List.forall_mem_nil _) hnil
  | case3 => rfl
  | case4 piece next rest ih => rw [List.forall_mem_cons, List.forall_mem_cons, hreturn, ih]

end Text

open Text

namespace Comment

/-- A line is blank just if it is blank behind its margin. -/
theorem allBlank_bodyLine (line : Text) :
    allBlank (bodyLine line) = allBlank (dropMargin line) := by
  rw [bodyLine, allBlank_trimEnd]
  cases hdrop : dropStart? [' '] (dropMargin line) with
  | none => rfl
  | some r =>
    have hspace : isBlank ' ' = true := by decide
    rw [Option.getD_some, dropStart?_eq_some_iff.1 hdrop, List.singleton_append, allBlank_cons,
      hspace, Bool.true_and]

/-- No line is read off a comment exactly if nothing stands in its rows behind the margin. -/
theorem bodyLines_eq_nil_iff {comment : Text} :
    bodyLines comment = [] ↔
      ∀ row ∈ Text.lines (inner comment), allBlank (dropMargin row) = true := by
  have hrows : (∀ row ∈ Text.lines (inner comment), allBlank (dropMargin row) = true) ↔
      ∀ line ∈ (Text.lines (inner comment)).map bodyLine, allBlank line = true := by
    simp only [List.forall_mem_map, allBlank_bodyLine]
  rw [hrows, bodyLines, dropEndWhile_eq_rdropWhile, List.rdropWhile_eq_nil_iff]
  generalize (Text.lines (inner comment)).map bodyLine = lines
  constructor
  · intro h
    refine List.dropWhile_eq_nil_iff.1 (Classical.not_not.1 fun hne => ?_)
    exact absurd (h _ (List.head_mem hne)) (by simp [List.head_dropWhile_not allBlank hne])
  · exact fun h line hline => h line ((List.dropWhile_suffix _).subset hline)

/-- In a row of stars and white space, the first run of stars is the margin. -/
theorem allBlank_dropMargin_iff {row : Text} (h : ∀ c ∈ row, c = '*' ∨ isBlank c = true) :
    allBlank (dropMargin row) = true ↔ (words row).length ≤ 1 := by
  cases hblank : allBlank row with
  | true =>
    have hmargin : dropMargin row = row := by
      rw [dropMargin, trimStart_eq_nil_iff.2 hblank]
    rw [hmargin, words_of_allBlank hblank]
    exact iff_of_true hblank (Nat.zero_le 1)
  | false =>
    obtain ⟨c, r, hr⟩ := List.exists_cons_of_ne_nil (trimStart_ne_nil hblank)
    have hfull : isBlank c = false := head?_trimStart row c (by rw [hr]; rfl)
    have hstars : ∀ d ∈ c :: r, d = '*' ∨ isBlank d = true := fun d hd =>
      h d ((trimStart_suffix row).subset (hr ▸ hd))
    obtain rfl : c = '*' := (hstars c List.mem_cons_self).resolve_right (by simp [hfull])
    -- in such a row the first word is a run of stars, which is what the margin takes away
    have hrest : afterFirstWord ('*' :: r) = dropMargin row := by
      have hsame : ∀ d ∈ r, (!isBlank d) = (d == '*') := by
        intro d hd
        rcases hstars d (List.mem_cons_of_mem _ hd) with rfl | hblank
        · rfl
        · have hne : d ≠ '*' := by
            rintro rfl
            exact absurd hblank (by decide)
          rw [hblank, beq_false_of_ne hne]
          rfl
      rw [dropMargin, hr, afterFirstWord, List.dropWhile_cons_of_pos (by decide)]
      exact dropWhile_congr hsame
    rw [words_eq_cons hblank, hr, hrest, List.length_cons, ← words_eq_nil_iff,
      ← List.length_eq_zero_iff]
    omega

end Comment

namespace DocComment

/-- A comment is left alone exactly if no line is read off it. -/
theorem format_eq_none_iff {o : Options} {indent text : Text} :
    format o indent text = none ↔ Comment.bodyLines text = [] := by
  rw [← Comment.format_eq_nil_iff (o.withPrintWidth (bodyWidth o indent)) text, format,
    Comment.format]
  split
  · next hnil => exact iff_of_true rfl hnil
  · next hne => exact iff_of_false (Option.some_ne_none _) hne

/-- A comment of stars and white space is left alone exactly if no row between its delimiters holds
two runs of stars. -/
theorem format_eq_none_iff_of_stars (o : Options) (indent : Text) {fill : Text}
    (h : ∀ c ∈ fill, c = '*' ∨ isBlank c = true) :
    format o indent ("/**".toList ++ fill ++ "*/".toList) = none ↔
      ∀ row ∈ pieces fill, (words row).length ≤ 1 := by
  have hinner : Comment.inner ("/**".toList ++ fill ++ "*/".toList) = fill :=
    Comment.inner_delimited fill
  have hrow : ∀ row ∈ Text.lines fill,
      (allBlank (Comment.dropMargin row) = true ↔ (words row).length ≤ 1) := fun row hrow =>
    Comment.allBlank_dropMargin_iff fun c hc => h c ((infix_of_mem_lines hrow).subset hc)
  rw [format_eq_none_iff, Comment.bodyLines_eq_nil_iff, hinner, forall₂_congr hrow]
  exact forall_mem_linesOfPieces_iff (Nat.zero_le 1) fun t => by rw [words_dropReturn]

/-- A banner with several margins. -/
theorem format_eq_none_iff_of_stars_banner :
    let fill := "*****\n\t ** \r\n\n * ".toList
    (∀ c ∈ fill, c = '*' ∨ isBlank c = true) ∧ (∀ row ∈ pieces fill, (words row).length ≤ 1) ∧
      ∀ o indent, format o indent ("/**".toList ++ fill ++ "*/".toList) = none := by
  intro fill
  have hfill : ∀ c ∈ fill, c = '*' ∨ isBlank c = true := by decide
  have hrows : ∀ row ∈ pieces fill, (words row).length ≤ 1 := by decide +kernel
  exact ⟨hfill, hrows, fun o indent => (format_eq_none_iff_of_stars o indent hfill).2 hrows⟩

/-- A bullet without text, behind the margin, is a line of its comment. -/
theorem format_bare_bullet :
    let text := "/** * * */".toList
    Delimited text ∧ text = "/*".toList ++ "* * * ".toList ++ "*/".toList ∧
      (∀ c ∈ "* * * ".toList, c = '*' ∨ isBlank c = true) ∧
      ∃ formatted, format {} [] text = some formatted ∧ formatted.text = "/** * */".toList := by
  intro text
  have hdelimited : Delimited text :=
    isDocComment_iff.1 ⟨" * * */".toList, rfl, "* * * ".toList, rfl,
      by unfold NoClose NoPair; decide⟩
  have hparse : Comment.parse text = [.prose ['*']] := by with_unfolding_all rfl
  have hformat : format {} [] text = some ⟨"/** * */".toList, []⟩ := by
    refine format_eq_some_iff.2 ?_
    simp only [hparse]
    exact ⟨by decide, by with_unfolding_all rfl⟩
  exact ⟨hdelimited, by decide, by decide, _, hformat, rfl⟩

/-- The shortest comment, whose delimiters share their star, is read as a slash. -/
example : Comment.bodyLines "/**/".toList = ["/".toList] := by with_unfolding_all rfl

end DocComment

end Docblock
