import Docblock.Proofs.Comment.Composed
import Docblock.Proofs.Text.Columns

/-!
# Which types fit the print width

The lines of a type stand behind the name of their tag, and the first word of the description stands
behind the last of them (`typeRow`). `FitsAt` says that all of this fits at a wrap level. The search
for a level measures the word on one line alone; from then on the lines are measured without it. So
the level that is chosen is the first at which the lines fit so far (`chooseLevel_cases`), and the
word behind them may end beyond the print width although a tighter level has room for it. That is
the only way in which a type is set too wide while some level fits (`typedLines_fit_iff`).

The widths that are measured stay below 2^64, as everywhere where a test of the program is told by
columns. The law does not say that a wrap level exists at which all fits: a long name fits nowhere,
and the tightest level is then taken. The example gives a type and a width at which the word is the
reason that a line is too long.
-/

namespace Docblock

/-- Levels are told apart by how tight they are. -/
theorem WrapLevel.rank_injective : Function.Injective WrapLevel.rank := by
  intro a b h
  cases a <;> cases b <;> simp_all [WrapLevel.rank]

namespace Comment

open Text

/-! ## The lines that have to fit -/

/-- The first word of the first line of a description. -/
def leadingWord (description : Text) : Option Text :=
  (words (description.takeWhile (· != '\n'))).head?

/-- The lines of a type at a wrap level, with the name of the tag in front and a word behind. -/
def typeRow (o : Options) (name : Text) (type : TypeExpr) (word : Option Text)
    (level : WrapLevel) : List Text :=
  let row := headRow o name type level
  row.dropLast ++ [withWord (row.getLast (headRow_ne_nil o name type level)) word]

/-- Nothing of this takes more columns than the print width. -/
def FitsAt (o : Options) (name : Text) (type : TypeExpr) (word : Option Text)
    (level : WrapLevel) : Prop :=
  ∀ l ∈ typeRow o name type word level, o.columns l ≤ o.printWidth.toNat

section Row

variable {o : Options} {name : Text} {type : TypeExpr} {word : Option Text} {level : WrapLevel}

/-- Without a word the row is that of the type. -/
theorem typeRow_none : typeRow o name type none level = headRow o name type level :=
  List.dropLast_append_getLast (headRow_ne_nil o name type level)

/-- On one line there is nothing but the first line. -/
theorem typeRow_never :
    typeRow o name type word .never = [withWord (headLines o name type .never).1 word] := by
  have hrow : headRow o name type .never = [(headLines o name type .never).1] := by
    have hnever := Piece.render_never o.indentUnit
      (TypeExpr.soft_pieces 0 (TypeExpr.arrange o.expandNull type))
    have hrest : (headLines o name type .never).2 = [] := congrArg Prod.snd hnever
    rw [headRow, hrest]
  simp [typeRow, hrow]

/-- A word stands behind its line. -/
theorem prefix_withWord (line : Text) (word : Option Text) : line <+: withWord line word := by
  cases word with
  | none => exact List.prefix_refl line
  | some w => exact List.prefix_append line (' ' :: w)

/-- Without the word no line is longer. -/
theorem exists_mem_typeRow (word : Option Text) {l : Text}
    (h : l ∈ typeRow o name type none level) : ∃ k ∈ typeRow o name type word level, l <+: k := by
  rcases List.mem_append.1 h with h | h
  · exact ⟨l, List.mem_append_left _ h, List.prefix_refl l⟩
  · refine ⟨_, List.mem_append_right _ (List.mem_singleton_self _), ?_⟩
    rw [List.mem_singleton.1 h]
    exact prefix_withWord _ word

/-- What fits with a word behind it fits without. -/
theorem FitsAt.without_word (h : FitsAt o name type word level) :
    FitsAt o name type none level := by
  intro l hl
  obtain ⟨k, hk, hprefix⟩ := exists_mem_typeRow word hl
  exact (Options.columns_le_of_prefix hprefix).trans (h k hk)

end Row

/-! ## The level that is chosen -/

section Level

variable {o : Options} {name : Text} {type : TypeExpr} {word : Option Text}
  (hwidths : ∀ level, ∀ l ∈ typeRow o name type word level, o.columns l < UInt64.size)

include hwidths

/-- The first test of the search is whether all fits on one line, with the word. -/
theorem fits_never_iff :
    o.displayWidth (withWord (headLines o name type .never).1 word) ≤ o.printWidth ↔
      FitsAt o name type word .never := by
  have hnever := hwidths .never
  unfold FitsAt
  rw [typeRow_never, List.forall_mem_singleton] at hnever ⊢
  exact Options.displayWidth_le_iff hnever _

/-- The other tests of the search leave the word out. -/
theorem allFit_iff (level : WrapLevel) :
    allFit o (headRow o name type level) = true ↔ FitsAt o name type none level := by
  unfold FitsAt
  rw [allFit, List.all_eq_true, typeRow_none]
  refine forall₂_congr fun l hl => ?_
  obtain ⟨k, hk, hprefix⟩ := exists_mem_typeRow word (typeRow_none.symm ▸ hl)
  have hbelow := (Options.columns_le_of_prefix hprefix).trans_lt (hwidths level k hk)
  rw [decide_eq_true_eq, Options.displayWidth_le_iff hbelow]

/-- The form on one line is chosen if it fits with the word. Else it is the first other level that
fits without the word, or the last if none does. -/
theorem chooseLevel_cases :
    (FitsAt o name type word .never ∧ chooseLevel o name type word = .never) ∨
      (¬ FitsAt o name type word .never ∧ chooseLevel o name type word ≠ .never ∧
        (FitsAt o name type none (chooseLevel o name type word) ∨
          chooseLevel o name type word = .clauses) ∧
        ∀ level, level ≠ .never → FitsAt o name type none level →
          (chooseLevel o name type word).rank ≤ level.rank) := by
  have hfits := allFit_iff hwidths
  -- the search as a chain of tests, so that each case below is one test that holds after others
  -- that failed
  have hchoose : chooseLevel o name type word =
      if o.displayWidth (withWord (headLines o name type .never).1 word) ≤ o.printWidth then .never
      else if allFit o (headRow o name type .entries) then .entries
      else if allFit o (headRow o name type .arguments) then .arguments
      else .clauses := rfl
  by_cases hnever : FitsAt o name type word .never
  · exact .inl ⟨hnever, by rw [hchoose, if_pos ((fits_never_iff hwidths).2 hnever)]⟩
  · rw [if_neg fun h => hnever ((fits_never_iff hwidths).1 h)] at hchoose
    refine .inr ⟨hnever, ?_⟩
    by_cases hentries : FitsAt o name type none .entries
    · rw [if_pos ((hfits _).2 hentries)] at hchoose
      rw [hchoose]
      refine ⟨by decide, .inl hentries, fun level hlevel _ => ?_⟩
      cases level with
      | never => exact absurd rfl hlevel
      | _ => decide
    · rw [if_neg fun h => hentries ((hfits _).1 h)] at hchoose
      by_cases harguments : FitsAt o name type none .arguments
      · rw [if_pos ((hfits _).2 harguments)] at hchoose
        rw [hchoose]
        refine ⟨by decide, .inl harguments, fun level hlevel hfit => ?_⟩
        cases level with
        | never => exact absurd rfl hlevel
        | entries => exact absurd hfit hentries
        | _ => decide
      · rw [if_neg fun h => harguments ((hfits _).1 h)] at hchoose
        rw [hchoose]
        refine ⟨by decide, .inr rfl, fun level hlevel hfit => ?_⟩
        cases level with
        | never => exact absurd rfl hlevel
        | entries => exact absurd hfit hentries
        | arguments => exact absurd hfit harguments
        | clauses => decide

/-- If some level fits, the chosen one does just if no level is taken for its lines alone: where
the lines fit at a level without the word, they fit with it there or at a looser level. -/
theorem fitsAt_chooseLevel_iff (hfit : ∃ level, FitsAt o name type word level) :
    FitsAt o name type word (chooseLevel o name type word) ↔
      ∀ tight, tight ≠ .never → FitsAt o name type none tight →
        ∃ loose, loose.rank ≤ tight.rank ∧ FitsAt o name type word loose := by
  rcases chooseLevel_cases hwidths with ⟨hnever, hchosen⟩ | ⟨hnever, hchosen, hlines, hfirst⟩
  · rw [hchosen]
    exact ⟨fun _ tight _ _ => ⟨.never, Nat.zero_le _, hnever⟩, fun _ => hnever⟩
  · obtain ⟨level, hlevel⟩ := hfit
    have hne : level ≠ .never := by
      rintro rfl
      exact hnever hlevel
    constructor
    · exact fun h tight htight hfits => ⟨_, hfirst tight htight hfits, h⟩
    · intro h
      have halone : FitsAt o name type none (chooseLevel o name type word) := by
        rcases hlines with hlines | hlast
        · exact hlines
        · -- the last level is no looser than the one that fits, and so it is that one
          have hrank := hfirst level hne hlevel.without_word
          have hsame : level = chooseLevel o name type word := by
            rw [hlast] at hrank ⊢
            exact WrapLevel.rank_injective (le_antisymm (by cases level <;> decide) hrank)
          exact hsame ▸ hlevel.without_word
      obtain ⟨loose, hrank, hloose⟩ := h _ hchosen halone
      have hlooseNe : loose ≠ .never := by
        rintro rfl
        exact hnever hloose
      have hsame := le_antisymm hrank (hfirst loose hlooseNe hloose.without_word)
      exact WrapLevel.rank_injective hsame ▸ hloose

end Level

/-! ## The lines that are written -/

/-- The word that is looked for is the first one of the first line. -/
theorem splitFirstWord_fst (description : Text) :
    (splitFirstWord description).1 = leadingWord description := by
  unfold leadingWord
  set line := description.takeWhile (· != '\n')
  cases hblank : allBlank line with
  | true =>
    have hempty : (trimStart line).isEmpty = true := by
      rw [List.isEmpty_iff, trimStart_eq_nil_iff, hblank]
    rw [words_of_allBlank hblank, splitFirstWord, if_pos hempty]
    rfl
  | false =>
    have hfull : ¬ (trimStart line).isEmpty = true := by simpa using trimStart_ne_nil hblank
    rw [words_eq_cons hblank, splitFirstWord, if_neg hfull]
    rfl

/-- Where a description has no first word, the rest of its first line is white space. -/
theorem allBlank_head_splitFirstWord {description first : Text} {rest : List Text}
    (h : leadingWord description = none)
    (hpieces : pieces (splitFirstWord description).2 = first :: rest) : allBlank first = true := by
  have hline : allBlank (description.takeWhile (· != '\n')) = true := by
    rw [← words_eq_nil_iff]
    exact List.head?_eq_none_iff.1 h
  have hempty : (trimStart (description.takeWhile (· != '\n'))).isEmpty = true := by
    rw [List.isEmpty_iff, trimStart_eq_nil_iff, hline]
  set remainder := description.dropWhile fun c => c == ' ' || c == '\t'
  have hremainder : (splitFirstWord description).2 = remainder := by
    rw [splitFirstWord, if_pos hempty]
  have hfirst : remainder.takeWhile (· != '\n') = first := by
    rw [hremainder] at hpieces
    have hlf : '\n' ∉ first := lf_not_mem_of_mem_pieces (by rw [hpieces]; exact List.mem_cons_self)
    rw [← unpieces_pieces remainder, hpieces]
    exact (takeWhile_unpieces hlf rest).1
  have hfront : ∀ c ∈ description.takeWhile (fun c => c == ' ' || c == '\t'),
      (c != '\n') = true := by
    intro c hc
    rcases eq_space_or_tab_of_mem_takeWhile hc with rfl | rfl <;> decide
  rw [← List.takeWhile_append_dropWhile (p := fun c => c == ' ' || c == '\t') (l := description),
    List.takeWhile_append_of_pos hfront, allBlank_append, Bool.and_eq_true] at hline
  rw [← hfirst]
  exact hline.2

/-- A description without a first word adds nothing to the line it is filled in after. -/
theorem fillParagraph_of_allBlank (o : Options) (seed : Text) {paragraph : Text}
    (h : allBlank paragraph = true) : fillParagraph o seed paragraph = [trimEnd seed] := by
  rw [fillParagraph, words_of_allBlank h, fillWords]
  split
  · next hseed =>
    rw [List.isEmpty_iff.1 hseed, trimEnd_eq_nil_iff.2 (allBlank_takeWhile _), trimEnd_nil]
  · rfl

/-- A seed goes on to a space, if at all; without a first word nothing is filled in after it. -/
theorem exists_fill_withWord (o : Options) (line description : Text) :
    let word := leadingWord description
    (word ≠ none → trimEnd (withWord line word) = withWord line word) ∧
      ∃ behind more, fill o (withWord line word) (splitFirstWord description).2 =
          (trimEnd (withWord line word) ++ behind) :: more ∧
        ∀ c ∈ behind.head?, isBlank c = true := by
  intro word
  obtain ⟨first, rest, hpieces⟩ := exists_pieces_eq_cons (splitFirstWord description).2
  cases hcases : word with
  | none =>
    refine ⟨fun h => absurd rfl h, [], rest.flatMap (fillParagraph o []), ?_, by simp⟩
    rw [fill_of_pieces o _ hpieces,
      fillParagraph_of_allBlank o _ (allBlank_head_splitFirstWord hcases hpieces)]
    simp
  | some w =>
    have hword : Unbroken w :=
      unbroken_splitFirstWord (by rw [splitFirstWord_fst]; exact hcases)
    have htrim : trimEnd (line ++ ' ' :: w) = line ++ ' ' :: w := by
      have happend := trimEnd_append (a := line ++ [' ']) hword.allBlank_eq_false
      simpa [hword.trimEnd_eq] using happend
    have hfull : allBlank (line ++ ' ' :: w) = false := by
      simp [allBlank_cons, hword.allBlank_eq_false]
    obtain ⟨us, vs, hsplit, -, hlines⟩ := exists_fill_seed o hfull hpieces
    have hus : ∀ v ∈ us, Unbroken v := fun v hv =>
      unbroken_of_mem_words (hsplit ▸ List.mem_append_left vs hv)
    refine ⟨fun _ => htrim, spaced us, fillRest o vs ++ rest.flatMap (fillParagraph o []), ?_, ?_⟩
    -- the seed ends with a word, so nothing is trimmed from it before the words behind it
    · show fill o (line ++ ' ' :: w) _ = (trimEnd (line ++ ' ' :: w) ++ _) :: _
      rw [hlines, trimEnd_append_spaced htrim hus, htrim]
    · intro c hc
      rw [eq_space_of_mem_head?_spaced us c hc]
      rfl

/-- If the lines of a type fit at some level, with the first word of the description behind them,
the lines that are written for the type fit unless the search stopped too early: at a level where
they fit without the word, while they fit with it neither there nor at a looser level. -/
theorem typedLines_fit_iff {o : Options} {name description : Text} {type : TypeExpr}
    (hwidths : ∀ level, ∀ l ∈ typeRow o name type (leadingWord description) level,
      o.columns l < UInt64.size)
    (hfit : ∃ level, FitsAt o name type (leadingWord description) level) :
    ∃ level front last behind more,
      typeRow o name type (leadingWord description) level = front ++ [last] ∧
        typedLines o name description type = front ++ (trimEnd last ++ behind) :: more ∧
        (∀ c ∈ behind.head?, isBlank c = true) ∧
        ((∀ l ∈ front ++ [trimEnd last], o.columns l ≤ o.printWidth.toNat) ↔
          ∀ tight, tight ≠ .never → FitsAt o name type none tight →
            ∃ loose, loose.rank ≤ tight.rank ∧
              FitsAt o name type (leadingWord description) loose) := by
  set word := leadingWord description with hword
  have hiff := fitsAt_chooseLevel_iff hwidths hfit
  set level := chooseLevel o name type word with hlevel
  set row := headRow o name type level with hrow
  have hne : row ≠ [] := headRow_ne_nil _ _ _ _
  obtain ⟨htrim, behind, more, hfill, hbehind⟩ :=
    exists_fill_withWord o (row.getLast hne) description
  rw [← hword] at htrim hfill
  have hlines : typedLines o name description type =
      row.dropLast ++ fill o (withWord (row.getLast hne) word) (splitFirstWord description).2 := by
    rw [typedLines_eq]
    simp only [splitFirstWord_fst, ← hword, ← hlevel, ← hrow]
  refine ⟨level, row.dropLast, withWord (row.getLast hne) word, behind, more, rfl, ?_, hbehind, ?_⟩
  · rw [hlines, hfill]
  · rw [← hiff]
    constructor
    · intro h
      by_cases hnone : word = none
      · -- without a word the search measures all that is written
        exact hiff.2 fun tight _ hfits => ⟨tight, le_refl _, by rwa [hnone]⟩
      · rw [htrim hnone] at h
        exact h
    · intro h
      obtain ⟨hfront, hlast⟩ := List.forall_mem_append.1 h
      refine List.forall_mem_append.2 ⟨hfront, List.forall_mem_singleton.2 ?_⟩
      rw [List.forall_mem_singleton] at hlast
      exact (Options.columns_le_of_prefix (trimEnd_prefix_self _)).trans hlast

/-- A shape whose entries break, with the name of a parameter behind its last line. -/
theorem typedLines_fit_shape :
    let o : Options := { printWidth := 20 }
    let type : TypeExpr := .shape [.keyed (.named "title".toList) false (.named "string".toList)]
    let word := leadingWord "$param The".toList
    (∀ level, ∀ l ∈ typeRow o "@param".toList type word level, o.columns l < UInt64.size) ∧
      (∃ level, FitsAt o "@param".toList type word level) ∧
      typedLines o "@param".toList "$param The".toList type =
        ["@param array\x7b", "    title: string", "\x7d $param The"].map String.toList ∧
      ∃ level front last behind more,
        typeRow o "@param".toList type word level = front ++ [last] ∧
          typedLines o "@param".toList "$param The".toList type =
            front ++ (trimEnd last ++ behind) :: more ∧
          ∀ l ∈ front ++ [trimEnd last], o.columns l ≤ 20 := by
  intro o type word
  have hwidths : ∀ level, ∀ l ∈ typeRow o "@param".toList type word level,
      o.columns l < UInt64.size := by
    intro level
    cases level <;> decide
  have hfits : FitsAt o "@param".toList type word .entries := by
    unfold FitsAt
    decide
  obtain ⟨level, front, last, behind, more, hrow, hlines, -, hiff⟩ :=
    typedLines_fit_iff hwidths ⟨.entries, hfits⟩
  refine ⟨hwidths, ⟨.entries, hfits⟩, by decide, level, front, last, behind, more, hrow, hlines,
    hiff.2 fun tight htight _ => ⟨.entries, ?_, hfits⟩⟩
  cases tight with
  | never => exact absurd rfl htight
  | _ => decide

/-- The arguments of a generic type would break at the next level, and then the name of the
parameter would fit behind them; but the type fits on its own line, and the search stops there. -/
theorem typedLines_generic_too_wide :
    let o : Options := { printWidth := 22 }
    let type : TypeExpr :=
      .generic (.named "Foo".toList) [.named "Bar".toList, .named "Baz".toList]
    let line := "@param Foo<Bar, Baz> $param".toList
    (∀ level, ∀ l ∈ typeRow o "@param".toList type (leadingWord "$param".toList) level,
        o.columns l < UInt64.size) ∧
      typeRow o "@param".toList type (leadingWord "$param".toList) .arguments =
        ["@param Foo<", "    Bar,", "    Baz", "> $param"].map String.toList ∧
      FitsAt o "@param".toList type (leadingWord "$param".toList) .arguments ∧
      typedLines o "@param".toList "$param".toList type = [line] ∧
      o.printWidth.toNat < o.columns line := by
  intro o type line
  have hrow : typeRow o "@param".toList type (leadingWord "$param".toList) .arguments =
      ["@param Foo<", "    Bar,", "    Baz", "> $param"].map String.toList := by decide
  refine ⟨fun level => ?_, hrow, ?_, by decide, by decide⟩
  · cases level <;> decide
  · rw [FitsAt, hrow]
    decide

end Comment

end Docblock
