import Docblock.Comment.Compose
import Docblock.Proofs.Text.Words

/-!
# The lines of a comment as it is composed

The steps of `Docblock.Comment.Compose` one by one: what the first word of a description leaves, the
lines of a tag with its type as one row, and the collapse of blank lines.

The lines of a type are given by the printer as a first line and others, and are put together with
the name in front of the first and a word behind the last. As one row (`headRow`) they can be
compared at all levels alike, which is what the choice of a level, the width of lines and reading
them back have in common. Collapsing carries one flag, whether a blank line stands just before; the
laws about it are stated for either value, so that they can be used in the middle of a comment.
-/

namespace Docblock.Comment

open Text

/-! ## Tags with a type -/

/-- The first word of a description and what follows it are parts of it. -/
theorem splitFirstWord_parts (description : Text) :
    (∀ w ∈ (splitFirstWord description).1, w <:+: description) ∧
      (splitFirstWord description).2 <:+ description := by
  have hfirst := List.takeWhile_prefix (l := description) (· != '\n')
  have hsuffix := trimStart_suffix (description.takeWhile (· != '\n'))
  simp only [splitFirstWord]
  split
  · exact ⟨by simp, List.dropWhile_suffix _⟩
  · refine ⟨fun w hw => ?_, ?_⟩
    · obtain rfl := Option.some.inj hw
      exact ((firstWord_prefix_self _).isInfix.trans hsuffix.isInfix).trans hfirst.isInfix
    · obtain ⟨front, hfront⟩ :=
        ((trimStart_suffix _).trans (afterFirstWord_suffix _)).trans hsuffix
      refine ⟨front, ?_⟩
      rw [← List.append_assoc, hfront, List.takeWhile_append_dropWhile]

/-- The first word of a description is a word. -/
theorem unbroken_splitFirstWord {description word : Text}
    (h : word ∈ (splitFirstWord description).1) : Unbroken word := by
  simp only [splitFirstWord] at h
  split at h
  · cases h
  · next hne =>
    obtain rfl := Option.some.inj h
    apply unbroken_firstWord
    rw [Bool.eq_false_iff]
    intro hblank
    apply hne
    rw [trimStart_eq_nil_iff.2 hblank]
    rfl

/-- The first line of joined lines is the first of them, if it has no line feed. -/
theorem takeWhile_unpieces {l : Text} (hl : '\n' ∉ l) (ls : List Text) :
    (unpieces (l :: ls)).takeWhile (· != '\n') = l ∧
      (unpieces (l :: ls)).dropWhile (· != '\n') = ls.flatMap ('\n' :: ·) := by
  have hletters : ∀ c ∈ l, (c != '\n') = true := by
    intro c hc
    rw [bne_iff_ne]
    rintro rfl
    exact hl hc
  have hrest : (ls.flatMap ('\n' :: ·)).takeWhile (· != '\n') = [] ∧
      (ls.flatMap ('\n' :: ·)).dropWhile (· != '\n') = ls.flatMap ('\n' :: ·) := by
    cases ls <;> simp
  rw [unpieces_cons, List.takeWhile_append_of_pos hletters, List.dropWhile_append_of_pos hletters,
    hrest.1, hrest.2, List.append_nil]
  exact ⟨rfl, rfl⟩

/-- The first word of a description on whose first line something stands. -/
theorem splitFirstWord_of_full {l : Text} (hl : '\n' ∉ l) (hfull : allBlank l = false)
    (ls : List Text) :
    splitFirstWord (unpieces (l :: ls)) = (some (firstWord (trimStart l)),
      unpieces (trimStart (afterFirstWord (trimStart l)) :: ls)) := by
  obtain ⟨htake, hdrop⟩ := takeWhile_unpieces hl ls
  have hne : (trimStart l).isEmpty = false := by
    simpa using trimStart_ne_nil hfull
  simp only [splitFirstWord, htake, hdrop, hne, Bool.false_eq_true, if_false]
  rw [unpieces_cons]

/-- A description whose first line is empty has no first word. -/
theorem splitFirstWord_of_nil (ls : List Text) :
    splitFirstWord (unpieces ([] :: ls)) = (none, unpieces ([] :: ls)) := by
  have hlf : '\n' ∉ ([] : Text) := by simp
  obtain ⟨htake, -⟩ := takeWhile_unpieces hlf ls
  have hempty : (trimStart []).isEmpty = true := rfl
  simp only [splitFirstWord, htake, hempty, if_true]
  rw [unpieces_cons]
  cases ls <;> simp

/-- The lines of a type at a wrap level, with the name of the tag in front. -/
def headRow (o : Options) (name : Text) (type : TypeExpr) (level : WrapLevel) : List Text :=
  (headLines o name type level).1 :: (headLines o name type level).2

/-- A type has a first line at every level. -/
theorem headRow_ne_nil (o : Options) (name : Text) (type : TypeExpr) (level : WrapLevel) :
    headRow o name type level ≠ [] := List.cons_ne_nil _ _

/-- The lines of a tag with a type, as one row for the type and what is filled in behind its last
line. -/
theorem typedLines_eq (o : Options) (name description : Text) (type : TypeExpr) :
    typedLines o name description type =
      let word := (splitFirstWord description).1
      let row := headRow o name type (chooseLevel o name type word)
      row.dropLast ++
        fill o (withWord (row.getLast (headRow_ne_nil _ _ _ _)) word)
          (splitFirstWord description).2 := rfl

/-! ## Blank lines -/

/-- Collapsing makes no lines but empty ones. -/
theorem mem_of_mem_collapseBlank {afterBlank : Bool} {lines : List Text} {l : Text}
    (h : l ∈ collapseBlank afterBlank lines) : l = [] ∨ l ∈ lines := by
  induction lines generalizing afterBlank with
  | nil => simp [collapseBlank] at h
  | cons line lines ih =>
    rw [collapseBlank] at h
    split at h
    · rcases List.mem_append.1 h with h | h
      · cases afterBlank <;> simp_all
      · exact (ih h).imp_right (List.mem_cons_of_mem _)
    · rcases List.mem_cons.1 h with rfl | h
      · exact .inr List.mem_cons_self
      · exact (ih h).imp_right (List.mem_cons_of_mem _)

/-- A line that says something stays. -/
theorem collapseBlank_cons {l : Text} (h : allBlank l = false) (afterBlank : Bool)
    (ls : List Text) : collapseBlank afterBlank (l :: ls) = l :: collapseBlank false ls := by
  simp [collapseBlank, h]

/-- The first of several blank lines is left, as an empty one. -/
theorem collapseBlank_cons_blank {l : Text} (h : allBlank l = true) (afterBlank : Bool)
    (ls : List Text) :
    collapseBlank afterBlank (l :: ls) =
      (if afterBlank then [] else [[]]) ++ collapseBlank true ls := by
  simp [collapseBlank, h]

/-- Only what follows them collapses behind lines on each of which something stands. -/
theorem collapseBlank_append_of_forall {xs : List Text} (hne : xs ≠ [])
    (h : ∀ x ∈ xs, allBlank x = false) (afterBlank : Bool) (ys : List Text) :
    collapseBlank afterBlank (xs ++ ys) = xs ++ collapseBlank false ys := by
  induction xs generalizing afterBlank with
  | nil => exact absurd rfl hne
  | cons x xs ih =>
    obtain ⟨hx, hxs⟩ := List.forall_mem_cons.1 h
    rw [List.cons_append, collapseBlank_cons hx]
    cases xs with
    | nil => rfl
    | cons next xs =>
      rw [ih (by simp) hxs]
      rfl

/-- Collapsing takes no word. -/
theorem flatMap_words_collapseBlank (afterBlank : Bool) (ls : List Text) :
    (collapseBlank afterBlank ls).flatMap words = ls.flatMap words := by
  induction ls generalizing afterBlank with
  | nil => rfl
  | cons l ls ih =>
    cases hl : allBlank l with
    | true =>
      rw [collapseBlank_cons_blank hl, List.flatMap_append, List.flatMap_cons, ih,
        words_of_allBlank hl]
      cases afterBlank <;> simp
    | false => rw [collapseBlank_cons hl, List.flatMap_cons, List.flatMap_cons, ih]

/-- Lines that begin with something on the first collapse by themselves. -/
theorem collapseBlank_append {xs ys : List Text} (hys : ∀ y ∈ ys.head?, allBlank y = false)
    (afterBlank : Bool) :
    collapseBlank afterBlank (xs ++ ys) =
      collapseBlank afterBlank xs ++ collapseBlank false ys := by
  induction xs generalizing afterBlank with
  | nil =>
    cases ys with
    | nil => rfl
    | cons y ys =>
      have hy := hys y rfl
      rw [List.nil_append, collapseBlank_cons hy, collapseBlank_cons hy]
      rfl
  | cons x xs ih =>
    rw [List.cons_append]
    cases hx : allBlank x with
    | true => rw [collapseBlank_cons_blank hx, collapseBlank_cons_blank hx, ih, List.append_assoc]
    | false => rw [collapseBlank_cons hx, collapseBlank_cons hx, ih, List.cons_append]

/-- A property of lines on which something stands picks out the same lines. -/
theorem filter_collapseBlank {p : Text → Bool} (hp : ∀ l, allBlank l = true → p l = false)
    (afterBlank : Bool) (ls : List Text) :
    (collapseBlank afterBlank ls).filter p = ls.filter p := by
  induction ls generalizing afterBlank with
  | nil => rfl
  | cons l ls ih =>
    cases hl : allBlank l with
    | true =>
      have hempty : p [] = false := hp [] allBlank_nil
      rw [collapseBlank_cons_blank hl, List.filter_append, ih,
        List.filter_cons_of_neg (by simp [hp l hl])]
      cases afterBlank <;> simp [hempty]
    | false => rw [collapseBlank_cons hl, List.filter_cons, List.filter_cons, ih]

/-- The first of several rows that is not empty begins them all. -/
theorem head?_flatMap {α : Type} {f : α → List Text} {rows : List α} {P : Text → Prop}
    (h : ∀ a ∈ rows, ∀ l ∈ (f a).head?, P l) : ∀ l ∈ (rows.flatMap f).head?, P l := by
  induction rows with
  | nil => simp
  | cons a rows ih =>
    obtain ⟨ha, hrows⟩ := List.forall_mem_cons.1 h
    rw [List.flatMap_cons, List.head?_append]
    cases hf : (f a).head? with
    | none => simpa using ih hrows
    | some l => simpa using ha l hf

/-- Lines that have collapsed do not collapse again. -/
theorem collapseBlank_collapseBlank (afterBlank : Bool) (ls : List Text) :
    collapseBlank afterBlank (collapseBlank afterBlank ls) = collapseBlank afterBlank ls := by
  induction ls generalizing afterBlank with
  | nil => rfl
  | cons l ls ih =>
    cases hl : allBlank l with
    | true =>
      rw [collapseBlank_cons_blank hl]
      cases afterBlank with
      | true => simpa using ih true
      | false =>
        rw [if_neg (by simp), List.singleton_append, collapseBlank_cons_blank allBlank_nil, ih]
        rfl
    | false => rw [collapseBlank_cons hl, collapseBlank_cons hl, ih]

/-- Collapsing leaves a line, if there was one. -/
theorem collapseBlank_ne_nil {ls : List Text} (h : ls ≠ []) : collapseBlank false ls ≠ [] := by
  cases ls with
  | nil => exact absurd rfl h
  | cons l ls =>
    cases hl : allBlank l with
    | true => simp [collapseBlank_cons_blank hl]
    | false => simp [collapseBlank_cons hl]

/-- Lines that end with a blank one collapse to none, or to lines that end with an empty one. -/
theorem getLast?_collapseBlank {ls : List Text} (h : ∀ l ∈ ls.getLast?, allBlank l = true)
    (afterBlank : Bool) : ∀ l ∈ (collapseBlank afterBlank ls).getLast?, l = [] := by
  induction ls generalizing afterBlank with
  | nil => simp [collapseBlank]
  | cons l ls ih =>
    cases hl : allBlank l with
    | true =>
      rw [collapseBlank_cons_blank hl, List.getLast?_append]
      have hrest : ∀ k ∈ (collapseBlank true ls).getLast?, k = [] := by
        cases ls with
        | nil => simp [collapseBlank]
        | cons next ls => exact ih (by simpa using h) true
      cases hlast : (collapseBlank true ls).getLast? with
      | none => cases afterBlank <;> simp
      | some k => simpa using hrest k hlast
    | false =>
      cases ls with
      | nil => simp [hl] at h
      | cons next ls =>
        rw [collapseBlank_cons hl, List.getLast?_cons_of_ne_nil (collapseBlank_ne_nil (by simp))]
        exact ih (by simpa using h) false

/-- Lines that end with something collapse to lines that do. -/
theorem getLast?_collapseBlank_of_full {ls : List Text}
    (h : ∀ l ∈ ls.getLast?, allBlank l = false) (afterBlank : Bool) :
    ∀ l ∈ (collapseBlank afterBlank ls).getLast?, allBlank l = false := by
  cases ls using List.reverseRecOn with
  | nil => simp [collapseBlank]
  | append_singleton ls last =>
    have hlast : allBlank last = false := h last (by simp)
    have hhead : ∀ l ∈ [last].head?, allBlank l = false := by simpa using hlast
    rw [collapseBlank_append hhead, collapseBlank_cons hlast]
    simpa [collapseBlank] using hlast

end Docblock.Comment
