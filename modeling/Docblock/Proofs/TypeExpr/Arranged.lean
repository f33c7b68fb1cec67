import Docblock.Proofs.TypeExpr.Shape
import Docblock.TypeExpr.Nulls

/-!
# Arranged trees

Moving the `null` branches of every union to the front keeps a tree well-formed
(`WellFormed.arrange`), and doing it once is enough (`WellFormed.arrange_arrange`). Only a union can
get another first or last branch. A new first branch is `null`, which never stands in the way of
what is in front of it; a new last branch follows one that was `null`, and of all marks only an
opening brace goes on with a tree but not with `null` (`WellFormed.endsBefore_arrange`).

The module is about arranging without expansion, where it does no more than reorder the branches of
unions. What expansion adds to it is in `Docblock.Proofs.TypeExpr.Expansion` and the modules after
it. The exception at the right end is real: `array|null` ends with `null`, its arranged form with a
bare `array`, and a brace behind it is read as a shape. The laws about comments leave such
descriptions out by hypothesis.
-/

namespace Docblock

open TypeExpr

/-- An entry with its types changed. -/
def ShapeEntry.mapTypes (f : TypeExpr → TypeExpr) : ShapeEntry → ShapeEntry
  | .positional value => .positional (f value)
  | .keyed key isOptional value => .keyed (f key) isOptional (f value)

/-- A parameter with its type changed. -/
def Parameter.mapType (f : TypeExpr → TypeExpr) : Parameter → Parameter
  | .unnamed type => .unnamed (f type)
  | .named type name => .named (f type) name

namespace TypeExpr

/-! ## Lists of trees -/

section Equations

attribute [local simp] arrange arrangeAll arrangeBranches arrangeEntries arrangeParameters

/-- Several types are arranged each for itself. -/
theorem arrangeAll_eq_map (expand : Bool) (ts : List TypeExpr) :
    arrangeAll expand ts = ts.map (arrange expand) := by
  induction ts with
  | nil => rfl
  | cons t ts ih => rw [arrangeAll, ih, List.map_cons]

/-- Without expansion branches are arranged each for itself. -/
theorem arrangeBranches_eq_map (ts : List TypeExpr) :
    arrangeBranches false ts = ts.map (arrange false) := by
  induction ts with
  | nil => rfl
  | cons t ts ih => cases t <;> simp [ih]

/-- The types of several entries are arranged each for itself. -/
theorem arrangeEntries_eq_map (expand : Bool) (es : List ShapeEntry) :
    arrangeEntries expand es = es.map (ShapeEntry.mapTypes (arrange expand)) := by
  induction es with
  | nil => rfl
  | cons e es ih => cases e <;> simp [ShapeEntry.mapTypes, ih]

/-- The types of several parameters are arranged each for itself. -/
theorem arrangeParameters_eq_map (expand : Bool) (ps : List Parameter) :
    arrangeParameters expand ps = ps.map (Parameter.mapType (arrange expand)) := by
  induction ps with
  | nil => rfl
  | cons p ps ih => cases p <;> simp [Parameter.mapType, ih]

end Equations

/-! ## What arranging keeps -/

/-- Arranging makes no `null` and takes none away. -/
@[simp] theorem isNull_arrange (expand : Bool) (t : TypeExpr) :
    (arrange expand t).isNull = t.isNull := by
  cases expand <;> cases t <;> rfl

/-- Arranging makes no callable of another type. -/
@[simp] theorem isCallable_arrange (t : TypeExpr) :
    (arrange false t).isCallable = t.isCallable := by
  cases t <;> rfl

/-- Arranging makes no conditional of another type. -/
@[simp] theorem isConditional_arrange (t : TypeExpr) :
    (arrange false t).isConditional = t.isConditional := by
  cases t <;> rfl

/-- Arranging keeps whether a type may own a member. -/
@[simp] theorem isOwner_arrange (t : TypeExpr) : (arrange false t).isOwner = t.isOwner := by
  cases t <;> rfl

/-- Arranging keeps whether a type is a primary. -/
@[simp] theorem isPrimary_arrange (t : TypeExpr) : (arrange false t).isPrimary = t.isPrimary := by
  cases t <;> rfl

/-- Arranging keeps whether square brackets may follow. -/
@[simp] theorem takesBrackets_arrange (t : TypeExpr) :
    (arrange false t).takesBrackets = t.takesBrackets := by
  cases t <;> rfl

/-- A modifier stays in front of its target. -/
theorem target_arrange (t : TypeExpr) : (arrange false t).target = arrange false t.target := by
  cases t <;> rfl

/-! ## Branches with the `null` ones in front -/

/-- The branches that are `null` come first, and each kind keeps its order. -/
theorem nullsFirst_eq (branches : List TypeExpr) :
    nullsFirst false branches = branches.filter isNull ++ branches.filter (!·.isNull) := rfl

/-- Moving nulls to the front brings no other branch. -/
theorem mem_of_mem_nullsFirst {once : Bool} {branches : List TypeExpr} {b : TypeExpr}
    (h : b ∈ nullsFirst once branches) : b ∈ branches := by
  rw [nullsFirst, List.mem_append] at h
  rcases h with h | h
  · cases once with
    | true => exact (List.mem_filter.1 (List.mem_of_mem_take h)).1
    | false => exact (List.mem_filter.1 h).1
  · exact (List.mem_filter.1 h).1

/-- Moving nulls to the front keeps all branches. -/
@[simp] theorem mem_nullsFirst {branches : List TypeExpr} {b : TypeExpr} :
    b ∈ nullsFirst false branches ↔ b ∈ branches := by
  rw [nullsFirst_eq, List.mem_append, List.mem_filter, List.mem_filter]
  cases b.isNull <;> simp

/-- Moving nulls to the front keeps the number of branches. -/
@[simp] theorem length_nullsFirst (branches : List TypeExpr) :
    (nullsFirst false branches).length = branches.length := by
  rw [nullsFirst_eq]
  exact (List.filter_append_perm isNull branches).length_eq

/-- Nulls that are in front stay there. -/
theorem nullsFirst_nullsFirst (branches : List TypeExpr) :
    nullsFirst false (nullsFirst false branches) = nullsFirst false branches := by
  have hnone : branches.filter (fun _ => false) = [] := List.filter_eq_nil_iff.2 (by simp)
  simp only [nullsFirst_eq, List.filter_append, List.filter_filter]
  simp [hnone]

/-- The first branch stays in front, or a `null` takes its place. -/
theorem head?_nullsFirst {branches : List TypeExpr} {b : TypeExpr}
    (h : b ∈ (nullsFirst false branches).head?) : b.isNull = true ∨ b ∈ branches.head? := by
  rw [nullsFirst_eq] at h
  cases hnulls : branches.filter isNull with
  | nil =>
    have hall : branches.filter (!·.isNull) = branches := by
      rw [List.filter_eq_self]
      intro x hx
      have := List.filter_eq_nil_iff.1 hnulls x hx
      simpa using this
    rw [hnulls, hall] at h
    exact .inr h
  | cons c cs =>
    rw [hnulls] at h
    cases h
    have hmem : b ∈ branches.filter isNull := by simp [hnulls]
    exact .inl (List.mem_filter.1 hmem).2

/-- The last branch stays behind, unless it is `null`. -/
theorem getLast?_nullsFirst {branches : List TypeExpr} {b c : TypeExpr}
    (hb : b ∈ (nullsFirst false branches).getLast?) (hc : c ∈ branches.getLast?) :
    c.isNull = true ∨ b = c := by
  obtain ⟨init, rfl⟩ := List.getLast?_eq_some_iff.1 hc
  cases hnull : c.isNull with
  | true => exact .inl rfl
  | false =>
    refine .inr ?_
    simpa [nullsFirst_eq, hnull] using hb.symm

/-- A union is arranged by arranging its branches and moving the nulls to the front. -/
theorem arrange_union (branches : List TypeExpr) :
    arrange false (.union branches) =
      .union (nullsFirst false (branches.map (arrange false))) := by
  rw [arrange, arrangeBranches_eq_map]

/-- What goes on with a union is what goes on with its last branch. -/
theorem openMarksLast_eq {branches : List TypeExpr} {c : TypeExpr} (h : c ∈ branches.getLast?) :
    openMarksLast branches = c.openMarks := by
  induction branches with
  | nil => simp at h
  | cons b bs ih =>
    cases bs with
    | nil =>
      cases h
      rfl
    | cons d ds =>
      rw [openMarksLast]
      exact ih (by simpa using h)

/-- A `null` may follow a modifier. -/
theorem standsApart_of_isNull {t : TypeExpr} (h : t.isNull = true) : t.StandsApart := by
  cases t with
  | named name =>
    show name ≠ ['i', 's']
    rintro rfl
    exact absurd h (by decide)
  | _ => simp [isNull] at h

end TypeExpr

/-! ## Well-formed trees -/

/-- Where no union can stand, arranging does not touch the right end of a tree. -/
theorem WellFormed.openMarks_arrange {place : TypePlace} {t : TypeExpr} (h : WellFormed place t)
    (hplace : place = .branch) : (arrange false t).openMarks = t.openMarks := by
  induction h with
  | nullable _ ih => exact ih rfl
  | named => rfl
  | generic => rfl
  | constant _ _ _ _ ih =>
    rw [arrange, openMarks, ih rfl, openMarks]
  | shape => rfl
  | record => rfl
  | sequence => rfl
  | arrayOf => rfl
  | union hne => exact absurd hplace hne
  | callable _ _ _ _ _ _ _ _ ih =>
    rw [arrange, openMarks, ih hplace, openMarks]
  | literal => rfl
  | group => rfl
  | conditional => simp at hplace
  | ellipsis => rfl

/-- What the rule of a primary takes behind it is not changed by arranging. -/
theorem WellFormed.primaryMarks_arrange {place : TypePlace} {t : TypeExpr}
    (h : WellFormed place t) :
    (arrange false t).primaryMarks = t.primaryMarks := by
  cases h with
  | constant _ _ hmember => exact hmember.openMarks_arrange rfl
  | _ => rfl

/-- Arranging does not bring a parenthesis or the word `is` to the front of a tree. -/
theorem WellFormed.standsApart_arrange {place : TypePlace} {t : TypeExpr} (h : WellFormed place t)
    (ht : t.StandsApart) : (arrange false t).StandsApart := by
  induction h with
  | nullable => exact trivial
  | named => exact ht
  | generic => exact ht
  | constant _ _ _ ih _ => exact ih ht
  | shape => exact trivial
  | record => exact trivial
  | sequence => exact trivial
  | arrayOf _ _ ih => exact ih ht
  | @union place branches _ hlength _ _ ih =>
    rw [arrange_union]
    have hlength' := length_nullsFirst (branches.map (arrange false))
    cases hfirst : nullsFirst false (branches.map (arrange false)) with
    | nil =>
      rw [hfirst, List.length_map, List.length_nil] at hlength'
      omega
    | cons b bs =>
      show b.StandsApart
      rcases head?_nullsFirst (b := b) (by rw [hfirst]; rfl) with hnull | hhead
      · exact standsApart_of_isNull hnull
      · cases branches with
        | nil => simp at hhead
        | cons c cs =>
          cases hhead
          exact ih c List.mem_cons_self ht
  | callable _ _ _ _ _ _ ih _ _ => exact ih ht
  | literal => exact trivial
  | group => exact ht
  | conditional _ _ _ _ _ _ ih _ _ _ => exact ih ht
  | ellipsis => exact trivial

/-- What holds of the types of each entry when they are changed holds of the types of the changed
entries. -/
theorem forall_mapTypes {f : TypeExpr → TypeExpr} {es : List ShapeEntry} {P : TypeExpr → Prop}
    (hvalue : ∀ e ∈ es, P (f e.value)) (hkey : ∀ e ∈ es, ∀ key ∈ e.key?, P (f key)) :
    (∀ e ∈ es.map (ShapeEntry.mapTypes f), P e.value) ∧
      ∀ e ∈ es.map (ShapeEntry.mapTypes f), ∀ key ∈ e.key?, P key := by
  constructor
  · intro e he
    obtain ⟨e', he', rfl⟩ := List.mem_map.1 he
    have := hvalue e' he'
    cases e' <;> exact this
  · intro e he key hkey'
    obtain ⟨e', he', rfl⟩ := List.mem_map.1 he
    cases e' with
    | positional value => simp [ShapeEntry.mapTypes, ShapeEntry.key?] at hkey'
    | keyed k isOptional value =>
      cases hkey'
      exact hkey _ he' k rfl

/-- What holds of the type of each parameter when it is changed holds of the types of the changed
parameters. Their names stay. -/
theorem forall_mapType {f : TypeExpr → TypeExpr} {ps : List Parameter} {P : TypeExpr → Prop}
    {Q : Text → Prop} (htype : ∀ p ∈ ps, P (f p.type)) (hname : ∀ p ∈ ps, ∀ w ∈ p.name?, Q w) :
    (∀ p ∈ ps.map (Parameter.mapType f), P p.type) ∧
      ∀ p ∈ ps.map (Parameter.mapType f), ∀ w ∈ p.name?, Q w := by
  constructor
  · intro p hp
    obtain ⟨p', hp', rfl⟩ := List.mem_map.1 hp
    have := htype p' hp'
    cases p' <;> exact this
  · intro p hp w hw
    obtain ⟨p', hp', rfl⟩ := List.mem_map.1 hp
    have := hname p' hp' w
    cases p' <;> exact this hw

/-- An arranged tree is well-formed where the tree is. -/
theorem WellFormed.arrange {place : TypePlace} {t : TypeExpr} (h : WellFormed place t) :
    WellFormed place (arrange false t) := by
  induction h with
  | nullable _ ih => exact .nullable ih
  | named hname => exact .named hname
  | @generic place name args hname harray hlist hne hwf hqualifies ih =>
    rw [TypeExpr.arrange, arrangeAll_eq_map]
    refine .generic hname harray hlist (by simpa using hne) ?_ ?_
    · intro a ha
      obtain ⟨b, hb, rfl⟩ := List.mem_map.1 ha
      rw [target_arrange]
      exact ih b hb
    · intro a ha
      obtain ⟨b, hb, rfl⟩ := List.mem_map.1 ha
      have hq := hqualifies b hb
      cases b with
      | qualified modifier target =>
        obtain ⟨⟨name, rfl, hname⟩, hapart⟩ := hq
        exact ⟨⟨name, rfl, hname⟩, (hwf _ hb).standsApart_arrange hapart⟩
      | _ => exact trivial
  | constant howner _ _ ih₁ ih₂ => exact .constant (by simpa using howner) ih₁ ih₂
  | shape _ _ ih₁ ih₂ =>
    rw [TypeExpr.arrange, arrangeEntries_eq_map]
    obtain ⟨hvalue, hkey⟩ := forall_mapTypes (P := WellFormed .inner) ih₁ ih₂
    exact .shape hvalue hkey
  | record _ _ ih₁ ih₂ => exact .record ih₁ ih₂
  | sequence _ ih => exact .sequence ih
  | arrayOf htakes _ ih => exact .arrayOf (by simpa using htakes) ih
  | @union place branches hplace hlength _ hfirst ih =>
    rw [arrange_union]
    refine .union hplace (by simpa using hlength) ?_ ?_
    · intro b hb
      obtain ⟨c, hc, rfl⟩ := List.mem_map.1 (mem_nullsFirst.1 hb)
      exact ih c hc
    · intro b hb
      -- the first branch is now a `null`, or the one it was
      rcases head?_nullsFirst hb with hnull | hhead
      · cases b <;> simp_all [isNull, isCallable]
      · cases branches with
        | nil => simp at hhead
        | cons c cs =>
          cases hhead
          rw [isCallable_arrange]
          exact hfirst c rfl
  | callable hprimary hopen hwf _ hnames _ ih₁ ih₂ ih₃ =>
    rw [TypeExpr.arrange, arrangeParameters_eq_map]
    obtain ⟨htypes, hnames'⟩ := forall_mapType (P := WellFormed .inner) ih₂ hnames
    refine .callable (by simpa using hprimary) ?_ ih₁ htypes hnames' ih₃
    rw [hwf.primaryMarks_arrange]
    exact hopen
  | literal hbody => exact .literal hbody
  | group _ ih => exact .group ih
  | conditional hcallable hconditional _ _ _ _ ih₁ ih₂ ih₃ ih₄ =>
    exact .conditional (by simpa using hcallable) (by simpa using hconditional) ih₁ ih₂ ih₃ ih₄
  | ellipsis => exact .ellipsis

/-- Arranging a tree twice is arranging it once. -/
theorem WellFormed.arrange_arrange {place : TypePlace} {t : TypeExpr} (h : WellFormed place t) :
    TypeExpr.arrange false (TypeExpr.arrange false t) = TypeExpr.arrange false t := by
  induction h with
  | nullable _ ih => simp [TypeExpr.arrange, ih]
  | named => rfl
  | @generic place name args _ _ _ _ _ hqualifies ih =>
    simp only [TypeExpr.arrange, arrangeAll_eq_map, List.map_map]
    congr 1
    refine List.map_congr_left fun a ha => ?_
    have hq := hqualifies a ha
    have hih := ih a ha
    cases a with
    | qualified modifier target =>
      obtain ⟨⟨name, rfl, -⟩, -⟩ := hq
      exact congrArg (TypeExpr.qualified (.named name)) hih
    | _ => exact hih
  | constant _ _ _ ih₁ ih₂ => simp [TypeExpr.arrange, ih₁, ih₂]
  | shape _ _ ih₁ ih₂ =>
    simp only [TypeExpr.arrange, arrangeEntries_eq_map, List.map_map]
    congr 1
    refine List.map_congr_left fun e he => ?_
    have hvalue := ih₁ e he
    have hkey := ih₂ e he
    cases e with
    | positional value => exact congrArg ShapeEntry.positional hvalue
    | keyed key isOptional value =>
      exact congrArg₂ (ShapeEntry.keyed · isOptional ·) (hkey key rfl) hvalue
  | record _ _ ih₁ ih₂ => simp [TypeExpr.arrange, ih₁, ih₂]
  | sequence _ ih => simp [TypeExpr.arrange, ih]
  | arrayOf _ _ ih => simp [TypeExpr.arrange, ih]
  | @union place branches _ _ _ _ ih =>
    have hmap : (nullsFirst false (branches.map (TypeExpr.arrange false))).map
        (TypeExpr.arrange false) = nullsFirst false (branches.map (TypeExpr.arrange false)) := by
      refine (List.map_congr_left (g := id) fun b hb => ?_).trans (List.map_id _)
      obtain ⟨c, hc, rfl⟩ := List.mem_map.1 (mem_nullsFirst.1 hb)
      exact ih c hc
    rw [arrange_union, arrange_union, hmap, nullsFirst_nullsFirst]
  | callable _ _ _ _ _ _ ih₁ ih₂ ih₃ =>
    simp only [TypeExpr.arrange, arrangeParameters_eq_map, List.map_map, ih₁, ih₃]
    congr 1
    refine List.map_congr_left fun p hp => ?_
    have htype := ih₂ p hp
    cases p with
    | unnamed type => exact congrArg Parameter.unnamed htype
    | named type name => exact congrArg (Parameter.named · name) htype
  | literal => rfl
  | group _ ih => simp [TypeExpr.arrange, ih]
  | conditional _ _ _ _ _ _ ih₁ ih₂ ih₃ ih₄ => simp [TypeExpr.arrange, ih₁, ih₂, ih₃, ih₄]
  | ellipsis => rfl

/-- Of the marks that can go on with a tree only a brace does not go on with `null`. -/
theorem absent_of_isNull {t : TypeExpr} (ht : t.isNull = true) {k : Text}
    (hend : ∀ m ∈ t.openMarks, m.Absent k) :
    ∀ m ∈ extendingMarks, m ≠ .openBrace → m.Absent k := by
  intro m hm hbrace
  refine hend m ?_
  cases t with
  | named name =>
    have hmem : ∀ m ∈ extendingMarks, m ≠ .openBrace →
        m ∈ [Mark.openParen, .openBracket, .openAngle, .doubleColon] := by decide
    exact List.mem_append_left _ (hmem m hm hbrace)
  | _ => simp [isNull] at ht

/-- What does not go on with a tree goes on with the arranged tree by a brace at most. -/
theorem WellFormed.absent_arrange {place : TypePlace} {t : TypeExpr} (h : WellFormed place t)
    {k : Text} (hmarks : ∀ m ∈ t.openMarks, m.Absent k) :
    ∀ m ∈ (TypeExpr.arrange false t).openMarks, m ≠ .openBrace → m.Absent k := by
  induction h with
  | nullable hinner =>
    intro m hm _
    exact hmarks m (hinner.openMarks_arrange rfl ▸ hm)
  | constant howner hwf hmember =>
    intro m hm _
    have hbranch : WellFormed .branch (.constant _ _) := .constant howner hwf hmember
    rw [hbranch.openMarks_arrange rfl] at hm
    exact hmarks m hm
  | @union place branches _ hlength hwf _ _ =>
    have hne : branches ≠ [] := by
      rintro rfl
      simp at hlength
    obtain ⟨c, hc⟩ : ∃ c, c ∈ branches.getLast? := ⟨_, List.getLast?_eq_some_getLast hne⟩
    have hwfLast := hwf c (List.mem_of_getLast? hc)
    have hne' : nullsFirst false (branches.map (TypeExpr.arrange false)) ≠ [] := by
      rw [← List.length_pos_iff, length_nullsFirst]
      simpa using List.length_pos_iff.2 hne
    obtain ⟨b, hb⟩ : ∃ b, b ∈ (nullsFirst false _).getLast? :=
      ⟨_, List.getLast?_eq_some_getLast hne'⟩
    have hmapped : TypeExpr.arrange false c ∈ (branches.map (TypeExpr.arrange false)).getLast? := by
      rw [List.getLast?_map, Option.mem_def.1 hc]
      rfl
    rw [arrange_union, openMarks, openMarksLast_eq hb]
    rw [openMarks, openMarksLast_eq hc] at hmarks
    -- the last branch is the one it was, unless that is a `null`, which goes to the front
    rcases getLast?_nullsFirst hb hmapped with hnull | rfl
    · obtain ⟨d, hd, rfl⟩ := List.mem_map.1 (mem_nullsFirst.1 (List.mem_of_getLast? hb))
      intro m hm
      exact absent_of_isNull (by simpa using hnull) hmarks m
        ((hwf d hd).arrange.openMarks_subset hm)
    · rw [hwfLast.openMarks_arrange rfl]
      exact fun m hm _ => hmarks m hm
  | callable _ _ _ _ _ _ _ _ ih => exact ih hmarks
  | conditional _ _ _ _ _ _ _ _ _ ih => exact ih hmarks
  | _ => exact fun m hm _ => hmarks m hm

/-- The arranged tree ends where the tree does, unless an opening brace stands there that goes on
with it. -/
theorem WellFormed.endsBefore_arrange {place : TypePlace} {t : TypeExpr} (h : WellFormed place t)
    {k : Text} (hend : EndsBefore place t k)
    (hbrace : .openBrace ∈ (TypeExpr.arrange false t).openMarks → Mark.openBrace.Absent k) :
    EndsBefore place (TypeExpr.arrange false t) k := by
  refine ⟨fun m hm => ?_, hend.noBranch, hend.noClause⟩
  by_cases hm' : m = .openBrace
  · subst hm'
    exact hbrace hm
  · exact h.absent_arrange hend.marks m hm hm'

end Docblock
