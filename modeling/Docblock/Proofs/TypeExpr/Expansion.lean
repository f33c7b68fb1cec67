import Mathlib.Data.List.Basic
import Docblock.Proofs.TypeExpr.Unions

/-!
# Expanded trees

With expansion `?T` is written as `null | T`. That is a union, and where the type stood, a union may
not be able to stand: the `|` then ends the type around it instead. `Expandable place t` says that
this happens nowhere in `t`: every nullable type stands where a whole type is read, or is a branch
itself, so that its two branches go to the union around it.

`TypeExpr.expanded` is the tree that a reader makes of the expanded form of an expandable one: the
arranged tree with every union flat. It can be read where the tree could (`Expandable.fits`). A
nullable type is expanded as a union of it alone (`expanded_nullable`), so each law has one lemma
for unions, about `expandedBranches`, which its induction uses twice.

Which types are not expandable can be read off the definition: a nullable type as the member of a
constant, or as the result of a callable that is itself a branch. Nothing is said of them here; what
they are read back as is in `Docblock.Proofs.TypeExpr.Regrouping`, which needs no such condition.
-/

namespace Docblock

open TypeExpr

namespace TypeExpr

/-! ## The expanded tree -/

/-- The branches that a branch of a union makes when it is expanded. -/
def spread : TypeExpr → List TypeExpr
  | .nullable inner => [null, inner]
  | t => [t]

/-- The tree with every union flat. -/
def flattened : TypeExpr → TypeExpr := rebuild .nullable fun ts => unite (ts.flatMap branches)

/-- The tree that is read from the expanded form of a tree. -/
def expanded (t : TypeExpr) : TypeExpr := flattened (arrange true t)

/-- The branches of an expanded union. -/
def expandedBranches (ts : List TypeExpr) : List TypeExpr :=
  (nullsFirst true (ts.flatMap spread)).flatMap fun u => (expanded u).branches

/-- With expansion a nullable branch makes two, and each of them is arranged. -/
theorem arrangeBranches_eq_spread (ts : List TypeExpr) :
    arrangeBranches true ts = (ts.flatMap spread).map (arrange true) := by
  induction ts with
  | nil => rfl
  | cons t ts ih =>
    rw [List.flatMap_cons, List.map_append, ← ih]
    cases t <;> simp [arrangeBranches, spread, arrange, null]

/-- With expansion the branches of a union are spread, one `null` of them is put in front, and each
is arranged. -/
theorem arrange_union_spread (ts : List TypeExpr) :
    arrange true (.union ts) =
      .union ((nullsFirst true (ts.flatMap spread)).map (arrange true)) := by
  rw [arrange, arrangeBranches_eq_spread]
  simp [nullsFirst, List.filter_map, Function.comp_def, List.map_take]

/-- A nullable type is expanded as a union of it alone. -/
theorem arrange_nullable (inner : TypeExpr) :
    arrange true (.nullable inner) = arrange true (.union [.nullable inner]) := by
  simp [arrange, arrangeBranches]

/-- An expanded union has the branches of what its branches are spread to, expanded. -/
theorem expanded_union (ts : List TypeExpr) :
    expanded (.union ts) = unite (expandedBranches ts) := by
  rw [expanded, arrange_union_spread, flattened, rebuild_union, List.flatMap_map, List.flatMap_map]
  rfl

/-- A nullable type is expanded as the only branch of a union. -/
theorem expanded_nullable (inner : TypeExpr) :
    expanded (.nullable inner) = unite (expandedBranches [.nullable inner]) := by
  rw [← expanded_union, expanded, arrange_nullable, ← expanded]

/-- A generic type is expanded argument by argument. -/
theorem expanded_generic (base : TypeExpr) (args : List TypeExpr) :
    expanded (.generic base args) = .generic (expanded base) (args.map expanded) := by
  rw [expanded, arrange, arrangeAll_eq_map, flattened, rebuild_generic, List.map_map]
  rfl

/-- A shape is expanded entry by entry. -/
theorem expanded_shape (es : List ShapeEntry) :
    expanded (.shape es) = .shape (es.map (ShapeEntry.mapTypes expanded)) := by
  rw [expanded, arrange, arrangeEntries_eq_map, flattened, rebuild_shape, List.map_map]
  congr 2
  funext e
  cases e <;> rfl

/-- A callable is expanded parameter by parameter, and its result by itself. -/
theorem expanded_callable (callee : TypeExpr) (ps : List Parameter) (result : TypeExpr) :
    expanded (.callable callee ps result) =
      .callable (expanded callee) (ps.map (Parameter.mapType expanded)) (expanded result) := by
  rw [expanded, arrange, arrangeParameters_eq_map, flattened, rebuild_callable, List.map_map]
  congr 2
  funext p
  cases p <;> rfl

/-- There is nothing to be expanded in a `null`. -/
theorem expanded_of_isNull {t : TypeExpr} (h : t.isNull = true) : expanded t = t := by
  cases t with
  | named => rfl
  | _ => simp [isNull] at h

/-- Whether a tree stays one branch when it is expanded. -/
def isSingle : TypeExpr → Bool
  | .nullable inner => inner.isNull
  | .union _ => false
  | _ => true

/-- A nullable `null` is expanded to `null`. -/
theorem expanded_nullable_of_isNull {inner : TypeExpr} (h : inner.isNull = true) :
    expanded (.nullable inner) = null := by
  have hnull : null.isNull = true := rfl
  have honce : nullsFirst true [null, inner] = [null] := by simp [nullsFirst, h, hnull]
  rw [expanded_nullable, expandedBranches, List.flatMap_singleton, spread, honce]
  rfl

/-- A tree that stays one branch is its own branch once it is expanded. -/
theorem branches_expanded {t : TypeExpr} (h : t.isSingle = true) :
    (expanded t).branches = [expanded t] := by
  cases t with
  | nullable inner =>
    rw [expanded_nullable_of_isNull h]
    rfl
  | union => simp [isSingle] at h
  | _ => rfl

/-- A nullable branch brings a `null`, so where no `null` is every branch stands for itself. -/
theorem spread_eq_of_find?_eq_none {ts : List TypeExpr}
    (h : (ts.flatMap spread).find? isNull = none) :
    (∀ t ∈ ts, t.spread = [t]) ∧ ts.flatMap spread = ts := by
  have hnone := List.find?_eq_none.1 h
  have hspread : ∀ t ∈ ts, t.spread = [t] := by
    intro t ht
    cases t with
    | nullable inner =>
      exact absurd rfl (hnone null (List.mem_flatMap.2 ⟨_, ht, List.mem_cons_self⟩))
    | _ => rfl
  exact ⟨hspread, by rw [List.flatMap_congr hspread, List.flatMap_singleton']⟩

/-- A branch that is not spread and is no union stays one branch. -/
theorem isSingle_of_spread {t : TypeExpr} (hspread : t.spread = [t]) (hunion : t.isUnion = false) :
    t.isSingle = true := by
  cases t with
  | nullable => simp [spread] at hspread
  | union => simp [isUnion] at hunion
  | _ => rfl

/-- A union is expanded with a `null` in front, or branch by branch. -/
theorem expandedBranches_cases {ts : List TypeExpr} (hunion : ∀ t ∈ ts, t.isUnion = false) :
    (∃ u us, u.isNull = true ∧ expandedBranches ts = u :: us) ∨
      (∀ t ∈ ts, t.spread = [t]) ∧ expandedBranches ts = ts.map expanded := by
  cases hfind : (ts.flatMap spread).find? isNull with
  | some u =>
    have hnull := List.find?_some hfind
    left
    rw [expandedBranches, nullsFirst_once, hfind, Option.toList_some, List.singleton_append,
      List.flatMap_cons, expanded_of_isNull hnull, branches_eq_singleton (isUnion_of_isNull hnull)]
    exact ⟨u, _, hnull, rfl⟩
  | none =>
    obtain ⟨hspread, hflat⟩ := spread_eq_of_find?_eq_none hfind
    rw [hflat] at hfind
    have hone : ∀ t ∈ ts, (expanded t).branches = [expanded t] := fun t ht =>
      branches_expanded (isSingle_of_spread (hspread t ht) (hunion t ht))
    refine .inr ⟨hspread, ?_⟩
    rw [expandedBranches, hflat, nullsFirst_eq_self hfind, List.flatMap_congr hone,
      ← List.map_eq_flatMap]

/-- A union that begins with `null` is a union still, or `null` itself. -/
theorem isUnion_or_isNull_unite_cons {u : TypeExpr} (h : u.isNull = true) (us : List TypeExpr) :
    (unite (u :: us)).isUnion = true ∨ (unite (u :: us)).isNull = true := by
  cases us with
  | nil => exact .inr h
  | cons => exact .inl rfl

/-- What expansion makes of a nullable type or of a union is a union or `null`. -/
theorem isUnion_or_isNull_unite {ts : List TypeExpr} (hunion : ∀ t ∈ ts, t.isUnion = false)
    (hmany : 2 ≤ ts.length ∨ ∃ t ∈ ts, t.spread ≠ [t]) :
    (unite (expandedBranches ts)).isUnion = true ∨ (unite (expandedBranches ts)).isNull = true := by
  rcases expandedBranches_cases hunion with ⟨u, us, hnull, heq⟩ | ⟨hspread, heq⟩
  · rw [heq]
    exact isUnion_or_isNull_unite_cons hnull us
  · rcases hmany with hlength | ⟨t, ht, hne⟩
    · match ts, hlength with
      | _ :: _ :: _, _ =>
        rw [heq]
        exact .inl rfl
    · exact absurd (hspread t ht) hne

/-- A union or a `null` is none of the kinds that the grammar treats apart. -/
theorem kinds_of_isUnion_or_isNull {t : TypeExpr} (h : t.isUnion = true ∨ t.isNull = true) :
    t.isCallable = false ∧ t.isConditional = false ∧ t.isEllipsis = false := by
  cases t with
  | callable | conditional | ellipsis => simp [isUnion, isNull] at h
  | _ => exact ⟨rfl, rfl, rfl⟩

/-- The first branch of an expanded union is `null`, or what was its first branch. -/
theorem exists_head_expandedBranches {ts : List TypeExpr} (hne : ts ≠ [])
    (hunion : ∀ t ∈ ts, t.isUnion = false) :
    ∃ u us, expandedBranches ts = expanded u :: us ∧
      (u.isNull = true ∨ u ∈ ts.head? ∧ u.spread = [u]) := by
  rcases expandedBranches_cases hunion with ⟨u, us, hnull, heq⟩ | ⟨hspread, heq⟩
  · exact ⟨u, us, by rw [heq, expanded_of_isNull hnull], .inl hnull⟩
  · cases ts with
    | nil => exact absurd rfl hne
    | cons b bs => exact ⟨b, _, heq, .inr ⟨rfl, hspread b List.mem_cons_self⟩⟩

/-- Only a first branch that stands for itself can come to stand in front. -/
theorem standsApart_unite_expandedBranches {ts : List TypeExpr} (hne : ts ≠ [])
    (hunion : ∀ t ∈ ts, t.isUnion = false)
    (hhead : ∀ t ∈ ts.head?, t.spread = [t] → (expanded t).StandsApart) :
    (unite (expandedBranches ts)).StandsApart := by
  obtain ⟨u, us, heq, hu⟩ := exists_head_expandedBranches hne hunion
  have hapart : (expanded u).StandsApart := by
    rcases hu with hnull | ⟨hmem, hspread⟩
    · rw [expanded_of_isNull hnull]
      exact standsApart_of_isNull hnull
    · exact hhead u hmem hspread
  rw [heq]
  cases us <;> exact hapart

/-- What goes on with a `null` is what goes on with any name but `array`. -/
theorem openMarks_of_isNull {t : TypeExpr} (h : t.isNull = true) :
    t.openMarks = [.openParen, .openBracket, .openAngle, .doubleColon] := by
  cases t with
  | named name =>
    have hname : name ≠ SequenceKind.array.word := by
      rintro rfl
      exact absurd h (by decide)
    rw [openMarks, if_neg hname, List.append_nil]
  | _ => simp [isNull] at h

/-- What may own a member may so when it is expanded. -/
theorem isOwner_expanded {t : TypeExpr} (h : t.isOwner = true) :
    t.isSingle = true ∧ (expanded t).isOwner = true := by
  cases t with
  | named | generic => exact ⟨rfl, rfl⟩
  | _ => simp [isOwner] at h

/-- A primary is one when it is expanded. -/
theorem isPrimary_expanded {t : TypeExpr} (h : t.isPrimary = true) :
    t.isSingle = true ∧ (expanded t).isPrimary = true := by
  cases t with
  | nullable | arrayOf | union | callable | conditional | qualified => simp [isPrimary] at h
  | _ => exact ⟨rfl, rfl⟩

/-- What takes square brackets takes them when it is expanded. -/
theorem takesBrackets_expanded {t : TypeExpr} (h : t.takesBrackets = true) :
    t.isSingle = true ∧ (expanded t).takesBrackets = true := by
  cases t with
  | nullable | constant | union | callable | conditional | qualified =>
    simp [takesBrackets, isPrimary] at h
  | _ => exact ⟨rfl, rfl⟩

end TypeExpr

/-! ## What expansion keeps -/

/-- A branch is no union. -/
theorem WellFormed.isUnion_eq_false {t : TypeExpr} (h : WellFormed .branch t) :
    t.isUnion = false := by
  cases h with
  | union hplace => exact absurd rfl hplace
  | _ => rfl

/-- Expansion makes no callable, no conditional and no ellipsis of another type, nor takes one away.
-/
theorem WellFormed.kinds_expanded {place : TypePlace} {t : TypeExpr} (h : WellFormed place t) :
    (expanded t).isCallable = t.isCallable ∧ (expanded t).isConditional = t.isConditional ∧
      (expanded t).isEllipsis = t.isEllipsis := by
  cases h with
  | @nullable _ inner =>
    rw [expanded_nullable]
    exact kinds_of_isUnion_or_isNull (isUnion_or_isNull_unite (by simp [isUnion])
      (.inr ⟨_, List.mem_cons_self, by simp [spread]⟩))
  | union _ hlength hwf =>
    rw [expanded_union]
    exact kinds_of_isUnion_or_isNull (isUnion_or_isNull_unite
      (fun t ht => (hwf t ht).isUnion_eq_false) (.inl hlength))
  | _ => exact ⟨rfl, rfl, rfl⟩

/-- Expansion brings neither a parenthesis nor the word `is` to the front of a tree. -/
theorem WellFormed.standsApart_expanded {place : TypePlace} {t : TypeExpr} (h : WellFormed place t)
    (ht : t.StandsApart) : (expanded t).StandsApart := by
  induction h with
  | nullable =>
    rw [expanded_nullable]
    exact standsApart_unite_expandedBranches (by simp) (by simp [isUnion]) (by simp [spread])
  | @union _ ts _ hlength hwf _ ih =>
    rw [expanded_union]
    refine standsApart_unite_expandedBranches (by rintro rfl; simp at hlength)
      (fun t ht => (hwf t ht).isUnion_eq_false) fun b hb _ => ?_
    cases ts with
    | nil => simp at hb
    | cons c cs =>
      cases hb
      exact ih b List.mem_cons_self ht
  | generic | named | group => exact ht
  | constant _ _ _ ih _ => exact ih ht
  | arrayOf _ _ ih => exact ih ht
  | callable _ _ _ _ _ _ ih _ _ => exact ih ht
  | conditional _ _ _ _ _ _ ih _ _ _ => exact ih ht
  | shape | record | sequence | literal | ellipsis => exact trivial

/-- A branch can stand where more than a branch can. -/
theorem WellFormed.of_branch {t : TypeExpr} (h : WellFormed .branch t) (place : TypePlace) :
    WellFormed place t := by
  generalize hbranch : TypePlace.branch = p at h
  induction h with
  | nullable hinner => exact .nullable hinner
  | named hname => exact .named hname
  | generic hname harray hlist hne hwf hqualifies =>
    exact .generic hname harray hlist hne hwf hqualifies
  | constant howner hwf hmember => exact .constant howner hwf hmember
  | shape hvalue hkey => exact .shape hvalue hkey
  | record hkey hvalue => exact .record hkey hvalue
  | sequence hitem => exact .sequence hitem
  | arrayOf htakes hitem => exact .arrayOf htakes hitem
  | union hplace => exact absurd hbranch.symm hplace
  | callable hprimary hopen hcallee htypes hnames _ _ _ ih =>
    exact .callable hprimary hopen hcallee htypes hnames (ih hbranch)
  | literal hbody => exact .literal hbody
  | group hinner => exact .group hinner
  | conditional => simp at hbranch
  | ellipsis => exact .ellipsis

/-! ## Where a nullable type may stand -/

/-- Every nullable type of the tree stands where a union or its branches may: none is the member of
a constant or the result of a callable that is itself a branch, unless it is `?null`. -/
inductive Expandable : TypePlace → TypeExpr → Prop
  | nullable {place inner} : Expandable .branch inner → Expandable place (.nullable inner)
  | named {place name} : Expandable place (.named name)
  | generic {place base args} : (∀ a ∈ args, Expandable .inner a.target) →
      Expandable place (.generic base args)
  | constant {place owner member} : Expandable .branch owner → Expandable .branch member →
      member.isSingle = true → Expandable place (.constant owner member)
  | shape {place entries} : (∀ e ∈ entries, Expandable .inner e.value) →
      (∀ e ∈ entries, ∀ key ∈ e.key?, Expandable .inner key) → Expandable place (.shape entries)
  | record {place key value} : Expandable .inner key → Expandable .inner value →
      Expandable place (.record key value)
  | sequence {place kind item} : Expandable .inner item → Expandable place (.sequence kind item)
  | arrayOf {place item} : Expandable .branch item → Expandable place (.arrayOf item)
  | union {place ts} : (∀ t ∈ ts, ∀ u ∈ t.spread, Expandable .branch u) →
      Expandable place (.union ts)
  | callable {place callee ps result} : Expandable .branch callee →
      (∀ p ∈ ps, Expandable .inner p.type) → Expandable place result →
      (place = .branch → result.isSingle = true) → Expandable place (.callable callee ps result)
  | literal {place quote body} : Expandable place (.literal quote body)
  | group {place inner} : Expandable .inner inner → Expandable place (.group inner)
  | conditional {subject bound consequent alternative} : Expandable .inner subject →
      Expandable .inner bound → Expandable .inner consequent → Expandable .inner alternative →
      Expandable .inner (.conditional subject bound consequent alternative)
  | ellipsis {place} : Expandable place .ellipsis

/-- Where a tree stays one branch, expansion does not touch its right end. -/
theorem Expandable.openMarks_expanded {place : TypePlace} {t : TypeExpr} (h : Expandable place t)
    (hplace : place = .branch) (hsingle : t.isSingle = true) :
    (expanded t).openMarks = t.openMarks := by
  induction h with
  | @nullable _ inner =>
    have hnull : inner.isNull = true := hsingle
    rw [expanded_nullable_of_isNull hnull, openMarks_of_isNull rfl, openMarks,
      openMarks_of_isNull hnull]
  | constant _ _ hmember _ ih =>
    exact congrArg ([Mark.openParen, .openBracket] ++ ·) (ih rfl hmember)
  | callable _ _ _ hresult _ _ ih => exact ih hplace (hresult hplace)
  | union => simp [isSingle] at hsingle
  | conditional => simp at hplace
  | _ => rfl

/-- What the rule of a primary takes behind it is not changed by expansion. -/
theorem Expandable.primaryMarks_expanded {place : TypePlace} {t : TypeExpr} (h : Expandable place t)
    (hprimary : t.isPrimary = true) : (expanded t).primaryMarks = t.primaryMarks := by
  cases h with
  | constant _ hmember hsingle => exact hmember.openMarks_expanded rfl hsingle
  | nullable | union | callable | conditional | arrayOf => simp [isPrimary] at hprimary
  | _ => rfl

/-! ## The expanded tree is well-formed -/

/-- A tree can be read at a place, or where one branch is read, branch by branch. -/
structure Fits (place : TypePlace) (t : TypeExpr) : Prop where
  whole : place ≠ .branch → WellFormed place t
  branches : place = .branch → t.branches ≠ [] ∧ ∀ b ∈ t.branches, WellFormed .branch b

/-- Inside another type, fitting is being well-formed. -/
theorem Fits.inner {t : TypeExpr} (h : Fits .inner t) : WellFormed .inner t := h.whole (by decide)

/-- What is well-formed at a place fits there. -/
theorem WellFormed.fits {place : TypePlace} {t : TypeExpr} (h : WellFormed place t) :
    Fits place t := by
  refine ⟨fun _ => h, ?_⟩
  rintro rfl
  rw [branches_eq_singleton h.isUnion_eq_false]
  exact ⟨List.cons_ne_nil _ _, List.forall_mem_singleton.2 h⟩

/-- A tree that stays one branch is well-formed where it fits. -/
theorem Fits.wellFormed {place : TypePlace} {t : TypeExpr} (h : Fits place (expanded t))
    (hsingle : place = .branch → t.isSingle = true) : WellFormed place (expanded t) := by
  by_cases hplace : place = .branch
  · have hbranches := (h.branches hplace).2
    rw [branches_expanded (hsingle hplace), List.forall_mem_singleton] at hbranches
    exact hplace ▸ hbranches
  · exact h.whole hplace

/-- Branches that can be read as branches fit any place as a union, if the first is no callable. -/
theorem fits_unite (place : TypePlace) {ts : List TypeExpr} (hne : ts ≠ [])
    (hwf : ∀ t ∈ ts, WellFormed .branch t) (hhead : ∀ t ∈ ts.head?, t.isCallable = false) :
    Fits place (unite ts) := by
  constructor
  · intro hplace
    match ts with
    | [] => exact absurd rfl hne
    | [t] => exact (hwf t List.mem_cons_self).of_branch place
    | _ :: _ :: _ => exact .union hplace (by simp) hwf hhead
  · intro _
    rw [branches_unite fun t ht => (hwf t ht).isUnion_eq_false]
    exact ⟨hne, hwf⟩

/-- A union fits anywhere when it is expanded, if its branches do. -/
theorem fits_unite_expandedBranches (place : TypePlace) {ts : List TypeExpr} (hne : ts ≠ [])
    (hwf : ∀ t ∈ ts, WellFormed .branch t) (hhead : ∀ t ∈ ts.head?, t.isCallable = false)
    (h : ∀ t ∈ ts, ∀ u ∈ t.spread, Fits .branch (expanded u)) :
    Fits place (unite (expandedBranches ts)) := by
  obtain ⟨u, us, heq, hu⟩ :=
    exists_head_expandedBranches hne fun t ht => (hwf t ht).isUnion_eq_false
  refine fits_unite place (by simp [heq]) ?_ ?_
  · intro b hb
    obtain ⟨v, hv, hb⟩ := List.mem_flatMap.1 hb
    obtain ⟨t, ht, hv⟩ := List.mem_flatMap.1 (mem_of_mem_nullsFirst hv)
    exact ((h t ht v hv).branches rfl).2 b hb
  · rw [heq]
    rintro _ ⟨⟩
    rcases hu with hnull | ⟨hmem, -⟩
    · rw [expanded_of_isNull hnull]
      exact (kinds_of_isUnion_or_isNull (.inr hnull)).1
    · rw [(hwf u (List.mem_of_head? hmem)).kinds_expanded.1]
      exact hhead u hmem

/-- A `null` can be read anywhere. -/
theorem wellFormed_null (place : TypePlace) : WellFormed place null :=
  .named (.inr (.inr ⟨"null".toList, by decide, by decide, rfl⟩))

/-- What a branch is spread to can be read as branches. -/
theorem WellFormed.of_mem_spread {t u : TypeExpr} (h : WellFormed .branch t) (hu : u ∈ t.spread) :
    WellFormed .branch u := by
  cases t with
  | nullable inner =>
    rcases List.mem_pair.1 hu with rfl | rfl
    · exact wellFormed_null .branch
    · cases h with
      | nullable hinner => exact hinner
  | _ => exact List.mem_singleton.1 hu ▸ h

/-- An argument stays one with its target expanded. -/
theorem argument_expanded {a : TypeExpr} (hwf : WellFormed .inner a.target)
    (hqualifies : a.QualifiesWell) (h : WellFormed .inner (expanded a.target)) :
    WellFormed .inner (expanded a).target ∧ (expanded a).QualifiesWell := by
  cases a with
  | qualified modifier target =>
    obtain ⟨⟨name, rfl, hname⟩, hapart⟩ := hqualifies
    exact ⟨h, ⟨name, rfl, hname⟩, hwf.standsApart_expanded hapart⟩
  | _ => exact ⟨h.target_eq.1.symm ▸ h, h.target_eq.2⟩

/-- The expanded tree of an expandable one fits where the tree stands. -/
theorem Expandable.fits {place : TypePlace} {t : TypeExpr} (h : Expandable place t)
    (hwf : WellFormed place t) : Fits place (expanded t) := by
  induction h with
  | @nullable place inner _ ih =>
    cases hwf with
    | nullable hinner =>
      rw [expanded_nullable]
      refine fits_unite_expandedBranches place (by simp)
        (List.forall_mem_singleton.2 (.nullable hinner)) (by simp [isCallable]) ?_
      refine List.forall_mem_singleton.2 (List.forall_mem_cons.2 ⟨?_, ?_⟩)
      · exact (wellFormed_null .branch).fits
      · exact List.forall_mem_singleton.2 (ih hinner)
  | named =>
    cases hwf with
    | named hname => exact (WellFormed.named hname).fits
  | @generic place base args _ ih =>
    cases hwf with
    | generic hname harray hlist hne hargs hqualifies =>
      rw [expanded_generic]
      have harguments := fun a ha => argument_expanded (hargs a ha) (hqualifies a ha)
        (ih a ha (hargs a ha)).inner
      exact WellFormed.fits (.generic hname harray hlist (by simpa using hne)
        (List.forall_mem_map.2 fun a ha => (harguments a ha).1)
        (List.forall_mem_map.2 fun a ha => (harguments a ha).2))
  | constant _ _ hsingle ih₁ ih₂ =>
    cases hwf with
    | constant howner hwf hmember =>
      obtain ⟨hsingle', howner'⟩ := isOwner_expanded howner
      -- the member is one branch by what makes a constant expandable, the owner always is
      exact WellFormed.fits (.constant howner' ((ih₁ hwf).wellFormed fun _ => hsingle')
        ((ih₂ hmember).wellFormed fun _ => hsingle))
  | shape _ _ ih₁ ih₂ =>
    cases hwf with
    | shape hvalue hkey =>
      rw [expanded_shape]
      obtain ⟨hvalue', hkey'⟩ := forall_mapTypes (f := expanded) (P := WellFormed .inner)
        (fun e he => (ih₁ e he (hvalue e he)).inner)
        (fun e he key hk => (ih₂ e he key hk (hkey e he key hk)).inner)
      exact WellFormed.fits (.shape hvalue' hkey')
  | record _ _ ih₁ ih₂ =>
    cases hwf with
    | record hkey hvalue =>
      exact WellFormed.fits (.record (ih₁ hkey).inner (ih₂ hvalue).inner)
  | sequence _ ih =>
    cases hwf with
    | sequence hitem => exact WellFormed.fits (.sequence (ih hitem).inner)
  | arrayOf _ ih =>
    cases hwf with
    | arrayOf htakes hitem =>
      obtain ⟨hsingle, htakes'⟩ := takesBrackets_expanded htakes
      exact WellFormed.fits (.arrayOf htakes' ((ih hitem).wellFormed fun _ => hsingle))
  | @union place ts _ ih =>
    cases hwf with
    | union hplace hlength hwf hhead =>
      have hne : ts ≠ [] := by
        rintro rfl
        simp at hlength
      rw [expanded_union]
      exact fits_unite_expandedBranches place hne hwf hhead fun t ht u hu =>
        ih t ht u hu ((hwf t ht).of_mem_spread hu)
  | callable hcallee _ _ hsingle ih₁ ih₂ ih₃ =>
    cases hwf with
    | callable hprimary hopen hwf htypes hnames hresult =>
      rw [expanded_callable]
      obtain ⟨hsingle', hprimary'⟩ := isPrimary_expanded hprimary
      obtain ⟨htypes', hnames'⟩ := forall_mapType (f := expanded) (P := WellFormed .inner)
        (fun p hp => (ih₂ p hp (htypes p hp)).inner) hnames
      -- no parenthesis may be open behind the callee, and its open marks stay what they were
      rw [← hcallee.primaryMarks_expanded hprimary] at hopen
      exact WellFormed.fits (.callable hprimary' hopen ((ih₁ hwf).wellFormed fun _ => hsingle')
        htypes' hnames' ((ih₃ hresult).wellFormed hsingle))
  | literal =>
    cases hwf with
    | literal hbody => exact (WellFormed.literal hbody).fits
  | group _ ih =>
    cases hwf with
    | group hinner => exact WellFormed.fits (.group (ih hinner).inner)
  | conditional _ _ _ _ ih₁ ih₂ ih₃ ih₄ =>
    cases hwf with
    | conditional hcallable hconditional hsubject hbound hconsequent halternative =>
      have hkinds := hsubject.kinds_expanded
      exact WellFormed.fits (.conditional (hkinds.1.trans hcallable)
        (hkinds.2.1.trans hconditional) (ih₁ hsubject).inner (ih₂ hbound).inner
        (ih₃ hconsequent).inner (ih₄ halternative).inner)
  | ellipsis => exact WellFormed.ellipsis.fits

end Docblock
