import Docblock.Proofs.TypeExpr.Expansion
import Docblock.Proofs.TypeExpr.Gaps
import Docblock.Proofs.TypeExpr.RoundTrip

/-!
# The meaning of an expanded type

Writing `null | T` for `?T` keeps what a type means, as long as the tree is expandable: the expanded
form on one line is read back with nothing left, and the tree that is read has the normal form of
the tree that was written, with its nullable types spelled out (`parse_expanded_lines`). The reader
gives the expanded tree, since it is written as the arranged one is (`Expandable.written_expanded`)
and is well-formed; and it has the right normal form (`Expandable.normalForm_expanded`).

A tree that is not expandable can change its meaning (`parse_expanded_lines_result`).

The text that is read back is the type on one line, with nothing behind it. That it means the same
is said of every expandable type; of the other types the example shows one that does not, where a
`?` in the result of a callable gives its second branch to the union around the callable.
-/

namespace Docblock

open TypeExpr

/-! ## The expanded tree is written as the tree is -/

/-- Two rows with separators are joined by one more. -/
theorem intercalate_append {α : Type} {sep : List α} {xs ys : List (List α)} (hxs : xs ≠ [])
    (hys : ys ≠ []) :
    sep.intercalate (xs ++ ys) = sep.intercalate xs ++ sep ++ sep.intercalate ys := by
  induction xs with
  | nil => exact absurd rfl hxs
  | cons x xs ih =>
    cases xs with
    | nil =>
      cases ys with
      | nil => exact absurd rfl hys
      | cons y ys => simp
    | cons x' xs =>
      rw [List.cons_append, List.cons_append, List.intercalate_cons_cons, ← List.cons_append,
        ih (List.cons_ne_nil _ _), List.intercalate_cons_cons]
      simp only [List.append_assoc]

/-- Rows that are put together from rows. -/
theorem intercalate_flatMap {α β : Type} {sep : List α} {f : β → List (List α)} {xs : List β}
    (h : ∀ x ∈ xs, f x ≠ []) :
    sep.intercalate (xs.flatMap f) = sep.intercalate (xs.map fun x => sep.intercalate (f x)) := by
  induction xs with
  | nil => rfl
  | cons x xs ih =>
    obtain ⟨hx, hxs⟩ := List.forall_mem_cons.1 h
    cases xs with
    | nil => simp
    | cons y ys =>
      have hne : (y :: ys).flatMap f ≠ [] := by
        simp [(List.forall_mem_cons.1 hxs).1]
      rw [List.flatMap_cons, intercalate_append hx hne, ih hxs, List.map_cons, List.map_cons,
        List.map_cons, List.intercalate_cons_cons]

section Written

variable (level : WrapLevel) (unit : Text)

/-- A tree is written as its branches with bars between, also if it is no union. -/
theorem written_branches (depth : Nat) (t : TypeExpr) : written level unit depth t =
    [' ', '|', ' '].intercalate (t.branches.map (written level unit depth)) := by
  cases t with
  | union ts => exact written_union level unit depth ts
  | _ => simp [branches]

/-- Several trees are written as a union with bars between, also if there is only one. -/
theorem written_unite (depth : Nat) (ts : List TypeExpr) : written level unit depth (unite ts) =
    [' ', '|', ' '].intercalate (ts.map (written level unit depth)) := by
  match ts with
  | [t] => simp [unite]
  | [] | _ :: _ :: _ => exact written_union level unit depth _

/-- An expanded union is written as the arranged one is, if its branches are. -/
theorem written_unite_expandedBranches (depth : Nat) {ts : List TypeExpr}
    (hne : ∀ t ∈ ts, ∀ u ∈ t.spread, (expanded u).branches ≠ [])
    (h : ∀ t ∈ ts, ∀ u ∈ t.spread,
      written level unit depth (expanded u) = written level unit depth (arrange true u)) :
    written level unit depth (unite (expandedBranches ts)) =
      written level unit depth (arrange true (.union ts)) := by
  have hspread : ∀ u ∈ nullsFirst true (ts.flatMap spread), ∃ t ∈ ts, u ∈ t.spread :=
    fun u hu => List.mem_flatMap.1 (mem_of_mem_nullsFirst hu)
  rw [arrange_union_spread, written_unite, written_union, expandedBranches, List.map_flatMap,
    intercalate_flatMap, List.map_map]
  · refine congrArg _ (List.map_congr_left fun u hu => ?_)
    obtain ⟨t, ht, hu⟩ := hspread u hu
    rw [← written_branches, Function.comp_apply, h t ht u hu]
  · intro u hu
    obtain ⟨t, ht, hu⟩ := hspread u hu
    simpa using hne t ht u hu

/-- An argument is written as the arranged one is, if its target is. -/
theorem written_expanded_argument (depth : Nat) {a : TypeExpr} (hqualifies : a.QualifiesWell)
    (h : written level unit depth (expanded a.target) =
      written level unit depth (arrange true a.target)) :
    written level unit depth (expanded a) = written level unit depth (arrange true a) := by
  cases a with
  | qualified modifier target =>
    obtain ⟨⟨name, rfl, -⟩, -⟩ := hqualifies
    have htarget : written level unit depth (expanded target) =
      written level unit depth (arrange true target) := h
    show written level unit depth (.qualified (.named name) (expanded target)) = _
    rw [arrange, written_qualified, written_qualified, htarget]
    rfl
  | _ => exact h

/-- An entry is written the same if its types are. -/
theorem writtenEntry_mapTypes (depth : Nat) {f g : TypeExpr → TypeExpr} {e : ShapeEntry}
    (hvalue : written level unit depth (f e.value) = written level unit depth (g e.value))
    (hkey : ∀ key ∈ e.key?, written level unit depth (f key) = written level unit depth (g key)) :
    writtenEntry level unit depth (e.mapTypes f) =
      writtenEntry level unit depth (e.mapTypes g) := by
  cases e with
  | positional value => exact hvalue
  | keyed key isOptional value =>
    have hvalue : written level unit depth (f value) = written level unit depth (g value) := hvalue
    simp only [ShapeEntry.mapTypes, writtenEntry_keyed, hvalue, hkey key rfl]

/-- Whether all entries have keys does not depend on their types. -/
theorem blockLevel_mapTypes (f : TypeExpr → TypeExpr) (es : List ShapeEntry) :
    ShapeEntry.blockLevel (es.map (ShapeEntry.mapTypes f)) = ShapeEntry.blockLevel es := by
  have hkeyed : ShapeEntry.isKeyed ∘ ShapeEntry.mapTypes f = ShapeEntry.isKeyed := by
    funext e
    cases e <;> rfl
  rw [ShapeEntry.blockLevel, List.all_map, hkeyed, ShapeEntry.blockLevel]

/-- A shape is written the same if its entries are. -/
theorem written_shape_mapTypes (depth : Nat) {f g : TypeExpr → TypeExpr} {es : List ShapeEntry}
    (h : ∀ e ∈ es, writtenEntry level unit (depth + 1) (e.mapTypes f) =
      writtenEntry level unit (depth + 1) (e.mapTypes g)) :
    written level unit depth (.shape (es.map (ShapeEntry.mapTypes f))) =
      written level unit depth (.shape (es.map (ShapeEntry.mapTypes g))) := by
  have hlevel := (blockLevel_mapTypes f es).trans (blockLevel_mapTypes g es).symm
  have hrows : (es.map (ShapeEntry.mapTypes f)).map (writtenEntry level unit (depth + 1)) =
      (es.map (ShapeEntry.mapTypes g)).map (writtenEntry level unit (depth + 1)) := by
    rw [List.map_map, List.map_map]
    exact List.map_congr_left h
  cases es with
  | nil => rfl
  | cons e es =>
    rw [List.map_cons, List.map_cons] at hlevel hrows ⊢
    rw [written_shape_cons, written_shape_cons, hlevel, List.map_cons, hrows, ← List.map_cons]

/-- A parameter is written the same if its type is, and if both are an ellipsis or neither. -/
theorem writtenParameter_mapType (depth : Nat) {f g : TypeExpr → TypeExpr} {p : Parameter}
    (htype : written level unit depth (f p.type) = written level unit depth (g p.type))
    (hellipsis : (f p.type).isEllipsis = (g p.type).isEllipsis) :
    writtenParameter level unit depth (p.mapType f) =
      writtenParameter level unit depth (p.mapType g) := by
  cases p with
  | unnamed type => exact htype
  | named type name =>
    have htype : written level unit depth (f type) = written level unit depth (g type) := htype
    have hellipsis : (f type).isEllipsis = (g type).isEllipsis := hellipsis
    simp only [Parameter.mapType, writtenParameter_named, htype, hellipsis]

/-- Arranging keeps what is an ellipsis. -/
theorem isEllipsis_arrange (t : TypeExpr) : (arrange true t).isEllipsis = t.isEllipsis := by
  cases t <;> rfl

/-- The expanded tree of an expandable one is written as the arranged one is. -/
theorem Expandable.written_expanded {place : TypePlace} {t : TypeExpr} (h : Expandable place t)
    (hwf : WellFormed place t) (depth : Nat) :
    written level unit depth (expanded t) = written level unit depth (arrange true t) := by
  induction h generalizing depth with
  | @nullable place inner hinner ih =>
    cases hwf with
    | nullable hinnerwf =>
      rw [expanded_nullable, arrange_nullable]
      refine written_unite_expandedBranches level unit depth ?_ ?_
      -- the branches are a `null` and the inner type, each of them a row of at least one branch
      · refine List.forall_mem_singleton.2 (List.forall_mem_cons.2 ⟨List.cons_ne_nil _ _, ?_⟩)
        exact List.forall_mem_singleton.2 ((hinner.fits hinnerwf).branches rfl).1
      · refine List.forall_mem_singleton.2 (List.forall_mem_cons.2 ⟨rfl, ?_⟩)
        exact List.forall_mem_singleton.2 (ih hinnerwf depth)
  | named => rfl
  | generic _ ih =>
    cases hwf with
    | generic _ _ _ _ hargs hqualifies =>
      rw [expanded_generic, arrange, arrangeAll_eq_map, written_generic, written_generic,
        List.map_map, List.map_map]
      refine congrArg (fun rows => _ ++ '<' :: (_ ++ (List.intercalate _ rows ++ _)))
        (List.map_congr_left fun a ha => ?_)
      exact written_expanded_argument level unit (depth + 1) (hqualifies a ha)
        (ih a ha (hargs a ha) (depth + 1))
  | constant _ _ _ ih₁ ih₂ =>
    cases hwf with
    | constant _ howner hmember =>
      show written level unit depth (.constant (expanded _) (expanded _)) = _
      rw [arrange, written_constant, written_constant, ih₁ howner, ih₂ hmember]
  | @shape _ es _ _ ih₁ ih₂ =>
    cases hwf with
    | shape hvalue hkey =>
      rw [expanded_shape, arrange, arrangeEntries_eq_map]
      exact written_shape_mapTypes level unit depth fun e he =>
        writtenEntry_mapTypes level unit (depth + 1) (ih₁ e he (hvalue e he) (depth + 1))
          fun key hk => ih₂ e he key hk (hkey e he key hk) (depth + 1)
  | record _ _ ih₁ ih₂ =>
    cases hwf with
    | record hkey hvalue =>
      show written level unit depth (.record (expanded _) (expanded _)) = _
      rw [arrange, written_record, written_record, ih₁ hkey, ih₂ hvalue]
  | sequence _ ih =>
    cases hwf with
    | sequence hitem =>
      show written level unit depth (.sequence _ (expanded _)) = _
      rw [arrange, written_sequence, written_sequence, ih hitem]
  | arrayOf _ ih =>
    cases hwf with
    | arrayOf _ hitem =>
      show written level unit depth (.arrayOf (expanded _)) = _
      rw [arrange, written_arrayOf, written_arrayOf, ih hitem]
  | union hbranches ih =>
    cases hwf with
    | union _ _ hwf _ =>
      have hspread := fun t ht u hu => (hwf t ht).of_mem_spread (u := u) hu
      rw [expanded_union]
      exact written_unite_expandedBranches level unit depth
        (fun t ht u hu => (((hbranches t ht u hu).fits (hspread t ht u hu)).branches rfl).1)
        (fun t ht u hu => ih t ht u hu (hspread t ht u hu) depth)
  | callable _ _ _ _ ih₁ ih₂ ih₃ =>
    cases hwf with
    | callable _ _ hcallee htypes _ hresult =>
      rw [expanded_callable, arrange, arrangeParameters_eq_map, written_callable, written_callable,
        ih₁ hcallee, ih₃ hresult, List.map_map, List.map_map]
      refine congrArg (fun rows => _ ++ '(' :: (List.intercalate _ rows ++ _))
        (List.map_congr_left fun p hp => ?_)
      exact writtenParameter_mapType level unit depth (ih₂ p hp (htypes p hp) depth)
        ((htypes p hp).kinds_expanded.2.2.trans (isEllipsis_arrange p.type).symm)
  | literal => rfl
  | group _ ih =>
    cases hwf with
    | group hinner =>
      show written level unit depth (.group (expanded _)) = _
      rw [arrange, written_group, written_group, ih hinner]
  | conditional _ _ _ _ ih₁ ih₂ ih₃ ih₄ =>
    cases hwf with
    | conditional _ _ hsubject hbound hconsequent halternative =>
      show written level unit depth
        (.conditional (expanded _) (expanded _) (expanded _) (expanded _)) = _
      rw [arrange, written_conditional, written_conditional, ih₁ hsubject, ih₂ hbound,
        ih₃ hconsequent, ih₄ halternative]
  | ellipsis => rfl

end Written

/-! ## The expanded tree means what the tree does -/

/-- The branches of what a tree means. -/
def meaning (t : TypeExpr) : List TypeExpr := (normalForm (spelledOut t)).branches

/-- What a tree means has its `null` in front already. -/
theorem nullsFirst_meaning (t : TypeExpr) : nullsFirst true (meaning t) = meaning t := by
  rw [meaning, branches_normalForm, nullsFirst_once_idem]

/-- A `null` means itself. -/
theorem meaning_of_isNull {t : TypeExpr} (h : t.isNull = true) : meaning t = [t] := by
  cases t with
  | named => rfl
  | _ => simp [isNull] at h

/-- A branch means what the branches mean that it makes. -/
theorem nullsFirst_flatMap_spread (t : TypeExpr) :
    nullsFirst true (t.spread.flatMap meaning) = meaning t := by
  cases t with
  | nullable inner => exact (branches_normalForm (.union [null, spelledOut inner])).symm
  | _ =>
    show nullsFirst true (List.flatMap meaning [_]) = _
    rw [List.flatMap_singleton, nullsFirst_meaning]

/-- A `null` in the meaning of branches stands behind one among the branches. -/
theorem find?_flatMap_meaning {ts : List TypeExpr} (hunion : ∀ t ∈ ts, t.isUnion = false) :
    ((ts.flatMap spread).flatMap meaning).find? isNull = (ts.flatMap spread).find? isNull := by
  induction ts with
  | nil => rfl
  | cons t ts ih =>
    obtain ⟨ht, hts⟩ := List.forall_mem_cons.1 hunion
    have hfirst : (t.spread.flatMap meaning).find? isNull = t.spread.find? isNull := by
      cases t with
      | union => simp [isUnion] at ht
      | _ => rfl
    rw [List.flatMap_cons, List.flatMap_append, List.find?_append, List.find?_append, hfirst,
      ih hts]

/-- A `null` means nothing but `null`. -/
theorem filter_flatMap_meaning (ts : List TypeExpr) :
    (ts.flatMap meaning).filter (!·.isNull) =
      ((ts.filter (!·.isNull)).flatMap meaning).filter (!·.isNull) := by
  induction ts with
  | nil => rfl
  | cons t ts ih =>
    cases hnull : t.isNull with
    | true => simpa [hnull, meaning_of_isNull hnull] using ih
    | false => simpa [hnull] using ih

/-- The one `null` may be put in front before the branches are replaced by what they mean or after.
-/
theorem nullsFirst_flatMap_meaning {ts : List TypeExpr}
    (hfind : (ts.flatMap meaning).find? isNull = ts.find? isNull) :
    nullsFirst true ((nullsFirst true ts).flatMap meaning) =
      nullsFirst true (ts.flatMap meaning) := by
  apply nullsFirst_congr
  · cases hnull : ts.find? isNull with
    | none => rw [nullsFirst_eq_self hnull]
    | some u =>
      have hisNull := List.find?_some hnull
      rw [hfind, hnull, nullsFirst_once, hnull, Option.toList_some, List.singleton_append,
        List.flatMap_cons, meaning_of_isNull hisNull, List.singleton_append,
        List.find?_cons_of_pos hisNull]
  · rw [filter_flatMap_meaning, filter_nullsFirst, ← filter_flatMap_meaning]

/-- A union that is expanded means what its branches mean. -/
theorem normalForm_unite_expandedBranches {ts : List TypeExpr}
    (hunion : ∀ t ∈ ts, t.isUnion = false)
    (h : ∀ t ∈ ts, ∀ u ∈ t.spread, normalForm (expanded u) = normalForm (spelledOut u)) :
    normalForm (unite (expandedBranches ts)) = unite (nullsFirst true (ts.flatMap meaning)) := by
  have hmeaning : ∀ u ∈ nullsFirst true (ts.flatMap spread),
      (normalForm (expanded u)).branches = meaning u := by
    intro u hu
    obtain ⟨t, ht, hu⟩ := List.mem_flatMap.1 (mem_of_mem_nullsFirst hu)
    rw [h t ht u hu, meaning]
  rw [normalForm_unite]
  congr 1
  calc nullsFirst true ((expandedBranches ts).flatMap fun b => (normalForm b).branches)
      = nullsFirst true ((nullsFirst true (ts.flatMap spread)).flatMap fun u =>
          (normalForm (expanded u)).branches) := by
        rw [expandedBranches, List.flatMap_assoc, ← nullsFirst_flatMap]
        simp only [← branches_normalForm]
    _ = nullsFirst true ((nullsFirst true (ts.flatMap spread)).flatMap meaning) := by
        rw [List.flatMap_congr hmeaning]
    -- to move the nulls first before the branches are opened makes no difference to where they end
    _ = nullsFirst true ((ts.flatMap spread).flatMap meaning) :=
        nullsFirst_flatMap_meaning (find?_flatMap_meaning hunion)
    _ = nullsFirst true (ts.flatMap meaning) := by
        rw [List.flatMap_assoc, ← nullsFirst_flatMap]
        simp only [nullsFirst_flatMap_spread]

/-- The expanded tree of an expandable one means what the tree does. -/
theorem Expandable.normalForm_expanded {place : TypePlace} {t : TypeExpr} (h : Expandable place t)
    (hwf : WellFormed place t) : normalForm (expanded t) = normalForm (spelledOut t) := by
  induction h with
  | @nullable place inner _ ih =>
    cases hwf with
    | nullable hinner =>
      have hbranches : ∀ u ∈ spread (.nullable inner),
          normalForm (expanded u) = normalForm (spelledOut u) :=
        List.forall_mem_cons.2 ⟨rfl, List.forall_mem_singleton.2 (ih hinner)⟩
      rw [expanded_nullable, normalForm_unite_expandedBranches
        (List.forall_mem_singleton.2 rfl) (List.forall_mem_singleton.2 hbranches),
        List.flatMap_singleton, nullsFirst_meaning, meaning, unite_branches_normalForm]
  | @union place ts _ ih =>
    cases hwf with
    | union _ _ hwf _ =>
      rw [expanded_union, normalForm_unite_expandedBranches
        (fun t ht => (hwf t ht).isUnion_eq_false)
        (fun t ht u hu => ih t ht u hu ((hwf t ht).of_mem_spread hu)), spelledOut_union,
        normalForm_union, List.flatMap_map]
      rfl
  | named | literal | ellipsis => rfl
  | @generic place base args _ ih =>
    cases hwf with
    | generic _ _ _ _ hargs hqualifies =>
      rw [expanded_generic, spelledOut, rebuild_generic, normalForm, rebuild_generic,
        rebuild_generic, List.map_map, List.map_map]
      refine congrArg (TypeExpr.generic _) (List.map_congr_left fun a ha => ?_)
      have htarget := ih a ha (hargs a ha)
      have hq := hqualifies a ha
      cases a with
      | qualified modifier target =>
        obtain ⟨⟨name, rfl, -⟩, -⟩ := hq
        exact congrArg (TypeExpr.qualified (.named name)) htarget
      | _ => exact htarget
  | constant _ _ _ ih₁ ih₂ =>
    cases hwf with
    | constant _ howner hmember =>
      exact congrArg₂ TypeExpr.constant (ih₁ howner) (ih₂ hmember)
  | shape _ _ ih₁ ih₂ =>
    cases hwf with
    | shape hvalue hkey =>
      rw [expanded_shape, spelledOut, rebuild_shape, normalForm, rebuild_shape, rebuild_shape,
        List.map_map, List.map_map]
      refine congrArg TypeExpr.shape (List.map_congr_left fun e he => ?_)
      have hvalue' := ih₁ e he (hvalue e he)
      have hkey' := fun key hk => ih₂ e he key hk (hkey e he key hk)
      cases e with
      | positional value => exact congrArg ShapeEntry.positional hvalue'
      | keyed key isOptional value =>
        exact congrArg₂ (ShapeEntry.keyed · isOptional ·) (hkey' key rfl) hvalue'
  | record _ _ ih₁ ih₂ =>
    cases hwf with
    | record hkey hvalue => exact congrArg₂ TypeExpr.record (ih₁ hkey) (ih₂ hvalue)
  | sequence _ ih =>
    cases hwf with
    | sequence hitem => exact congrArg (TypeExpr.sequence _) (ih hitem)
  | arrayOf _ ih =>
    cases hwf with
    | arrayOf _ hitem => exact congrArg TypeExpr.arrayOf (ih hitem)
  | callable _ _ _ _ ih₁ ih₂ ih₃ =>
    cases hwf with
    | callable _ _ hcallee htypes _ hresult =>
      rw [expanded_callable, spelledOut, rebuild_callable, normalForm, rebuild_callable,
        rebuild_callable, List.map_map, List.map_map]
      congr 1
      · exact ih₁ hcallee
      · refine List.map_congr_left fun p hp => ?_
        have htype := ih₂ p hp (htypes p hp)
        cases p with
        | unnamed type => exact congrArg Parameter.unnamed htype
        | named type name => exact congrArg (Parameter.named · name) htype
      · exact ih₃ hresult
  | group _ ih =>
    cases hwf with
    | group hinner => exact congrArg TypeExpr.group (ih hinner)
  | conditional _ _ _ _ ih₁ ih₂ ih₃ ih₄ =>
    cases hwf with
    | conditional _ _ hsubject hbound hconsequent halternative =>
      show TypeExpr.conditional (normalForm (expanded _)) (normalForm (expanded _))
        (normalForm (expanded _)) (normalForm (expanded _)) = _
      rw [ih₁ hsubject, ih₂ hbound, ih₃ hconsequent, ih₄ halternative]
      rfl

/-! ## Reading an expanded type -/

/-- A type that is written on one line with its nullable types expanded is read back with the
meaning it had, if every nullable type stands where the branches of a union may. -/
theorem parse_expanded_lines {location text : Text} {parsed : Parsed}
    (hparsed : parse location text = .ok parsed) {o : Options} (hexpand : o.expandNull = true)
    (hexpandable : Expandable .top parsed.type) (location' : Text) :
    ∃ t, parse location' (Text.unpieces (parsed.type.lines o .never)) = .ok ⟨t, []⟩ ∧
      normalForm t = normalForm (spelledOut parsed.type) := by
  obtain ⟨r, hreads, -⟩ := parse_eq_ok_iff.1 hparsed
  have hwf : WellFormed .top parsed.type := hreads.shaped.1
  have hexpanded : WellFormed .top (expanded parsed.type) :=
    (hexpandable.fits hwf).whole (by simp)
  have hwritten : (arrange true parsed.type).written .never o.indentUnit 0 =
      (expanded parsed.type).written .never [] 0 := by
    rw [hexpandable.written_expanded .never [] hwf 0]
    exact Piece.flat_never (soft_pieces 0 _) o.indentUnit []
  refine ⟨expanded parsed.type, ?_, hexpandable.normalForm_expanded hwf⟩
  rw [unpieces_lines, hexpand, hwritten]
  exact hexpanded.parse_written (by simp [Token.IsLayout]) location' 0

/-- A nullable branch, and nullable types inside its arguments and among the parameters of another
branch. -/
theorem parse_expanded_lines_nested :
    let nullableInt : TypeExpr := .nullable (.named "int".toList)
    let arguments : TypeExpr := .nullable (.generic (.named "A".toList) [nullableInt])
    let call : TypeExpr := .callable (.named "B".toList) [.unnamed nullableInt] (.named "C".toList)
    let t : TypeExpr := .union [arguments, call, .named "NULL".toList]
    let o : Options := { expandNull := true }
    Expandable .top t ∧ parse [] "?A<?int>|B(?int): C|NULL kept".toList = .ok ⟨t, "kept".toList⟩ ∧
      Text.unpieces (t.lines o .never) = "null | A<null | int> | B(null | int): C".toList ∧
      ∃ t', parse [] (Text.unpieces (t.lines o .never)) = .ok ⟨t', []⟩ ∧
        normalForm t' = normalForm (spelledOut t) := by
  intro nullableInt arguments call t o
  have hint (place : TypePlace) : Expandable place nullableInt := .nullable .named
  have hgeneric : Expandable .branch (.generic (.named "A".toList) [nullableInt]) :=
    .generic (List.forall_mem_singleton.2 (hint .inner))
  have hcall : Expandable .branch call :=
    .callable .named (List.forall_mem_singleton.2 (hint .inner)) .named fun _ => rfl
  have hexpandable : Expandable .top t := by
    refine .union ?_
    simp only [List.forall_mem_cons, List.not_mem_nil, false_implies, implies_true, and_true]
    refine ⟨?_, ?_, ?_⟩
    · exact List.forall_mem_cons.2 ⟨.named, List.forall_mem_singleton.2 hgeneric⟩
    · exact List.forall_mem_singleton.2 hcall
    · exact List.forall_mem_singleton.2 .named
  have hparsed : parse [] "?A<?int>|B(?int): C|NULL kept".toList = .ok ⟨t, "kept".toList⟩ := by
    with_unfolding_all rfl
  exact ⟨hexpandable, hparsed, by decide,
    parse_expanded_lines hparsed (o := o) rfl hexpandable []⟩

/-- The result of a callable that is a branch: the `null` becomes the result, and the rest of it a
branch. -/
theorem parse_expanded_lines_result :
    let int : TypeExpr := .named "int".toList
    let string : TypeExpr := .named "string".toList
    let callee : TypeExpr := .named "callable".toList
    let t : TypeExpr := .union [int, .callable callee [] (.nullable string)]
    let o : Options := { expandNull := true }
    parse [] "int|callable(): ?string".toList = .ok ⟨t, []⟩ ∧
      Text.unpieces (t.lines o .never) = "int | callable(): null | string".toList ∧
      parse [] "int | callable(): null | string".toList =
        .ok ⟨.union [int, .callable callee [] null, string], []⟩ ∧
      normalForm (.union [int, .callable callee [] null, string]) ≠ normalForm (spelledOut t) := by
  refine ⟨by with_unfolding_all rfl, by decide, by with_unfolding_all rfl, fun heq => ?_⟩
  have hlength := congrArg (fun t => t.branches.length) heq
  revert hlength
  decide

end Docblock
