import Docblock.Proofs.TypeExpr.Arranged

/-!
# Unions up to their writing

A union says the same if a branch that is a union gives its branches to it, if one `null` of several
is kept and stands in front, and if the only branch stands for the union. `TypeExpr.normalForm` does
this at every depth. `TypeExpr.spelledOut` writes every `?T` as the union of `null` and `T`, so the
normal form of the tree spelled out is what a tree with nullable types means.

The branches of a normal form are those of the normal forms of the branches, with one `null` in
front (`branches_normalForm`). That is the law by which normal forms are compared, and since one
`null` in front is kept by doing it again (`nullsFirst_flatMap`), it does not matter at which of two
nested unions it is done first.

This is a specification of what a union says and not a part of the program, which never builds
normal forms. It does not identify branches other than `null` that are the same, and it keeps the
order of the others; types that it tells apart may still mean the same to a reader of the comment.
-/

namespace Docblock.TypeExpr

/-! ## Trees made anew -/

section Rebuild

variable (nullable : TypeExpr → TypeExpr) (union : List TypeExpr → TypeExpr)

mutual

/-- The tree with its nullable types and its unions made anew, the inner ones first. -/
def rebuild : TypeExpr → TypeExpr
  | .nullable inner => nullable (rebuild inner)
  | .named name => .named name
  | .generic base arguments => .generic (rebuild base) (rebuildAll arguments)
  | .constant owner member => .constant (rebuild owner) (rebuild member)
  | .shape entries => .shape (rebuildEntries entries)
  | .record key value => .record (rebuild key) (rebuild value)
  | .sequence kind item => .sequence kind (rebuild item)
  | .arrayOf item => .arrayOf (rebuild item)
  | .union branches => union (rebuildAll branches)
  | .callable callee parameters result =>
    .callable (rebuild callee) (rebuildParameters parameters) (rebuild result)
  | .literal quote body => .literal quote body
  | .group inner => .group (rebuild inner)
  | .conditional subject bound consequent alternative =>
    .conditional (rebuild subject) (rebuild bound) (rebuild consequent) (rebuild alternative)
  | .ellipsis => .ellipsis
  | .qualified modifier target => .qualified (rebuild modifier) (rebuild target)

/-- Each of several trees, made anew. -/
def rebuildAll : List TypeExpr → List TypeExpr
  | [] => []
  | t :: ts => rebuild t :: rebuildAll ts

/-- The entries of a shape, made anew. -/
def rebuildEntries : List ShapeEntry → List ShapeEntry
  | [] => []
  | .positional value :: es => .positional (rebuild value) :: rebuildEntries es
  | .keyed key isOptional value :: es =>
    .keyed (rebuild key) isOptional (rebuild value) :: rebuildEntries es

/-- The parameters of a callable, made anew. -/
def rebuildParameters : List Parameter → List Parameter
  | [] => []
  | .unnamed type :: ps => .unnamed (rebuild type) :: rebuildParameters ps
  | .named type name :: ps => .named (rebuild type) name :: rebuildParameters ps

end

/-- Several trees are made anew each for itself. -/
theorem rebuildAll_eq_map (ts : List TypeExpr) :
    rebuildAll nullable union ts = ts.map (rebuild nullable union) := by
  induction ts with
  | nil => rfl
  | cons t ts ih => rw [rebuildAll, ih, List.map_cons]

/-- The types of several entries are made anew each for itself. -/
theorem rebuildEntries_eq_map (es : List ShapeEntry) :
    rebuildEntries nullable union es = es.map (ShapeEntry.mapTypes (rebuild nullable union)) := by
  induction es with
  | nil => rfl
  | cons e es ih => cases e <;> simp [rebuildEntries, ShapeEntry.mapTypes, ih]

/-- The types of several parameters are made anew each for itself. -/
theorem rebuildParameters_eq_map (ps : List Parameter) :
    rebuildParameters nullable union ps = ps.map (Parameter.mapType (rebuild nullable union)) := by
  induction ps with
  | nil => rfl
  | cons p ps ih => cases p <;> simp [rebuildParameters, Parameter.mapType, ih]

/-- A generic type is made anew from its parts. -/
@[simp] theorem rebuild_generic (base : TypeExpr) (arguments : List TypeExpr) :
    rebuild nullable union (.generic base arguments) =
      .generic (rebuild nullable union base) (arguments.map (rebuild nullable union)) := by
  rw [rebuild, rebuildAll_eq_map]

/-- A shape is made anew from its entries. -/
@[simp] theorem rebuild_shape (entries : List ShapeEntry) :
    rebuild nullable union (.shape entries) =
      .shape (entries.map (ShapeEntry.mapTypes (rebuild nullable union))) := by
  rw [rebuild, rebuildEntries_eq_map]

/-- A union is made of its branches once these are made anew. -/
@[simp] theorem rebuild_union (branches : List TypeExpr) :
    rebuild nullable union (.union branches) =
      union (branches.map (rebuild nullable union)) := by
  rw [rebuild, rebuildAll_eq_map]

/-- A callable is made anew from its parts. -/
@[simp] theorem rebuild_callable (callee : TypeExpr) (parameters : List Parameter)
    (result : TypeExpr) :
    rebuild nullable union (.callable callee parameters result) =
      .callable (rebuild nullable union callee)
        (parameters.map (Parameter.mapType (rebuild nullable union)))
        (rebuild nullable union result) := by
  rw [rebuild, rebuildParameters_eq_map]

end Rebuild

/-! ## Branches -/

/-- Whether a tree is a union. -/
def isUnion : TypeExpr → Bool
  | .union _ => true
  | _ => false

/-- The branches of a tree; one that is no union is its own only branch. -/
def branches : TypeExpr → List TypeExpr
  | .union ts => ts
  | t => [t]

/-- The union of several trees, or the only one itself. -/
def unite : List TypeExpr → TypeExpr
  | [t] => t
  | ts => .union ts

@[simp] theorem branches_union (ts : List TypeExpr) : (union ts).branches = ts := rfl

/-- A tree that is no union is its own branch. -/
theorem branches_eq_singleton {t : TypeExpr} (h : t.isUnion = false) : t.branches = [t] := by
  cases t with
  | union => simp [isUnion] at h
  | _ => rfl

/-- The union of branches that are no unions has these branches, also if there is only one. -/
theorem branches_unite {ts : List TypeExpr} (h : ∀ t ∈ ts, t.isUnion = false) :
    (unite ts).branches = ts := by
  match ts with
  | [] => rfl
  | [t] => exact branches_eq_singleton (h t List.mem_cons_self)
  | _ :: _ :: _ => rfl

/-- A `null` is no union. -/
theorem isUnion_of_isNull {t : TypeExpr} (h : t.isNull = true) : t.isUnion = false := by
  cases t <;> simp_all [isNull, isUnion]

/-! ## One `null` in front -/

/-- With one `null` kept it stands in front, and the other branches keep their order. -/
theorem nullsFirst_once (ts : List TypeExpr) :
    nullsFirst true ts = (ts.find? isNull).toList ++ ts.filter (!·.isNull) := by
  rw [nullsFirst, if_pos rfl, List.take_one, List.head?_filter]

/-- The `null` that is kept is the first one. -/
@[simp] theorem find?_nullsFirst (ts : List TypeExpr) :
    (nullsFirst true ts).find? isNull = ts.find? isNull := by
  rw [nullsFirst_once, List.find?_append]
  cases hfind : ts.find? isNull with
  | none => simp
  | some t => simp [List.find?_some hfind]

/-- The branches that are no `null` are kept. -/
@[simp] theorem filter_nullsFirst (ts : List TypeExpr) :
    (nullsFirst true ts).filter (!·.isNull) = ts.filter (!·.isNull) := by
  rw [nullsFirst_once, List.filter_append, List.filter_filter]
  cases hfind : ts.find? isNull with
  | none => simp
  | some t => simp [List.find?_some hfind]

/-- Without a `null` nothing is moved. -/
theorem nullsFirst_eq_self {ts : List TypeExpr} (h : ts.find? isNull = none) :
    nullsFirst true ts = ts := by
  rw [nullsFirst_once, h, Option.toList_none, List.nil_append, List.filter_eq_self]
  intro t ht
  simpa using List.find?_eq_none.1 h t ht

/-- The first `null` and the other trees are all that counts. -/
theorem nullsFirst_congr {ts us : List TypeExpr} (hfind : ts.find? isNull = us.find? isNull)
    (hfilter : ts.filter (!·.isNull) = us.filter (!·.isNull)) :
    nullsFirst true ts = nullsFirst true us := by
  rw [nullsFirst_once, nullsFirst_once, hfind, hfilter]

/-- Doing it again changes nothing. -/
theorem nullsFirst_once_idem (ts : List TypeExpr) :
    nullsFirst true (nullsFirst true ts) = nullsFirst true ts :=
  nullsFirst_congr (find?_nullsFirst ts) (filter_nullsFirst ts)

/-- Where several rows are put into one, it does not matter whether each has its `null` in front. -/
theorem nullsFirst_flatMap {α : Type} (rows : α → List TypeExpr) (xs : List α) :
    nullsFirst true (xs.flatMap fun x => nullsFirst true (rows x)) =
      nullsFirst true (xs.flatMap rows) :=
  nullsFirst_congr (by simp [List.find?_flatMap]) (by simp [List.filter_flatMap])

/-! ## Normal forms -/

/-- The tree with every union flat, with one `null` at most and that in front, and with the branch
for a union of one. -/
def normalForm : TypeExpr → TypeExpr :=
  rebuild .nullable fun ts => unite (nullsFirst true (ts.flatMap branches))

/-- The tree with `null | T` for every `?T`. -/
def spelledOut : TypeExpr → TypeExpr := rebuild (fun t => .union [null, t]) .union

/-- The normal form of a union joins the branches of the normal forms of its branches. -/
theorem normalForm_union (ts : List TypeExpr) : normalForm (.union ts) =
    unite (nullsFirst true (ts.flatMap fun t => (normalForm t).branches)) := by
  rw [normalForm, rebuild_union, List.flatMap_map]

/-- A union is spelled out branch by branch. -/
theorem spelledOut_union (ts : List TypeExpr) : spelledOut (.union ts) =
    .union (ts.map spelledOut) := rebuild_union _ _ ts

/-- The normal form of a tree that is no union is none either. -/
theorem isUnion_normalForm {t : TypeExpr} (h : t.isUnion = false) :
    (normalForm t).isUnion = false := by
  cases t with
  | union => simp [isUnion] at h
  | _ => rfl

/-- No branch of a normal form is a union. -/
theorem isUnion_of_mem_branches_normalForm (t : TypeExpr) :
    ∀ b ∈ (normalForm t).branches, b.isUnion = false := by
  match t with
  | .union ts =>
    have hbranches : ∀ b ∈ nullsFirst true (ts.flatMap fun t => (normalForm t).branches),
        b.isUnion = false := by
      intro b hb
      obtain ⟨t, ht, hb⟩ := List.mem_flatMap.1 (mem_of_mem_nullsFirst hb)
      exact isUnion_of_mem_branches_normalForm t b hb
    rwa [normalForm_union, branches_unite hbranches]
  | .nullable _ | .named _ | .generic _ _ | .constant _ _ | .shape _ | .record _ _
  | .sequence _ _ | .arrayOf _ | .callable _ _ _ | .literal _ _ | .group _
  | .conditional _ _ _ _ | .ellipsis | .qualified _ _ =>
    simp [normalForm, rebuild, branches, isUnion]
termination_by t
decreasing_by
  have := List.sizeOf_lt_of_mem ht
  simp
  omega

/-- The branches of a normal form come from the normal forms of the branches. -/
theorem branches_normalForm (t : TypeExpr) : (normalForm t).branches =
    nullsFirst true (t.branches.flatMap fun b => (normalForm b).branches) := by
  cases hunion : t.isUnion with
  | false =>
    rw [branches_eq_singleton hunion, List.flatMap_singleton,
      branches_eq_singleton (isUnion_normalForm hunion)]
    cases hnull : (normalForm t).isNull <;> simp [nullsFirst, hnull]
  | true =>
    cases t with
    | union ts =>
      rw [normalForm_union, branches_unite]
      · rfl
      · intro b hb
        obtain ⟨t, -, hb⟩ := List.mem_flatMap.1 (mem_of_mem_nullsFirst hb)
        exact isUnion_of_mem_branches_normalForm t b hb
    | _ => simp [isUnion] at hunion

/-- A normal form is the union of its branches. -/
theorem unite_branches_normalForm (t : TypeExpr) :
    unite (normalForm t).branches = normalForm t := by
  cases hunion : t.isUnion with
  | false => rw [branches_eq_singleton (isUnion_normalForm hunion), unite]
  | true =>
    cases t with
    | union ts => rw [branches_normalForm, normalForm_union, branches_union]
    | _ => simp [isUnion] at hunion

/-- The normal form of a union of one branch is that of the branch. -/
theorem normalForm_unite (ts : List TypeExpr) : normalForm (unite ts) =
    unite (nullsFirst true (ts.flatMap fun t => (normalForm t).branches)) := by
  match ts with
  | [] => exact normalForm_union []
  | [t] =>
    rw [unite, List.flatMap_singleton, branches_normalForm, nullsFirst_once_idem,
      ← branches_normalForm, unite_branches_normalForm]
  | t :: u :: ts => exact normalForm_union (t :: u :: ts)

end Docblock.TypeExpr
