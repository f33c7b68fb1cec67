import Docblock.Proofs.TypeExpr.Kinds
import Docblock.Proofs.TypeExpr.Meaning

/-!
# Trees node by node

`TypeExpr.children` are the trees that stand directly in a tree, and `TypeExpr.mapChildren f` is the
tree with `f` done to each of them. What is done to a tree at every depth is `mapChildren` at the
nodes of most kinds, so a law about it needs a case for each of the other kinds and one for all the
rest. `Everywhere P t` says that `P` holds of all nodes of `t`.

A tree and its changed form are written alike if their children are (`pieces_mapChildren`).

The model recurses into rows of trees, entries and parameters by functions of their own, which are
maps over the rows (`arrangeAll_eq_map` and its like). With the children as one list an induction
over trees needs none over rows: `within_induction` gives for a node what is known of all nodes
below it. It goes by the size of the tree, in the one place where that has to be looked at.

Nothing is said here of what is done to nullable types and unions, where arranging is no change of
the children. `Docblock.Proofs.TypeExpr.Unions` and the modules on expansion are about these.
-/

namespace Docblock

open TypeExpr

/-- The value of an entry is one of its types. -/
theorem ShapeEntry.value_mem_types (e : ShapeEntry) : e.value ∈ e.types :=
  List.mem_append_right _ (List.mem_singleton_self _)

/-- The key of an entry is one of its types. -/
theorem ShapeEntry.key_mem_types {e : ShapeEntry} {key : TypeExpr} (h : key ∈ e.key?) :
    key ∈ e.types :=
  List.mem_append_left _ (Option.mem_toList.2 h)

/-- The types of a changed entry are the changed types. -/
theorem ShapeEntry.types_mapTypes (f : TypeExpr → TypeExpr) (e : ShapeEntry) :
    (e.mapTypes f).types = e.types.map f := by
  cases e <;> rfl

/-- Changes that agree on the types of an entry change it alike. -/
theorem ShapeEntry.mapTypes_congr {f g : TypeExpr → TypeExpr} {e : ShapeEntry}
    (h : ∀ c ∈ e.types, f c = g c) : e.mapTypes f = e.mapTypes g := by
  cases e with
  | positional value => exact congrArg ShapeEntry.positional (h value List.mem_cons_self)
  | keyed key isOptional value =>
    exact congrArg₂ (ShapeEntry.keyed · isOptional ·) (h key List.mem_cons_self)
      (h value (List.mem_cons_of_mem _ List.mem_cons_self))

/-- The type of a changed parameter is the changed type. -/
theorem Parameter.type_mapType (f : TypeExpr → TypeExpr) (p : Parameter) :
    (p.mapType f).type = f p.type := by
  cases p <;> rfl

/-- Changes that agree on the type of a parameter change it alike. -/
theorem Parameter.mapType_congr {f g : TypeExpr → TypeExpr} {p : Parameter}
    (h : f p.type = g p.type) : p.mapType f = p.mapType g := by
  cases p with
  | unnamed type => exact congrArg Parameter.unnamed h
  | named type name => exact congrArg (Parameter.named · name) h

namespace TypeExpr

/-! ## Children -/

/-- The trees that stand directly in a tree. -/
def children (t : TypeExpr) : List TypeExpr := t.operands ++ t.arguments

/-- The tree with each tree changed that stands directly in it. -/
def mapChildren (f : TypeExpr → TypeExpr) : TypeExpr → TypeExpr
  | .nullable inner => .nullable (f inner)
  | .named name => .named name
  | .generic base arguments => .generic (f base) (arguments.map f)
  | .constant owner member => .constant (f owner) (f member)
  | .shape entries => .shape (entries.map (ShapeEntry.mapTypes f))
  | .record key value => .record (f key) (f value)
  | .sequence kind item => .sequence kind (f item)
  | .arrayOf item => .arrayOf (f item)
  | .union branches => .union (branches.map f)
  | .callable callee parameters result =>
    .callable (f callee) (parameters.map (Parameter.mapType f)) (f result)
  | .literal quote body => .literal quote body
  | .group inner => .group (f inner)
  | .conditional subject bound consequent alternative =>
    .conditional (f subject) (f bound) (f consequent) (f alternative)
  | .ellipsis => .ellipsis
  | .qualified modifier target => .qualified (f modifier) (f target)

/-- A change of the children does not change the kind. -/
@[simp] theorem kind_mapChildren (f : TypeExpr → TypeExpr) (t : TypeExpr) :
    (t.mapChildren f).kind = t.kind := by
  cases t <;> rfl

section Lists

attribute [local simp] children operands arguments mapChildren

/-- The children of a shape are the types of its entries. -/
theorem forall_mem_children_shape {P : TypeExpr → Prop} {es : List ShapeEntry} :
    (∀ c ∈ (shape es).children, P c) ↔ ∀ e ∈ es, ∀ c ∈ e.types, P c := by
  simp only [children, operands, arguments, List.append_nil, List.forall_mem_flatMap]

/-- The children of a callable are its callee, the types of its parameters and its result. -/
theorem forall_mem_children_callable {P : TypeExpr → Prop} {callee result : TypeExpr}
    {ps : List Parameter} :
    (∀ c ∈ (callable callee ps result).children, P c) ↔
      P callee ∧ (∀ p ∈ ps, P p.type) ∧ P result := by
  simp [or_imp, forall_and]

/-- Each type of an entry is a child of the shape. -/
theorem mem_children_shape {es : List ShapeEntry} :
    ∀ e ∈ es, ∀ c ∈ e.types, c ∈ (shape es).children :=
  forall_mem_children_shape.1 fun _ => id

/-- The callee, each type of a parameter and the result are children of the callable. -/
theorem mem_children_callable (callee : TypeExpr) (ps : List Parameter) (result : TypeExpr) :
    callee ∈ (callable callee ps result).children ∧
      (∀ p ∈ ps, p.type ∈ (callable callee ps result).children) ∧
      result ∈ (callable callee ps result).children :=
  forall_mem_children_callable.1 fun _ => id

/-- The children of a changed tree are the changed children. -/
theorem children_mapChildren (f : TypeExpr → TypeExpr) (t : TypeExpr) :
    (t.mapChildren f).children = t.children.map f := by
  cases t with
  | shape =>
    simp only [children, operands, arguments, mapChildren, List.append_nil, List.flatMap_map,
      List.map_flatMap, ShapeEntry.types_mapTypes]
  | callable => simp [Parameter.type_mapType]
  | _ => simp

/-- Two changes of the children in a row are one. -/
theorem mapChildren_mapChildren (f g : TypeExpr → TypeExpr) (t : TypeExpr) :
    (t.mapChildren f).mapChildren g = t.mapChildren fun c => g (f c) := by
  have hentry (e : ShapeEntry) : (e.mapTypes f).mapTypes g = e.mapTypes fun c => g (f c) := by
    cases e <;> rfl
  have hparameter (p : Parameter) : (p.mapType f).mapType g = p.mapType fun c => g (f c) := by
    cases p <;> rfl
  cases t <;> simp [hentry, hparameter]

/-- The change that does nothing changes nothing. -/
theorem mapChildren_id (t : TypeExpr) : t.mapChildren id = t := by
  have hentry : ShapeEntry.mapTypes id = id := by
    funext e
    cases e <;> rfl
  have hparameter : Parameter.mapType id = id := by
    funext p
    cases p <;> rfl
  cases t <;> simp [hentry, hparameter]

/-- What is done to the children is all that counts. -/
theorem mapChildren_congr {f g : TypeExpr → TypeExpr} {t : TypeExpr}
    (h : ∀ c ∈ t.children, f c = g c) : t.mapChildren f = t.mapChildren g := by
  cases t with
  | shape es =>
    rw [forall_mem_children_shape] at h
    rw [mapChildren, mapChildren,
      List.map_congr_left fun e he => ShapeEntry.mapTypes_congr (h e he)]
  | callable callee ps result =>
    obtain ⟨hcallee, hps, hresult⟩ := forall_mem_children_callable.1 h
    rw [mapChildren, mapChildren, hcallee, hresult,
      List.map_congr_left fun p hp => Parameter.mapType_congr (hps p hp)]
  | _ => simp_all

end Lists

/-- A change that leaves the children as they are leaves the tree as it is. -/
theorem mapChildren_eq_self {f : TypeExpr → TypeExpr} {t : TypeExpr}
    (h : ∀ c ∈ t.children, f c = c) : t.mapChildren f = t :=
  (mapChildren_congr (g := id) h).trans (mapChildren_id t)

/-! ## Every node -/

/-- What stands in a tree is the tree itself or stands in a child of it. -/
theorem within_iff {u t : TypeExpr} : Within u t ↔ u = t ∨ ∃ c ∈ t.children, Within u c := by
  constructor
  · intro h
    cases h with
    | self => exact .inl rfl
    | operand hc h => exact .inr ⟨_, List.mem_append_left _ hc, h⟩
    | argument ha h => exact .inr ⟨_, List.mem_append_right _ ha, h⟩
  · rintro (rfl | ⟨c, hc, h⟩)
    · exact .self u
    · rcases List.mem_append.1 hc with hc | hc
      · exact .operand hc h
      · exact .argument hc h

/-- What stands in a tree stands in every tree around it. -/
theorem Within.trans {u t v : TypeExpr} (h : Within u t) (hv : Within v u) : Within v t := by
  induction h with
  | self => exact hv
  | operand hc _ ih => exact .operand hc ih
  | argument ha _ ih => exact .argument ha ih

/-- The type at the end of a nullable type stands in it. -/
theorem within_target (t : TypeExpr) : Within t.target t := by
  cases t with
  | qualified modifier target =>
    exact .operand (List.mem_cons_of_mem _ List.mem_cons_self) (.self target)
  | _ => exact .self _

/-- What a branch is spread to is `null` or stands in the branch. -/
theorem eq_null_or_within_of_mem_spread {t u : TypeExpr} (h : u ∈ t.spread) :
    u = null ∨ Within u t := by
  cases t with
  | nullable inner =>
    rcases List.mem_pair.1 h with rfl | rfl
    · exact .inl rfl
    · exact .inr (within_iff.2 (.inr ⟨u, List.mem_cons_self, .self u⟩))
  | _ =>
    obtain rfl := List.mem_singleton.1 h
    exact .inr (.self _)

/-- A property of nodes holds of all nodes of a tree. -/
def Everywhere (P : TypeExpr → Prop) (t : TypeExpr) : Prop := ∀ u, Within u t → P u

/-- What holds of all nodes of a tree holds of all nodes of every tree in it. -/
theorem Everywhere.within {P : TypeExpr → Prop} {t u : TypeExpr} (h : Everywhere P t)
    (hu : Within u t) : Everywhere P u :=
  fun v hv => h v (hu.trans hv)

/-- A property of all nodes, from the root down. -/
theorem everywhere_iff {P : TypeExpr → Prop} {t : TypeExpr} :
    Everywhere P t ↔ P t ∧ ∀ c ∈ t.children, Everywhere P c := by
  unfold Everywhere
  simp only [within_iff (t := t), or_imp, forall_and, forall_eq]
  constructor
  · exact fun ⟨h, hchildren⟩ => ⟨h, fun c hc u hu => hchildren u ⟨c, hc, hu⟩⟩
  · rintro ⟨h, hchildren⟩
    exact ⟨h, fun u ⟨c, hc, hu⟩ => hchildren c hc u hu⟩

/-- A property of all nodes of a union, branch by branch. -/
theorem everywhere_union_iff {P : TypeExpr → Prop} {ts : List TypeExpr} :
    Everywhere P (.union ts) ↔ P (.union ts) ∧ ∀ b ∈ ts, Everywhere P b := by
  rw [everywhere_iff]
  simp [children, operands, arguments]

/-- A property of all nodes of a constant. -/
theorem everywhere_constant_iff {P : TypeExpr → Prop} {owner member : TypeExpr} :
    Everywhere P (.constant owner member) ↔
      P (.constant owner member) ∧ Everywhere P owner ∧ Everywhere P member := by
  rw [everywhere_iff]
  simp [children, operands, arguments]

/-- A property of all nodes of a callable. -/
theorem everywhere_callable_iff {P : TypeExpr → Prop} {callee result : TypeExpr}
    {ps : List Parameter} :
    Everywhere P (.callable callee ps result) ↔ P (.callable callee ps result) ∧
      Everywhere P callee ∧ (∀ p ∈ ps, Everywhere P p.type) ∧ Everywhere P result := by
  rw [everywhere_iff, forall_mem_children_callable]

/-- A property of all nodes of a tree whose children were changed. -/
theorem everywhere_mapChildren_iff {P : TypeExpr → Prop} {f : TypeExpr → TypeExpr} {t : TypeExpr} :
    Everywhere P (t.mapChildren f) ↔
      P (t.mapChildren f) ∧ ∀ c ∈ t.children, Everywhere P (f c) := by
  rw [everywhere_iff, children_mapChildren, List.forall_mem_map]

/-- A type of an entry is smaller than the entry. -/
theorem sizeOf_lt_of_mem_types {c : TypeExpr} {e : ShapeEntry} (h : c ∈ e.types) :
    sizeOf c < sizeOf e := by
  cases e with
  | positional value =>
    obtain rfl := List.mem_singleton.1 h
    simp
  | keyed key isOptional value =>
    obtain rfl | rfl := List.mem_pair.1 h
    all_goals simp +arith

/-- A child is smaller than the tree. -/
theorem sizeOf_lt_of_mem_children {c t : TypeExpr} (h : c ∈ t.children) : sizeOf c < sizeOf t := by
  cases t with
  | named | literal | ellipsis => cases h
  | nullable | sequence | arrayOf | group =>
    obtain rfl := List.mem_singleton.1 h
    simp +arith
  | constant | record | qualified =>
    obtain rfl | rfl := List.mem_pair.1 h
    all_goals simp +arith
  | conditional =>
    obtain rfl | rfl | rfl | rfl : c = _ ∨ c = _ ∨ c = _ ∨ c = _ := by
      simpa [children, operands, arguments] using h
    all_goals simp +arith
  | generic base args =>
    obtain rfl | hargument : c = base ∨ c ∈ args := List.mem_cons.1 h
    · simp +arith
    · exact (List.sizeOf_lt_of_mem hargument).trans (by simp +arith)
  | union branches =>
    have hbranch : c ∈ branches := by simpa [children, operands, arguments] using h
    exact (List.sizeOf_lt_of_mem hbranch).trans (by simp)
  | shape entries =>
    obtain ⟨e, he, hc⟩ : ∃ e ∈ entries, c ∈ e.types := by
      simpa [children, operands, arguments] using h
    exact (sizeOf_lt_of_mem_types hc).trans ((List.sizeOf_lt_of_mem he).trans (by simp))
  | callable callee ps result =>
    have hps : ∀ p ∈ ps, sizeOf p.type < sizeOf (callable callee ps result) := by
      intro p hp
      have htype : sizeOf p.type < sizeOf p := by cases p <;> simp +arith [Parameter.type]
      have hlist : sizeOf ps < sizeOf (callable callee ps result) := by simp +arith
      exact htype.trans ((List.sizeOf_lt_of_mem hp).trans hlist)
    revert c
    rw [forall_mem_children_callable]
    exact ⟨by simp +arith, hps, by simp +arith⟩

/-- What follows for a tree from its children, and what stands in them, holds of every tree. -/
@[elab_as_elim]
theorem within_induction {P : TypeExpr → Prop}
    (h : ∀ t, (∀ c ∈ t.children, Everywhere P c) → P t) (t : TypeExpr) : P t := by
  -- The claim is made stronger so that the induction gives it for all nodes below a child, not for
  -- the child alone.
  suffices heverywhere : ∀ n t, sizeOf t < n → Everywhere P t from
    heverywhere _ t (Nat.lt_succ_self _) t (.self t)
  intro n
  induction n with
  | zero => exact fun t ht => absurd ht (Nat.not_lt_zero _)
  | succ n ih =>
    intro t ht
    have hchildren : ∀ c ∈ t.children, Everywhere P c := fun c hc =>
      ih c (by have := sizeOf_lt_of_mem_children hc; omega)
    exact everywhere_iff.2 ⟨h t hchildren, hchildren⟩

/-! ## Arranging and writing -/

/-- Arranging is arranging the children, other than at nullable types and unions. -/
theorem arrange_eq_mapChildren {t : TypeExpr} (h : t.kind ∉ [.nullable, .union]) (expand : Bool) :
    arrange expand t = t.mapChildren (arrange expand) := by
  cases t with
  | nullable | union => simp [kind] at h
  | generic => rw [arrange, arrangeAll_eq_map, mapChildren]
  | shape => rw [arrange, arrangeEntries_eq_map, mapChildren]
  | callable => rw [arrange, arrangeParameters_eq_map, mapChildren]
  | _ => rfl

/-- Two changes of the types of an entry that are written alike are written alike. -/
theorem piecesEntry_mapTypes (depth : Nat) {f g : TypeExpr → TypeExpr} {e : ShapeEntry}
    (h : ∀ c ∈ e.types, pieces depth (f c) = pieces depth (g c)) :
    piecesEntry depth (e.mapTypes f) = piecesEntry depth (e.mapTypes g) := by
  cases e with
  | positional value => exact h value List.mem_cons_self
  | keyed key isOptional value =>
    have hkey := h key List.mem_cons_self
    have hvalue := h value (List.mem_cons_of_mem _ List.mem_cons_self)
    rw [ShapeEntry.mapTypes, ShapeEntry.mapTypes, piecesEntry, piecesEntry, hkey, hvalue]

/-- Two changes of the type of a parameter that are written alike are written alike. How a name is
joined to its type depends on whether the type is an ellipsis. -/
theorem piecesParameter_mapType (depth : Nat) {f g : TypeExpr → TypeExpr} {p : Parameter}
    (h : pieces depth (f p.type) = pieces depth (g p.type))
    (hellipsis : (f p.type).isEllipsis = (g p.type).isEllipsis) :
    piecesParameter depth (p.mapType f) = piecesParameter depth (p.mapType g) := by
  cases p with
  | unnamed type => exact h
  | named type name =>
    have htype : pieces depth (f type) = pieces depth (g type) := h
    have hellipsis : (f type).isEllipsis = (g type).isEllipsis := hellipsis
    rw [Parameter.mapType, Parameter.mapType, piecesParameter, piecesParameter, htype, hellipsis]

/-- Two changes of the children that are written alike are written alike. -/
theorem pieces_mapChildren {f g : TypeExpr → TypeExpr} {t : TypeExpr}
    (h : ∀ c ∈ t.children, ∀ depth, pieces depth (f c) = pieces depth (g c))
    (hellipsis : ∀ c ∈ t.children, (f c).isEllipsis = (g c).isEllipsis) (depth : Nat) :
    pieces depth (t.mapChildren f) = pieces depth (t.mapChildren g) := by
  cases t with
  | shape es =>
    rw [forall_mem_children_shape] at h
    have hlevel := (blockLevel_mapTypes f es).trans (blockLevel_mapTypes g es).symm
    have hrows : (es.map (ShapeEntry.mapTypes f)).map (piecesEntry (depth + 1)) =
        (es.map (ShapeEntry.mapTypes g)).map (piecesEntry (depth + 1)) := by
      rw [List.map_map, List.map_map]
      exact List.map_congr_left fun e he =>
        piecesEntry_mapTypes (depth + 1) fun c hc => h e he c hc (depth + 1)
    rw [mapChildren, mapChildren]
    cases es with
    | nil => rfl
    | cons e es =>
      rw [← piecesEntries_eq_map, ← piecesEntries_eq_map] at hrows
      rw [List.map_cons, List.map_cons, piecesEntries, piecesEntries] at hrows
      rw [List.map_cons, List.map_cons] at hlevel ⊢
      rw [pieces, pieces, hlevel, hrows]
  | callable callee ps result =>
    obtain ⟨hcallee, hps, hresult⟩ := forall_mem_children_callable.1 h
    obtain ⟨-, hpsEllipsis, -⟩ := forall_mem_children_callable.1 hellipsis
    have hrows : (ps.map (Parameter.mapType f)).map (piecesParameter depth) =
        (ps.map (Parameter.mapType g)).map (piecesParameter depth) := by
      rw [List.map_map, List.map_map]
      exact List.map_congr_left fun p hp =>
        piecesParameter_mapType depth (hps p hp depth) (hpsEllipsis p hp)
    rw [mapChildren, mapChildren, pieces, pieces, piecesParameters_eq_map, piecesParameters_eq_map,
      hcallee, hresult, hrows]
  | generic base args =>
    obtain ⟨hbase, hargs⟩ := List.forall_mem_cons.1 h
    have hrows : (args.map f).map (pieces (depth + 1)) = (args.map g).map (pieces (depth + 1)) := by
      rw [List.map_map, List.map_map]
      exact List.map_congr_left fun a ha => hargs a ha (depth + 1)
    rw [mapChildren, mapChildren, pieces, pieces, piecesAll_eq_map, piecesAll_eq_map, hbase, hrows]
  | union ts =>
    have hrows : (ts.map f).map (pieces depth) = (ts.map g).map (pieces depth) := by
      rw [List.map_map, List.map_map]
      exact List.map_congr_left fun t ht => h t (List.mem_append_left _ ht) depth
    rw [mapChildren, mapChildren, pieces, pieces, piecesAll_eq_map, piecesAll_eq_map, hrows]
  | _ => simp_all [children, operands, arguments, mapChildren, pieces]

end TypeExpr

end Docblock
