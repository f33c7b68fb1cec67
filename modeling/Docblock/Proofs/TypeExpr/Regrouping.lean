import Docblock.Proofs.TypeExpr.Children

/-!
# Expanded types read again

Expansion writes `null | T` for `?T`. Where only one branch is read, such as for the result of a
callable that is a branch itself, the reader takes the `null` for the whole of it, and `T` becomes a
branch of the union around. `TypeExpr.regrouped` is the tree that is read from the expanded form of
a tree, whatever trees of it are nullable.

The regrouped tree is written as the arranged one is (`Sound.pieces_regrouped`), and where a tree is
well-formed its regrouped tree can be read (`WellFormed.fitsRow_regrouped`). There is one exception:
the callee of a callable has to stay one branch, since parameters are read only behind the last one.

The tree that is read from the expanded text is not the tree that was expanded, even where it is
written the same way: a nullable member of a constant leaves the constant. So nothing is said here
of what the type means. `Docblock.Proofs.TypeExpr.Meaning` asks when that is kept, and
`Docblock.Proofs.TypeExpr.ExpandedAgain` asks when the regrouped tree is written the same way again.
-/

namespace Docblock

open TypeExpr

namespace TypeExpr

/-! ## The row of branches in a tree -/

/-- The branch that is read first of a tree that is written where one branch is read. -/
def firstBranch : TypeExpr → TypeExpr
  | .union (t :: _) => t
  | .callable callee ps result => .callable callee ps (firstBranch result)
  | t => t

/-- The branches that are read behind the first. -/
def otherBranches : TypeExpr → List TypeExpr
  | .union (_ :: ts) => ts
  | .callable _ _ result => otherBranches result
  | _ => []

/-- The branches that are read of a tree that is written where one branch is read. -/
def row (t : TypeExpr) : List TypeExpr := t.firstBranch :: t.otherBranches

/-- Every tree but a union and a callable is its own row, as is a union of nothing. -/
theorem row_eq_singleton_of_ne {t : TypeExpr} (hunion : ∀ u us, t = .union (u :: us) → False)
    (hcallable : ∀ callee ps result, t = .callable callee ps result → False) : t.row = [t] := by
  cases t with
  | union ts =>
    cases ts with
    | nil => rfl
    | cons u us => exact (hunion u us rfl).elim
  | callable callee ps result => exact (hcallable callee ps result rfl).elim
  | _ => rfl

/-- The row of a callable is that of its result, with the callable around the first branch. -/
theorem row_callable (callee : TypeExpr) (ps : List Parameter) (result : TypeExpr) :
    (callable callee ps result).row =
      .callable callee ps result.firstBranch :: result.otherBranches := rfl

/-- Branches that are each their own row are the row of their union. -/
theorem row_unite {ts : List TypeExpr} (hne : ts ≠ []) (h : ∀ t ∈ ts, t.row = [t]) :
    (unite ts).row = ts := by
  match ts with
  | [] => exact absurd rfl hne
  | [t] => exact h t List.mem_cons_self
  | _ :: _ :: _ => rfl

/-- A tree and its first branch begin with the same tree. -/
theorem leftmost_firstBranch (t : TypeExpr) : t.firstBranch.leftmost = t.leftmost := by
  fun_cases firstBranch t <;> rfl

/-- A union begins with the tree its first branch begins with. -/
theorem leftmost_unite (t : TypeExpr) (ts : List TypeExpr) :
    (unite (t :: ts)).leftmost = t.leftmost := by
  cases ts <;> rfl

/-! ## Trees with rows in place -/

mutual

/-- The tree with every row of branches where a reader puts them: in the union around, also if they
are written as the member of a constant. -/
def regroup : TypeExpr → TypeExpr
  | .nullable inner => .nullable (regroup inner)
  | .named name => .named name
  | .generic base arguments => .generic (regroup base) (regroupAll arguments)
  | .constant owner member =>
    unite (.constant (regroup owner) (regroup member).firstBranch :: (regroup member).otherBranches)
  | .shape entries => .shape (regroupEntries entries)
  | .record key value => .record (regroup key) (regroup value)
  | .sequence kind item => .sequence kind (regroup item)
  | .arrayOf item => .arrayOf (regroup item)
  | .union branches => unite ((regroupAll branches).flatMap row)
  | .callable callee parameters result =>
    .callable (regroup callee) (regroupParameters parameters) (regroup result)
  | .literal quote body => .literal quote body
  | .group inner => .group (regroup inner)
  | .conditional subject bound consequent alternative =>
    .conditional (regroup subject) (regroup bound) (regroup consequent) (regroup alternative)
  | .ellipsis => .ellipsis
  | .qualified modifier target => .qualified (regroup modifier) (regroup target)

/-- Each of several trees, regrouped. -/
def regroupAll : List TypeExpr → List TypeExpr
  | [] => []
  | t :: ts => regroup t :: regroupAll ts

/-- The entries of a shape, regrouped. -/
def regroupEntries : List ShapeEntry → List ShapeEntry
  | [] => []
  | .positional value :: es => .positional (regroup value) :: regroupEntries es
  | .keyed key isOptional value :: es =>
    .keyed (regroup key) isOptional (regroup value) :: regroupEntries es

/-- The parameters of a callable, regrouped. -/
def regroupParameters : List Parameter → List Parameter
  | [] => []
  | .unnamed type :: ps => .unnamed (regroup type) :: regroupParameters ps
  | .named type name :: ps => .named (regroup type) name :: regroupParameters ps

end

/-- Each tree of a row is regrouped. -/
theorem regroupAll_eq_map (ts : List TypeExpr) : regroupAll ts = ts.map regroup := by
  induction ts with
  | nil => rfl
  | cons t ts ih => rw [regroupAll, ih, List.map_cons]

/-- Each type of an entry is regrouped. -/
theorem regroupEntries_eq_map (es : List ShapeEntry) :
    regroupEntries es = es.map (ShapeEntry.mapTypes regroup) := by
  induction es with
  | nil => rfl
  | cons e es ih => cases e <;> simp [regroupEntries, ShapeEntry.mapTypes, ih]

/-- Each type of a parameter is regrouped. -/
theorem regroupParameters_eq_map (ps : List Parameter) :
    regroupParameters ps = ps.map (Parameter.mapType regroup) := by
  induction ps with
  | nil => rfl
  | cons p ps ih => cases p <;> simp [regroupParameters, Parameter.mapType, ih]

/-- To regroup is to regroup the children, other than at constants and unions. -/
theorem regroup_eq_mapChildren {t : TypeExpr} (h : t.kind ∉ [.constant, .union]) :
    regroup t = t.mapChildren regroup := by
  cases t with
  | constant | union => simp [kind] at h
  | generic => rw [regroup, regroupAll_eq_map, mapChildren]
  | shape => rw [regroup, regroupEntries_eq_map, mapChildren]
  | callable => rw [regroup, regroupParameters_eq_map, mapChildren]
  | _ => rfl

/-- The tree that is read from the expanded form of a tree. -/
def regrouped (t : TypeExpr) : TypeExpr := regroup (arrange true t)

/-- The branches that are read of a union that is expanded. -/
def regroupedRow (ts : List TypeExpr) : List TypeExpr :=
  (nullsFirst true (ts.flatMap spread)).flatMap fun u => (regrouped u).row

/-- An expanded union is read back as its row. -/
theorem regrouped_union (ts : List TypeExpr) :
    regrouped (.union ts) = unite (regroupedRow ts) := by
  rw [regrouped, arrange_union_spread, regroup, regroupAll_eq_map, List.flatMap_map,
    List.flatMap_map]
  rfl

/-- An expanded nullable type is read back as a union of it alone would be. -/
theorem regrouped_nullable (inner : TypeExpr) :
    regrouped (.nullable inner) = unite (regroupedRow [.nullable inner]) := by
  rw [← regrouped_union, regrouped, arrange_nullable, ← regrouped]

/-- Of a member that is a row only the first branch stays with its owner. -/
theorem regrouped_constant (owner member : TypeExpr) : regrouped (.constant owner member) =
    unite (.constant (regrouped owner) (regrouped member).firstBranch ::
      (regrouped member).otherBranches) := rfl

/-- At most nodes a tree is regrouped by regrouping its children. -/
theorem regrouped_eq_mapChildren {t : TypeExpr} (h : t.kind ∉ [.nullable, .constant, .union]) :
    regrouped t = t.mapChildren regrouped := by
  simp only [List.mem_cons, List.not_mem_nil, or_false, not_or] at h
  obtain ⟨hnullable, hconstant, hunion⟩ := h
  rw [regrouped, arrange_eq_mapChildren (by simp [hnullable, hunion]),
    regroup_eq_mapChildren (by simp [hconstant, hunion]), mapChildren_mapChildren]
  rfl

/-- A `null` is read back as it is. -/
theorem regrouped_of_isNull {t : TypeExpr} (h : t.isNull = true) : regrouped t = t := by
  cases t with
  | named => rfl
  | _ => simp [isNull] at h

/-- The row of a union begins with a `null`, or it is made of the rows of its branches, none of
which is nullable. -/
theorem regroupedRow_cases (ts : List TypeExpr) :
    (∃ n, n.isNull = true ∧ regroupedRow ts =
        n :: ((ts.flatMap spread).filter (!·.isNull)).flatMap fun u => (regrouped u).row) ∨
      (∀ t ∈ ts, t.spread = [t] ∧ t.isNull = false) ∧
        regroupedRow ts = ts.flatMap fun t => (regrouped t).row := by
  cases hfind : (ts.flatMap spread).find? isNull with
  | some n =>
    have hnull := List.find?_some hfind
    refine .inl ⟨n, hnull, ?_⟩
    have hrow : n.row = [n] := by
      cases n with
      | named => rfl
      | _ => simp [isNull] at hnull
    rw [regroupedRow, nullsFirst_once, hfind, Option.toList_some, List.singleton_append,
      List.flatMap_cons, regrouped_of_isNull hnull, hrow, List.singleton_append]
  | none =>
    obtain ⟨hspread, hflat⟩ := spread_eq_of_find?_eq_none hfind
    rw [hflat] at hfind
    have hnone := List.find?_eq_none.1 hfind
    refine .inr ⟨fun t ht => ⟨hspread t ht, by simpa using hnone t ht⟩, ?_⟩
    rw [regroupedRow, hflat, nullsFirst_eq_self hfind]

/-- A nullable type is read back as a `null` and the row of what it holds, unless that is `null`. -/
theorem regroupedRow_nullable (inner : TypeExpr) :
    regroupedRow [.nullable inner] =
      null :: if inner.isNull then [] else (regrouped inner).row := by
  have hnull : null.isNull = true := rfl
  have hrow : (regrouped null).row = [null] := rfl
  cases hinner : inner.isNull <;> simp [regroupedRow, spread, nullsFirst, hnull, hinner, hrow]

/-! ## What regrouping keeps -/

/-- A union that is expanded is a union or `null`. -/
theorem isUnion_or_isNull_unite_regroupedRow {ts : List TypeExpr}
    (hmany : 2 ≤ ts.length ∨ ∃ t ∈ ts, t.spread ≠ [t]) :
    (unite (regroupedRow ts)).isUnion = true ∨ (unite (regroupedRow ts)).isNull = true := by
  rcases regroupedRow_cases ts with ⟨n, hnull, heq⟩ | ⟨hspread, heq⟩
  · rw [heq]
    exact isUnion_or_isNull_unite_cons hnull _
  · rcases hmany with hlength | ⟨t, ht, hne⟩
    · match ts, hlength with
      | a :: b :: ts, _ =>
        have htail : (regrouped a).otherBranches ++ (b :: ts).flatMap (fun t => (regrouped t).row) ≠
            [] := List.append_ne_nil_of_right_ne_nil _ (by simp [row])
        obtain ⟨c, cs, hcs⟩ := List.exists_cons_of_ne_nil htail
        rw [heq, List.flatMap_cons, row, List.cons_append, hcs]
        exact .inl rfl
    · exact absurd (hspread t ht).1 hne

/-- What the places of a tree ask of its kind is kept. -/
theorem Regular.kinds_regrouped {t : TypeExpr} (h : t.Regular) :
    (regrouped t).isCallable = t.isCallable ∧ (regrouped t).isConditional = t.isConditional ∧
      (regrouped t).isEllipsis = t.isEllipsis := by
  cases t with
  | nullable inner =>
    rw [regrouped_nullable]
    exact kinds_of_isUnion_or_isNull (isUnion_or_isNull_unite_regroupedRow
      (.inr ⟨_, List.mem_singleton_self _, by simp [spread]⟩))
  | union ts =>
    rw [regrouped_union]
    exact kinds_of_isUnion_or_isNull (isUnion_or_isNull_unite_regroupedRow (.inl h.1))
  | constant owner member =>
    rw [regrouped_constant]
    cases (regrouped member).otherBranches <;> exact ⟨rfl, rfl, rfl⟩
  | _ => exact ⟨rfl, rfl, rfl⟩

end TypeExpr

/-! ## Writing a regrouped tree -/

/-- What stands before rows stands before the first. -/
theorem Piece.join_cons_append (separator front row : List Piece) (rows : List (List Piece)) :
    join separator ((front ++ row) :: rows) = front ++ join separator (row :: rows) := by
  cases rows <;> simp [join]

namespace TypeExpr

/-- A union is written as its branches with bars between them, also if there is one. -/
theorem pieces_unite (depth : Nat) (ts : List TypeExpr) :
    pieces depth (unite ts) = Piece.join [.word " | ".toList] (ts.map (pieces depth)) := by
  match ts with
  | [t] => simp [unite, Piece.join]
  | [] | _ :: _ :: _ => exact congrArg _ (piecesAll_eq_map depth _)

/-- A tree is written as its row of branches. -/
theorem pieces_row (depth : Nat) (t : TypeExpr) :
    pieces depth t = Piece.join [.word " | ".toList] (t.row.map (pieces depth)) := by
  induction t using firstBranch.induct with
  | case1 t ts => exact congrArg _ (piecesAll_eq_map depth (t :: ts))
  | case2 callee ps result ih =>
    rw [row_callable, List.map_cons, pieces, pieces, Piece.join_cons_append]
    exact congrArg _ ih
  | case3 t hunion hcallable =>
    rw [row_eq_singleton_of_ne hunion hcallable]
    simp [Piece.join]

/-- Regrouped unions are written as arranged ones are, if their branches are. -/
theorem pieces_unite_regroupedRow {depth : Nat} {ts : List TypeExpr}
    (h : ∀ u ∈ ts.flatMap spread, pieces depth (regrouped u) = pieces depth (arrange true u)) :
    pieces depth (unite (regroupedRow ts)) = pieces depth (arrange true (.union ts)) := by
  have hrow : ∀ u ∈ nullsFirst true (ts.flatMap spread),
      Piece.join [.word " | ".toList] ((regrouped u).row.map (pieces depth)) =
        pieces depth (arrange true u) := fun u hu =>
    (pieces_row depth (regrouped u)).symm.trans (h u (mem_of_mem_nullsFirst hu))
  rw [arrange_union_spread, pieces_unite, pieces, piecesAll_eq_map, regroupedRow, List.map_flatMap,
    Piece.join, intercalate_flatMap fun u _ => by simp [row], List.map_map]
  exact congrArg _ (List.map_congr_left hrow)

/-- The children of a tree that can be read can be read. -/
theorem Sound.children {t : TypeExpr} (h : t.Sound) : ∀ c ∈ t.children, c.Sound :=
  List.forall_mem_append.2 ⟨fun c hc => (h.operands c hc).1, h.arguments⟩

/-- A regrouped tree is written as the arranged one is. -/
theorem Sound.pieces_regrouped {t : TypeExpr} (h : t.Sound) (depth : Nat) :
    pieces depth (regrouped t) = pieces depth (arrange true t) := by
  induction t using within_induction generalizing depth with
  | h t ih =>
    have hchild : ∀ c ∈ t.children, ∀ u, Within u c → ∀ depth,
        pieces depth (regrouped u) = pieces depth (arrange true u) := fun c hc u hu depth =>
      ih c hc u hu ((h.children c hc).within hu) depth
    cases t with
    | nullable inner =>
      rw [regrouped_nullable, arrange_nullable]
      refine pieces_unite_regroupedRow fun u hu => ?_
      obtain rfl | rfl : u = null ∨ u = inner := by simpa [spread] using hu
      · rfl
      · exact hchild u List.mem_cons_self u (.self u) depth
    | union ts =>
      rw [regrouped_union]
      refine pieces_unite_regroupedRow fun u hu => ?_
      obtain ⟨t, ht, hu⟩ := List.mem_flatMap.1 hu
      obtain rfl | hwithin := eq_null_or_within_of_mem_spread hu
      · rfl
      · exact hchild t (List.mem_append_left _ ht) u hwithin depth
    | constant owner member =>
      have howner := hchild owner List.mem_cons_self owner (.self _) depth
      have hmember :=
        hchild member (List.mem_cons_of_mem _ List.mem_cons_self) member (.self _) depth
      rw [pieces_row] at hmember
      rw [regrouped_constant, pieces_unite, List.map_cons, pieces, howner, Piece.join_cons_append,
        arrange, pieces]
      exact congrArg _ hmember
    | _ =>
      rw [regrouped_eq_mapChildren (by simp [kind]), arrange_eq_mapChildren (by simp [kind])]
      refine pieces_mapChildren (fun c hc => hchild c hc c (.self c)) (fun c hc => ?_) depth
      rw [(h.children c hc).regular.kinds_regrouped.2.2, isEllipsis_arrange]

/-! ## What stands at the two ends -/

/-- To be a callable is a matter of the kind. -/
theorem isCallable_eq_kind (t : TypeExpr) : t.isCallable = decide (t.kind = .callable) := by
  cases t <;> rfl

/-- The first branch that is read of a tree is of its kind, unless that is nullable or a union. -/
theorem kind_firstBranch_regrouped {t : TypeExpr} (h : t.kind ∉ [.nullable, .union]) :
    (regrouped t).firstBranch.kind = t.kind := by
  cases t with
  | nullable | union => simp [kind] at h
  | constant owner member =>
    rw [regrouped_constant]
    cases (regrouped member).otherBranches <;> rfl
  | _ => rfl

/-- Regrouping brings neither a parenthesis nor the word `is` to the front of a union, unless they
stood there. -/
theorem standsApart_unite_regroupedRow {ts : List TypeExpr} (hne : ts ≠ [])
    (hhead : ∀ t ∈ ts.head?, t.spread = [t] → (regrouped t).StandsApart) :
    (unite (regroupedRow ts)).StandsApart := by
  rcases regroupedRow_cases ts with ⟨n, hnull, heq⟩ | ⟨hspread, heq⟩
  · rw [heq, StandsApart, leftmost_unite]
    exact standsApart_of_isNull hnull
  · cases ts with
    | nil => exact absurd rfl hne
    | cons t ts =>
      rw [heq, List.flatMap_cons, row, List.cons_append, StandsApart, leftmost_unite,
        leftmost_firstBranch]
      exact hhead t rfl (hspread t List.mem_cons_self).1

end TypeExpr

/-- What begins with neither a parenthesis nor the word `is` still does not. -/
theorem WellFormed.standsApart_regrouped {place : TypePlace} {t : TypeExpr} (h : WellFormed place t)
    (ht : t.StandsApart) : (regrouped t).StandsApart := by
  induction h with
  | nullable =>
    rw [regrouped_nullable]
    exact standsApart_unite_regroupedRow (List.cons_ne_nil _ _) (by simp [spread])
  | @union _ ts _ hlength _ _ ih =>
    rw [regrouped_union]
    cases ts with
    | nil => simp at hlength
    | cons c cs =>
      refine standsApart_unite_regroupedRow (List.cons_ne_nil _ _) fun b hb _ => ?_
      cases hb
      exact ih c List.mem_cons_self ht
  | constant _ _ _ ih _ =>
    rw [regrouped_constant, StandsApart, leftmost_unite]
    exact ih ht
  | generic | named | group => exact ht
  | arrayOf _ _ ih => exact ih ht
  | callable _ _ _ _ _ _ ih _ _ => exact ih ht
  | conditional _ _ _ _ _ _ ih _ _ _ => exact ih ht
  | shape | record | sequence | literal | ellipsis => exact trivial

namespace TypeExpr

/-- A callable has a callee that stays one branch: not a constant whose member is nullable, or ends
in a nullable type through the results of callables. -/
def KeepsCallee : TypeExpr → Prop
  | .callable (.constant _ member) _ _ => Avoids [.nullable] member
  | _ => True

end TypeExpr

/-- Square brackets at the right end of a branch keep it in one piece, unless a `?` stands before
them. -/
theorem WellFormed.row_regrouped {t : TypeExpr} (h : WellFormed .branch t)
    (hopen : Mark.openParen ∉ t.openMarks) (hkeeps : Avoids [.nullable] t) :
    (regrouped t).row = [regrouped t] ∧ (regrouped t).openMarks = t.openMarks := by
  generalize hplace : TypePlace.branch = place at h
  induction h with
  | arrayOf => exact ⟨rfl, rfl⟩
  | nullable => exact absurd List.mem_cons_self hkeeps
  | @callable _ callee ps result _ _ _ _ _ _ _ _ ih =>
    obtain ⟨hrow, hmarks⟩ := ih hopen hkeeps.2 hplace
    refine ⟨?_, hmarks⟩
    rw [row, List.cons.injEq] at hrow
    rw [regrouped_eq_mapChildren (by simp [kind]), mapChildren, row_callable, hrow.1, hrow.2]
  | union hne => exact absurd hplace.symm hne
  | conditional => exact TypePlace.noConfusion hplace
  | _ => exact absurd (by simp [openMarks]) hopen

/-- The callee of a callable stays a callee. -/
theorem WellFormed.callee_regrouped {t : TypeExpr} (h : WellFormed .branch t)
    (hprimary : t.isPrimary = true) (hopen : Mark.openParen ∉ t.primaryMarks)
    (hkeeps : ∀ owner member, t = .constant owner member → Avoids [.nullable] member) :
    (regrouped t).isPrimary = true ∧ (regrouped t).primaryMarks = t.primaryMarks ∧
      (regrouped t).row = [regrouped t] := by
  cases h with
  | constant _ _ hmember =>
    obtain ⟨hrow, hmarks⟩ := hmember.row_regrouped hopen (hkeeps _ _ rfl)
    rw [row, List.cons.injEq] at hrow
    rw [regrouped_constant, hrow.1, hrow.2]
    exact ⟨rfl, hmarks, rfl⟩
  | nullable | union | callable | arrayOf => simp [isPrimary] at hprimary
  | _ => exact ⟨rfl, rfl, rfl⟩

/-! ## A regrouped tree can be read -/

/-- A tree can be read at a place, or where one branch is read, branch by branch. -/
structure FitsRow (place : TypePlace) (t : TypeExpr) : Prop where
  whole : place ≠ .branch → WellFormed place t
  row : place = .branch → ∀ b ∈ t.row, WellFormed .branch b

/-- A tree that fits inside brackets is well-formed there. -/
theorem FitsRow.inner {t : TypeExpr} (h : FitsRow .inner t) : WellFormed .inner t :=
  h.whole TypePlace.noConfusion

/-- A tree that can be read where one branch is read is its own row. -/
theorem WellFormed.row_eq_singleton {t : TypeExpr} (h : WellFormed .branch t) : t.row = [t] := by
  generalize hplace : TypePlace.branch = place at h
  induction h with
  | callable _ _ _ _ _ _ _ _ ih =>
    have hrow := ih hplace
    rw [row, List.cons.injEq] at hrow
    rw [row_callable, hrow.1, hrow.2]
  | union hne => exact absurd hplace.symm hne
  | _ => rfl

/-- A tree fits where it is well-formed. -/
theorem WellFormed.fitsRow {place : TypePlace} {t : TypeExpr} (h : WellFormed place t) :
    FitsRow place t := by
  refine ⟨fun _ => h, ?_⟩
  rintro rfl
  rw [h.row_eq_singleton]
  exact List.forall_mem_singleton.2 h

/-- A row of one branch is that branch. -/
theorem FitsRow.branch {t : TypeExpr} (h : FitsRow .branch t) (hrow : t.row = [t]) :
    WellFormed .branch t :=
  h.row rfl t (by rw [hrow]; exact List.mem_singleton_self t)

/-- A union of branches fits anywhere: where one branch is read it is read as its row. -/
theorem fitsRow_unite (place : TypePlace) {ts : List TypeExpr} (hne : ts ≠ [])
    (hwf : ∀ t ∈ ts, WellFormed .branch t) (hhead : ∀ t ∈ ts.head?, t.isCallable = false) :
    FitsRow place (unite ts) := by
  constructor
  · exact (fits_unite place hne hwf hhead).whole
  · intro _
    rwa [row_unite hne fun t ht => (hwf t ht).row_eq_singleton]

/-- A constant whose member is a row of branches fits anywhere as a union that begins with it. -/
theorem fitsRow_constant (place : TypePlace) {owner member : TypeExpr}
    (howner : owner.isOwner = true) (hwf : WellFormed .branch owner) (h : FitsRow .branch member) :
    FitsRow place (unite (.constant owner member.firstBranch :: member.otherBranches)) := by
  obtain ⟨hfirst, hothers⟩ := List.forall_mem_cons.1 (h.row rfl)
  exact fitsRow_unite place (List.cons_ne_nil _ _)
    (List.forall_mem_cons.2 ⟨.constant howner hwf hfirst, hothers⟩) (by simp [isCallable])

/-- A callable fits where its result does. -/
theorem FitsRow.callable {place : TypePlace} {callee result : TypeExpr} {ps : List Parameter}
    (hprimary : callee.isPrimary = true) (hopen : Mark.openParen ∉ callee.primaryMarks)
    (hcallee : WellFormed .branch callee) (htypes : ∀ p ∈ ps, WellFormed .inner p.type)
    (hnames : ∀ p ∈ ps, ∀ w ∈ p.name?, Token.IsParameterName w) (h : FitsRow place result) :
    FitsRow place (.callable callee ps result) := by
  have hcall {r : TypeExpr} (hr : WellFormed place r) : WellFormed place (.callable callee ps r) :=
    .callable hprimary hopen hcallee htypes hnames hr
  refine ⟨fun hplace => hcall (h.whole hplace), ?_⟩
  rintro rfl
  obtain ⟨hfirst, hothers⟩ := List.forall_mem_cons.1 (h.row rfl)
  exact List.forall_mem_cons.2 ⟨hcall hfirst, hothers⟩

/-- A union that is expanded fits anywhere, if its branches do. -/
theorem fitsRow_unite_regroupedRow (place : TypePlace) {ts : List TypeExpr} (hne : ts ≠ [])
    (hwf : ∀ t ∈ ts, WellFormed .branch t) (hhead : ∀ t ∈ ts.head?, t.isCallable = false)
    (h : ∀ u ∈ ts.flatMap spread, FitsRow .branch (regrouped u)) :
    FitsRow place (unite (regroupedRow ts)) := by
  have hrow : ∀ b ∈ regroupedRow ts, WellFormed .branch b := by
    intro b hb
    obtain ⟨u, hu, hb⟩ := List.mem_flatMap.1 hb
    exact (h u (mem_of_mem_nullsFirst hu)).row rfl b hb
  rcases regroupedRow_cases ts with ⟨n, hnull, heq⟩ | ⟨hspread, heq⟩
  · refine fitsRow_unite place (by simp [heq]) hrow ?_
    rw [heq]
    rintro _ ⟨⟩
    exact (kinds_of_isUnion_or_isNull (.inr hnull)).1
  · cases ts with
    | nil => exact absurd rfl hne
    | cons t ts =>
      refine fitsRow_unite place (by simp [heq, row]) hrow ?_
      rw [heq]
      rintro _ ⟨⟩
      have hkind : t.kind ∉ [.nullable, .union] := by
        have hunion := (hwf t List.mem_cons_self).isUnion_eq_false
        have ht := (hspread t List.mem_cons_self).1
        cases t with
        | nullable => simp [spread] at ht
        | union => simp [isUnion] at hunion
        | _ => simp [kind]
      rw [isCallable_eq_kind, kind_firstBranch_regrouped hkind, ← isCallable_eq_kind]
      exact hhead t rfl

/-- An argument stays one with its target regrouped. -/
theorem argument_regrouped {a : TypeExpr} (hwf : WellFormed .inner a.target)
    (hqualifies : a.QualifiesWell) (h : WellFormed .inner (regrouped a.target)) :
    WellFormed .inner (regrouped a).target ∧ (regrouped a).QualifiesWell := by
  cases a with
  | qualified modifier target =>
    obtain ⟨⟨name, rfl, hname⟩, hapart⟩ := hqualifies
    exact ⟨h, ⟨name, rfl, hname⟩, hwf.standsApart_regrouped hapart⟩
  | _ => exact ⟨h.target_eq.1.symm ▸ h, h.target_eq.2⟩

/-- The owner of a constant stays one, and stays one branch. -/
theorem owner_regrouped {t : TypeExpr} (h : t.isOwner = true) :
    (regrouped t).isOwner = true ∧ (regrouped t).row = [regrouped t] := by
  cases t with
  | named | generic => exact ⟨rfl, rfl⟩
  | _ => simp [isOwner] at h

/-- What square brackets may stand behind stays so, and stays one branch. -/
theorem takesBrackets_regrouped {t : TypeExpr} (h : t.takesBrackets = true) :
    (regrouped t).takesBrackets = true ∧ (regrouped t).row = [regrouped t] := by
  cases t with
  | nullable | constant | union | callable | conditional | qualified =>
    simp [takesBrackets, isPrimary] at h
  | _ => exact ⟨rfl, rfl⟩

/-- The regrouped tree fits where the tree stands. -/
theorem WellFormed.fitsRow_regrouped {place : TypePlace} {t : TypeExpr} (h : WellFormed place t)
    (hkeeps : Everywhere KeepsCallee t) : FitsRow place (regrouped t) := by
  induction t using within_induction generalizing place with
  | h t ih =>
    -- An expanded union spreads its nullable branches, so what is read are not its children but
    -- trees below them.
    obtain ⟨hkeeps, hkeepsChildren⟩ := everywhere_iff.1 hkeeps
    have hdeep {c u : TypeExpr} {place' : TypePlace} (hc : c ∈ t.children) (hu : Within u c)
        (hwf : WellFormed place' u) : FitsRow place' (regrouped u) :=
      ih c hc u hu hwf ((hkeepsChildren c hc).within hu)
    have hchild {c : TypeExpr} {place' : TypePlace} (hc : c ∈ t.children)
        (hwf : WellFormed place' c) : FitsRow place' (regrouped c) := hdeep hc (.self c) hwf
    have hnull : FitsRow .branch (regrouped null) := (wellFormed_null .branch).fitsRow
    cases h with
    | @nullable _ inner hinner =>
      rw [regrouped_nullable]
      refine fitsRow_unite_regroupedRow place (List.cons_ne_nil _ _)
        (List.forall_mem_singleton.2 (.nullable hinner)) (by simp [isCallable]) fun u hu => ?_
      obtain rfl | rfl : u = null ∨ u = inner := by simpa [spread] using hu
      · exact hnull
      · exact hchild List.mem_cons_self hinner
    | @union _ ts hplace hlength hwf hhead =>
      have hne : ts ≠ [] := by
        rintro rfl
        simp at hlength
      rw [regrouped_union]
      refine fitsRow_unite_regroupedRow place hne hwf hhead fun u hu => ?_
      obtain ⟨b, hb, hu⟩ := List.mem_flatMap.1 hu
      obtain rfl | hwithin := eq_null_or_within_of_mem_spread hu
      · exact hnull
      · exact hdeep (List.mem_append_left _ hb) hwithin ((hwf b hb).of_mem_spread hu)
    | @constant _ owner member howner hwf hmember =>
      obtain ⟨howner', hownerRow⟩ := owner_regrouped howner
      rw [regrouped_constant]
      exact fitsRow_constant place howner' ((hchild List.mem_cons_self hwf).branch hownerRow)
        (hchild (List.mem_cons_of_mem _ List.mem_cons_self) hmember)
    | @callable _ callee ps result hprimary hopen hwf htypes hnames hresult =>
      obtain ⟨hcalleeMem, hpsMem, hresultMem⟩ := mem_children_callable callee ps result
      have hkeepsCallee : ∀ owner member, callee = .constant owner member →
          Avoids [.nullable] member := by
        rintro owner member rfl
        exact hkeeps
      obtain ⟨hprimary', hmarks, hrow⟩ := hwf.callee_regrouped hprimary hopen hkeepsCallee
      have hcallee := (hchild hcalleeMem hwf).branch hrow
      obtain ⟨htypes', hnames'⟩ := forall_mapType (f := regrouped) (P := WellFormed .inner)
        (fun p hp => (hchild (hpsMem p hp) (htypes p hp)).inner) hnames
      rw [regrouped_eq_mapChildren (by simp [kind]), mapChildren]
      exact .callable hprimary' (hmarks ▸ hopen) hcallee htypes' hnames' (hchild hresultMem hresult)
    | named hname => exact (WellFormed.named hname).fitsRow
    | @generic _ name args hname harray hlist hne hargs hqualifies =>
      have harguments : ∀ a ∈ args,
          WellFormed .inner (regrouped a).target ∧ (regrouped a).QualifiesWell := fun a ha =>
        argument_regrouped (hargs a ha) (hqualifies a ha)
          (hdeep (List.mem_cons_of_mem _ ha) (within_target a) (hargs a ha)).inner
      rw [regrouped_eq_mapChildren (by simp [kind]), mapChildren]
      exact WellFormed.fitsRow (.generic hname harray hlist (by simpa using hne)
        (List.forall_mem_map.2 fun a ha => (harguments a ha).1)
        (List.forall_mem_map.2 fun a ha => (harguments a ha).2))
    | @shape _ es hvalue hkey =>
      have hchildValue : ∀ e ∈ es, WellFormed .inner (regrouped e.value) := fun e he =>
        (hchild (mem_children_shape e he _ e.value_mem_types) (hvalue e he)).inner
      have hchildKey : ∀ e ∈ es, ∀ key ∈ e.key?, WellFormed .inner (regrouped key) :=
        fun e he key hk =>
          have hmem := mem_children_shape e he key (ShapeEntry.key_mem_types hk)
          (hchild hmem (hkey e he key hk)).inner
      obtain ⟨hvalue', hkey'⟩ := forall_mapTypes (P := WellFormed .inner) hchildValue hchildKey
      rw [regrouped_eq_mapChildren (by simp [kind]), mapChildren]
      exact WellFormed.fitsRow (.shape hvalue' hkey')
    | record hkey hvalue =>
      exact WellFormed.fitsRow (.record (hchild List.mem_cons_self hkey).inner
        (hchild (List.mem_cons_of_mem _ List.mem_cons_self) hvalue).inner)
    | sequence hitem =>
      exact WellFormed.fitsRow (.sequence (hchild List.mem_cons_self hitem).inner)
    | @arrayOf _ item htakes hitem =>
      obtain ⟨htakes', hrow⟩ := takesBrackets_regrouped htakes
      exact WellFormed.fitsRow (.arrayOf htakes' ((hchild List.mem_cons_self hitem).branch hrow))
    | literal hbody => exact (WellFormed.literal hbody).fitsRow
    | group hinner => exact WellFormed.fitsRow (.group (hchild List.mem_cons_self hinner).inner)
    | conditional hcallable hconditional hsubject hbound hconsequent halternative =>
      have hkinds := hsubject.regular.kinds_regrouped
      refine WellFormed.fitsRow (.conditional (hkinds.1.trans hcallable)
        (hkinds.2.1.trans hconditional) (hchild ?_ hsubject).inner (hchild ?_ hbound).inner
        (hchild ?_ hconsequent).inner (hchild ?_ halternative).inner)
      all_goals simp [children, TypeExpr.operands]
    | ellipsis => exact WellFormed.ellipsis.fitsRow

end Docblock
