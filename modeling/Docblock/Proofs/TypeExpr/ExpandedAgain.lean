import Docblock.Proofs.TypeExpr.Regrouping

/-!
# Expanding twice

The expanded form of a type is read back as the regrouped tree (`parse_lines_regrouped`), as long as
the callees of callables stay callees. In that tree nothing is nullable, so writing it again moves
`null` branches and drops some, and does no more. It does neither if no union has a `null` behind
its first branch (`Tidy`).

A union of a regrouped tree has one only from a nullable type that stands directly in another: its
`null` and the outer one come from two unions, and only within one union is a `null` dropped. So the
form is a fixed point exactly for types without such a pair (`parse_expanded_again`).

The two directions are proved by different means. That a tidy tree is written again as it was
follows from arranging it, which then changes nothing (`Everywhere.arrange_eq_self`). That nothing
else is follows from reading: if the lines are the same, the regrouped tree is read from its own
lines, so it is its own regrouped tree, and of such a tree it is known that it is tidy.

For a callee that does not stay one branch the text is no longer one type, and the result does not
speak of it (`parse_expanded_callee`).
-/

namespace Docblock

open TypeExpr

namespace TypeExpr

/-! ## Nothing is nullable in a regrouped tree -/

/-- A property of all nodes of a union of branches. One branch alone is no union. -/
theorem everywhere_unite {P : TypeExpr → Prop} {ts : List TypeExpr} (hunion : P (.union ts))
    (h : ∀ t ∈ ts, Everywhere P t) : Everywhere P (unite ts) := by
  match ts with
  | [t] => exact h t List.mem_cons_self
  | [] | _ :: _ :: _ => exact everywhere_union_iff.2 ⟨hunion, h⟩

/-- What holds at all nodes of a tree holds at those of its row, if it holds of a callable whatever
the result. -/
theorem Everywhere.row {P : TypeExpr → Prop} {t : TypeExpr} (h : Everywhere P t)
    (hcallable : ∀ callee ps result result',
      P (.callable callee ps result) → P (.callable callee ps result')) :
    ∀ b ∈ t.row, Everywhere P b := by
  induction t using firstBranch.induct with
  | case1 t ts => exact (everywhere_union_iff.1 h).2
  | case2 callee ps result ih =>
    obtain ⟨hnode, hcallee, hps, hresult⟩ := everywhere_callable_iff.1 h
    obtain ⟨hfirst, hothers⟩ := List.forall_mem_cons.1 (ih hresult)
    refine List.forall_mem_cons.2 ⟨?_, hothers⟩
    exact everywhere_callable_iff.2 ⟨hcallable _ _ _ _ hnode, hcallee, hps, hfirst⟩
  | case3 t hunion hcall =>
    rw [row_eq_singleton_of_ne hunion hcall]
    exact List.forall_mem_singleton.2 h

/-- A tree is not nullable. -/
def NotNullable (t : TypeExpr) : Prop := t.kind ≠ .nullable

/-- In an expanded union nothing is nullable, if nothing is in its spread branches. -/
theorem everywhere_notNullable_regroupedRow {ts : List TypeExpr}
    (h : ∀ u ∈ ts.flatMap spread, Everywhere NotNullable (regrouped u)) :
    Everywhere NotNullable (unite (regroupedRow ts)) := by
  refine everywhere_unite Kind.noConfusion fun b hb => ?_
  obtain ⟨u, hu, hb⟩ := List.mem_flatMap.1 hb
  exact (h u (mem_of_mem_nullsFirst hu)).row (fun _ _ _ _ => id) b hb

/-- In a regrouped tree nothing is nullable: every nullable type was written as a union. -/
theorem everywhere_notNullable_regrouped (t : TypeExpr) : Everywhere NotNullable (regrouped t) := by
  induction t using within_induction with
  | h t ih =>
    have hchild (c : TypeExpr) (hc : c ∈ t.children) : Everywhere NotNullable (regrouped c) :=
      ih c hc c (.self c)
    have hnull : Everywhere NotNullable (regrouped null) :=
      everywhere_iff.2 ⟨Kind.noConfusion, List.forall_mem_nil _⟩
    cases t with
    | nullable inner =>
      rw [regrouped_nullable]
      refine everywhere_notNullable_regroupedRow fun u hu => ?_
      obtain rfl | rfl : u = null ∨ u = inner := by simpa [spread] using hu
      · exact hnull
      · exact hchild u List.mem_cons_self
    | union ts =>
      rw [regrouped_union]
      refine everywhere_notNullable_regroupedRow fun u hu => ?_
      obtain ⟨t, ht, hu⟩ := List.mem_flatMap.1 hu
      obtain rfl | hwithin := eq_null_or_within_of_mem_spread hu
      · exact hnull
      · exact ih t (List.mem_append_left _ ht) u hwithin
    | constant owner member =>
      have howner := hchild owner List.mem_cons_self
      have hmember := hchild member (List.mem_cons_of_mem _ List.mem_cons_self)
      obtain ⟨hfirst, hothers⟩ :=
        List.forall_mem_cons.1 (hmember.row fun _ _ _ _ => id)
      rw [regrouped_constant]
      refine everywhere_unite Kind.noConfusion (List.forall_mem_cons.2 ⟨?_, hothers⟩)
      exact everywhere_constant_iff.2 ⟨Kind.noConfusion, howner, hfirst⟩
    | _ =>
      rw [regrouped_eq_mapChildren (by simp [kind]), everywhere_mapChildren_iff]
      exact ⟨Kind.noConfusion, hchild⟩

/-- Where nothing is nullable, neither the tree nor a result it ends with is. -/
theorem Everywhere.avoids_nullable {t : TypeExpr} (h : Everywhere NotNullable t) :
    Avoids [.nullable] t := by
  induction t using Avoids.induct with
  | case1 callee ps result ih =>
    exact ⟨by simp, ih (everywhere_callable_iff.1 h).2.2.2⟩
  | case2 t hcallable =>
    have hnode : t.kind ∉ [Kind.nullable] := by
      rw [List.mem_singleton]
      exact (everywhere_iff.1 h).1
    cases t with
    | callable callee ps result => exact (hcallable callee ps result rfl).elim
    | _ => exact hnode

/-- Where nothing is nullable, every callee stays one branch. -/
theorem Everywhere.keepsCallee {t : TypeExpr} (h : Everywhere NotNullable t) :
    Everywhere KeepsCallee t := by
  intro u hu
  have hdeep := h.within hu
  cases u with
  | callable callee ps result =>
    have hcallee := (everywhere_callable_iff.1 hdeep).2.1
    cases callee with
    | constant owner member =>
      exact (everywhere_constant_iff.1 hcallee).2.2.avoids_nullable
    | _ => trivial
  | _ => trivial

/-! ## Where a `null` stands -/

/-- No branch of a union is `null` but the first. -/
def Tidy : TypeExpr → Prop
  | .union ts => ∀ b ∈ ts.tail, b.isNull = false
  | _ => True

/-- A union of branches is tidy if no branch behind the first is `null` and each is tidy. -/
theorem everywhere_tidy_unite_iff {t : TypeExpr} {ts : List TypeExpr} :
    Everywhere Tidy (unite (t :: ts)) ↔
      (∀ b ∈ ts, b.isNull = false) ∧ ∀ b ∈ t :: ts, Everywhere Tidy b := by
  cases ts with
  | nil => simp [unite]
  | cons u us => exact everywhere_union_iff

/-- A tree is tidy if the union of its row is. -/
theorem everywhere_tidy_unite_row_iff {t : TypeExpr} :
    Everywhere Tidy (unite t.row) ↔ Everywhere Tidy t := by
  rw [row, everywhere_tidy_unite_iff]
  induction t using firstBranch.induct with
  | case1 t ts =>
    have hunion : Everywhere Tidy (.union (t :: ts)) ↔ _ := everywhere_union_iff
    exact hunion.symm
  | case2 callee ps result ih =>
    show (_ ∧ ∀ b ∈ .callable callee ps result.firstBranch :: result.otherBranches, _) ↔ _
    rw [List.forall_mem_cons, everywhere_callable_iff, everywhere_callable_iff, ← ih,
      List.forall_mem_cons]
    show (_ ∧ (True ∧ _) ∧ _) ↔ (True ∧ _)
    tauto
  | case3 t hunion hcallable =>
    have hrow := row_eq_singleton_of_ne hunion hcallable
    rw [row, List.cons.injEq] at hrow
    rw [hrow.1, hrow.2]
    simp

/-- A nullable type does not stand directly in a nullable type. -/
def NotDoubled : TypeExpr → Prop
  | .nullable inner => inner.kind ≠ .nullable
  | _ => True

/-- What is not nullable is not nullable twice. -/
theorem NotNullable.notDoubled {t : TypeExpr} (h : t.NotNullable) : t.NotDoubled := by
  cases t with
  | nullable => exact absurd rfl h
  | _ => trivial

/-- Only a name is `null`. -/
theorem isNull_eq_false_of_kind {t : TypeExpr} (h : t.kind ≠ .named) : t.isNull = false := by
  cases t with
  | named => exact absurd rfl h
  | _ => rfl

/-- The first branch that is read of a tree is `null` only if the tree is `null` or nullable. -/
theorem isNull_firstBranch_regrouped {t : TypeExpr} (h : t.kind ≠ .union)
    (hnull : t.isNull = false) :
    (regrouped t).firstBranch.isNull = false ↔ t.kind ≠ .nullable := by
  cases t with
  | nullable inner =>
    have hnull : (regrouped (.nullable inner)).firstBranch.isNull = true := by
      rw [regrouped_nullable, regroupedRow_nullable]
      cases inner.isNull <;> rfl
    exact iff_of_false (by simp [hnull]) fun hkind => hkind rfl
  | named => exact iff_of_true hnull Kind.noConfusion
  | union => exact absurd rfl h
  | _ =>
    refine iff_of_true (isNull_eq_false_of_kind ?_) Kind.noConfusion
    rw [kind_firstBranch_regrouped (by simp [kind])]
    exact Kind.noConfusion

/-- None of several branches is `null`, and no union in them has one behind its first branch. -/
def Clear (ts : List TypeExpr) : Prop := ∀ b ∈ ts, b.isNull = false ∧ Everywhere Tidy b

/-- Branches are clear if the first is not `null` and their union is tidy. -/
theorem clear_cons_iff {t : TypeExpr} {ts : List TypeExpr} :
    Clear (t :: ts) ↔ t.isNull = false ∧ Everywhere Tidy (unite (t :: ts)) := by
  rw [everywhere_tidy_unite_iff]
  simp only [Clear, List.forall_mem_cons, forall_and]
  tauto

/-- The row of a tree that is not `null` is clear unless the tree is nullable or not tidy itself. -/
theorem clear_row_iff {t : TypeExpr} (h : t.kind ≠ .union) (hnull : t.isNull = false) :
    Clear (regrouped t).row ↔ t.kind ≠ .nullable ∧ Everywhere Tidy (regrouped t) := by
  rw [row, clear_cons_iff, ← row, everywhere_tidy_unite_row_iff,
    isNull_firstBranch_regrouped h hnull]

/-- The unions in the row of a union are tidy if no branch but its own `null` adds a `null`. -/
theorem everywhere_tidy_unite_regroupedRow_iff {ts : List TypeExpr}
    (h : ∀ t ∈ ts, t.kind ≠ .union) :
    Everywhere Tidy (unite (regroupedRow ts)) ↔
      ∀ u ∈ ts.flatMap spread, u.isNull = false → Clear (regrouped u).row := by
  rcases regroupedRow_cases ts with ⟨n, hnull, heq⟩ | ⟨hspread, heq⟩
  · have hn : Everywhere Tidy n := by
      cases n with
      | named => exact everywhere_iff.2 ⟨trivial, List.forall_mem_nil _⟩
      | _ => simp [isNull] at hnull
    rw [heq, everywhere_tidy_unite_iff, List.forall_mem_cons, and_iff_right hn, ← forall₂_and]
    simp only [List.forall_mem_flatMap, List.mem_filter, Bool.not_eq_true', and_imp]
    rfl
  · have hflat : ts.flatMap spread = ts := by
      rw [List.flatMap_congr fun t ht => (hspread t ht).1, List.flatMap_singleton']
    have hclear : (∀ u ∈ ts, u.isNull = false → Clear (regrouped u).row) ↔
        Clear (ts.flatMap fun t => (regrouped t).row) := by
      rw [Clear, List.forall_mem_flatMap]
      exact forall₂_congr fun u hu => by simp only [(hspread u hu).2, true_implies, Clear]
    rw [heq, hflat, hclear]
    cases ts with
    | nil =>
      have hempty : Everywhere Tidy (.union []) :=
        everywhere_union_iff.2 ⟨List.forall_mem_nil _, List.forall_mem_nil _⟩
      exact iff_of_true hempty (List.forall_mem_nil _)
    | cons t ts =>
      have hfirst : (regrouped t).firstBranch.isNull = false := by
        obtain ⟨hspread, hnull⟩ := hspread t List.mem_cons_self
        rw [isNull_firstBranch_regrouped (h t List.mem_cons_self) hnull]
        rintro hkind
        cases t with
        | nullable => simp [spread] at hspread
        | _ => exact Kind.noConfusion hkind
      rw [List.flatMap_cons, row, List.cons_append, clear_cons_iff, and_iff_right hfirst]

/-- A `null` is not nullable, and holds nothing that is. -/
theorem notDoubled_of_isNull {t : TypeExpr} (h : t.isNull = true) :
    t.kind ≠ .nullable ∧ Everywhere NotDoubled t := by
  cases t with
  | named => exact ⟨Kind.noConfusion, everywhere_iff.2 ⟨trivial, List.forall_mem_nil _⟩⟩
  | _ => simp [isNull] at h

/-- A branch that is spread doubles no `?` if what it is spread to does not. -/
theorem forall_mem_spread_iff {t : TypeExpr} :
    (∀ u ∈ t.spread, u.isNull = false → u.kind ≠ .nullable ∧ Everywhere NotDoubled u) ↔
      Everywhere NotDoubled t := by
  have hnull (u : TypeExpr) : (u.isNull = false → u.kind ≠ .nullable ∧ Everywhere NotDoubled u) ↔
      u.kind ≠ .nullable ∧ Everywhere NotDoubled u := by
    refine ⟨fun h => ?_, fun h _ => h⟩
    cases hu : u.isNull with
    | false => exact h hu
    | true => exact notDoubled_of_isNull hu
  simp only [hnull]
  cases t with
  | nullable inner =>
    rw [everywhere_iff, spread, List.forall_mem_cons, and_iff_right (notDoubled_of_isNull rfl),
      List.forall_mem_singleton]
    exact and_congr_right' List.forall_mem_singleton.symm
  | _ => exact List.forall_mem_singleton.trans (and_iff_right Kind.noConfusion)

/-- A tree that avoids kinds is of none of them. -/
theorem Avoids.kind_not_mem {kinds : List Kind} {t : TypeExpr} (h : Avoids kinds t) :
    t.kind ∉ kinds := by
  cases t with
  | callable => exact h.1
  | _ => exact h

/-- A branch that is no union is spread to branches that are none. -/
theorem Sound.kind_ne_union_of_mem_spread {t u : TypeExpr} (h : t.Sound) (hkind : t.kind ≠ .union)
    (hu : u ∈ t.spread) : u.kind ≠ .union := by
  cases t with
  | nullable inner =>
    rcases List.mem_pair.1 hu with rfl | rfl
    · exact Kind.noConfusion
    · have hinner : Avoids [.union, .conditional, .qualified] u := h.regular
      exact fun hunion => hinner.kind_not_mem (by simp [hunion])
  | _ =>
    obtain rfl := List.mem_singleton.1 hu
    exact hkind

/-- The unions of a regrouped tree are tidy exactly if no nullable type stands directly in one. -/
theorem Sound.everywhere_tidy_regrouped_iff {t : TypeExpr} (h : t.Sound) :
    Everywhere Tidy (regrouped t) ↔ Everywhere NotDoubled t := by
  induction t using within_induction with
  | h t ih =>
    have hdeep {c u : TypeExpr} (hc : c ∈ t.children) (hu : Within u c) :
        Everywhere Tidy (regrouped u) ↔ Everywhere NotDoubled u :=
      ih c hc u hu ((h.children c hc).within hu)
    have hchild {c : TypeExpr} (hc : c ∈ t.children) :
        Everywhere Tidy (regrouped c) ↔ Everywhere NotDoubled c := hdeep hc (.self c)
    -- a nullable type is expanded as a union of it alone, so these two cases are one
    have hspread {ts : List TypeExpr} (hts : ∀ b ∈ ts, b.Sound ∧ b.kind ≠ .union)
        (hiff : ∀ b ∈ ts, ∀ u ∈ b.spread,
          Everywhere Tidy (regrouped u) ↔ Everywhere NotDoubled u) :
        Everywhere Tidy (unite (regroupedRow ts)) ↔ ∀ b ∈ ts, Everywhere NotDoubled b := by
      rw [everywhere_tidy_unite_regroupedRow_iff fun b hb => (hts b hb).2, List.forall_mem_flatMap]
      refine forall₂_congr fun b hb => ?_
      rw [← forall_mem_spread_iff]
      refine forall₂_congr fun u hu => ?_
      have hunion := (hts b hb).1.kind_ne_union_of_mem_spread (hts b hb).2 hu
      refine forall_congr' fun hnull => ?_
      rw [clear_row_iff hunion hnull, hiff b hb u hu]
    have hnull : Everywhere Tidy (regrouped null) ↔ Everywhere NotDoubled null :=
      iff_of_true (everywhere_iff.2 ⟨trivial, List.forall_mem_nil _⟩) (notDoubled_of_isNull rfl).2
    cases t with
    | nullable inner =>
      rw [regrouped_nullable, hspread (List.forall_mem_singleton.2 ⟨h, Kind.noConfusion⟩),
        List.forall_mem_singleton]
      refine List.forall_mem_singleton.2 (List.forall_mem_cons.2 ⟨hnull, ?_⟩)
      exact List.forall_mem_singleton.2 (hchild List.mem_cons_self)
    | union ts =>
      have hmem {b : TypeExpr} (hb : b ∈ ts) : b ∈ (TypeExpr.union ts).children :=
        List.mem_append_left _ hb
      rw [regrouped_union, hspread, everywhere_union_iff]
      · exact (and_iff_right trivial).symm
      · intro b hb
        refine ⟨h.children b (hmem hb), fun hkind => ?_⟩
        exact (h.regular.2.1 b hb).kind_not_mem (by simp [hkind])
      · intro b hb u hu
        obtain rfl | hwithin := eq_null_or_within_of_mem_spread hu
        · exact hnull
        · exact hdeep (hmem hb) hwithin
    | constant owner member =>
      have howner := hchild (c := owner) List.mem_cons_self
      have hmember := hchild (c := member) (List.mem_cons_of_mem _ List.mem_cons_self)
      rw [← everywhere_tidy_unite_row_iff, row, everywhere_tidy_unite_iff,
        List.forall_mem_cons] at hmember
      rw [regrouped_constant, everywhere_tidy_unite_iff, List.forall_mem_cons,
        everywhere_constant_iff, everywhere_constant_iff, ← howner, ← hmember]
      show (_ ∧ (True ∧ _) ∧ _) ↔ (True ∧ _)
      tauto
    | _ =>
      rw [regrouped_eq_mapChildren (by simp [kind]), everywhere_mapChildren_iff, everywhere_iff]
      exact and_congr (iff_of_true trivial trivial) (forall₂_congr fun c hc => hchild hc)

/-! ## Writing a tidy tree -/

/-- Branches without a `null` behind the first stay in order, and all stay. -/
theorem nullsFirst_eq_self_of_tail {ts : List TypeExpr} (h : ∀ b ∈ ts.tail, b.isNull = false) :
    nullsFirst true ts = ts := by
  cases ts with
  | nil => rfl
  | cons t ts =>
    have hfilter : ts.filter (!·.isNull) = ts := List.filter_eq_self.2 fun b hb => by simp [h b hb]
    have hfind : ts.find? isNull = none := List.find?_eq_none.2 fun b hb => by simp [h b hb]
    cases hnull : t.isNull with
    | true => rw [nullsFirst_once]; simp [hnull, hfilter]
    | false => exact nullsFirst_eq_self (by simp [hnull, hfind])

/-- A tidy tree in which nothing is nullable is written as it is. -/
theorem Everywhere.arrange_eq_self {t : TypeExpr} (hplain : Everywhere NotNullable t)
    (htidy : Everywhere Tidy t) : arrange true t = t := by
  induction t using within_induction with
  | h t ih =>
    obtain ⟨hnode, hplain⟩ := everywhere_iff.1 hplain
    obtain ⟨htail, htidy⟩ := everywhere_iff.1 htidy
    have hchild (c : TypeExpr) (hc : c ∈ t.children) : arrange true c = c :=
      ih c hc c (.self c) (hplain c hc) (htidy c hc)
    cases t with
    | nullable => exact absurd rfl hnode
    | union ts =>
      have hmem {b : TypeExpr} (hb : b ∈ ts) : b ∈ (TypeExpr.union ts).children :=
        List.mem_append_left _ hb
      have hspread : ts.flatMap spread = ts := by
        have hsingle : ∀ b ∈ ts, b.spread = [b] := by
          intro b hb
          have hkind := (everywhere_iff.1 (hplain b (hmem hb))).1
          cases b with
          | nullable => exact absurd rfl hkind
          | _ => rfl
        rw [List.flatMap_congr hsingle, List.flatMap_singleton']
      have harrange : ts.map (arrange true) = ts :=
        (List.map_congr_left (g := id) fun b hb => hchild b (hmem hb)).trans (List.map_id ts)
      rw [arrange_union_spread, hspread, nullsFirst_eq_self_of_tail htail, harrange]
    | _ =>
      rw [arrange_eq_mapChildren (by simp [kind])]
      exact mapChildren_eq_self hchild

end TypeExpr

/-! ## Reading an expanded type, and writing it again -/

section Lines

variable {t : TypeExpr} {o : Options} (hexpand : o.expandNull = true)

include hexpand

/-- An expanded type is read back as its regrouped tree. -/
theorem parse_lines_regrouped (hwf : WellFormed .top t) (hkeeps : Everywhere KeepsCallee t)
    (hunit : ∀ c ∈ o.indentUnit, Token.isLayout c = true) (level : WrapLevel) (location : Text) :
    parse location (Text.unpieces (t.lines o level)) = .ok ⟨regrouped t, []⟩ := by
  have hwritten : (arrange true t).written level o.indentUnit 0 =
      (regrouped t).written level o.indentUnit 0 :=
    congrArg (Piece.flat level o.indentUnit) (hwf.sound.pieces_regrouped 0).symm
  have hregrouped := (hwf.fitsRow_regrouped hkeeps).whole TypePlace.noConfusion
  rw [unpieces_lines, hexpand, hwritten]
  exact hregrouped.parse_written hunit location 0

/-- A regrouped tree without a `null` behind the first branch of a union is written as the tree. -/
theorem lines_regrouped (hwf : WellFormed .top t) (htidy : Everywhere Tidy (regrouped t))
    (level : WrapLevel) : (regrouped t).lines o level = t.lines o level := by
  have harrange := (everywhere_notNullable_regrouped t).arrange_eq_self htidy
  simp only [lines, TypeExpr.render, layout, hexpand, harrange, hwf.sound.pieces_regrouped 0]

end Lines

/-- An expanded type can be read again, with nothing left, and is written the same way again exactly
if no nullable type in it stands directly in another. Callables have callees that stay one branch
when they are expanded. -/
theorem parse_expanded_again {location text : Text} {parsed : Parsed}
    (hparsed : parse location text = .ok parsed) {o : Options} (hexpand : o.expandNull = true)
    (hunit : ∀ c ∈ o.indentUnit, Token.isLayout c = true)
    (hkeeps : Everywhere KeepsCallee parsed.type) (level : WrapLevel) (location' : Text) :
    ∃ t, parse location' (Text.unpieces (parsed.type.lines o level)) = .ok ⟨t, []⟩ ∧
      (t.lines o level = parsed.type.lines o level ↔ Everywhere NotDoubled parsed.type) := by
  obtain ⟨r, hreads, -⟩ := parse_eq_ok_iff.1 hparsed
  have hwf : WellFormed .top parsed.type := hreads.shaped.1
  have hread := parse_lines_regrouped hexpand hwf hkeeps hunit level location'
  refine ⟨regrouped parsed.type, hread, fun hlines => ?_, fun hdoubled => ?_⟩
  · -- the regrouped tree is read from its own lines, and in it nothing is nullable
    set again := regrouped parsed.type
    have hplain : Everywhere NotNullable again := everywhere_notNullable_regrouped _
    have hwf' : WellFormed .top again :=
      (hwf.fitsRow_regrouped hkeeps).whole TypePlace.noConfusion
    have hread' := parse_lines_regrouped hexpand hwf' hplain.keepsCallee hunit level location'
    rw [hlines, hread] at hread'
    have hsame : regrouped again = again := by
      injection hread' with hparsed
      injection hparsed with htype
      exact htype.symm
    have hdoubled : Everywhere NotDoubled again := fun u hu => (hplain u hu).notDoubled
    have htidy := hwf'.sound.everywhere_tidy_regrouped_iff.2 hdoubled
    rw [hsame] at htidy
    exact hwf.sound.everywhere_tidy_regrouped_iff.1 htidy
  · exact lines_regrouped hexpand hwf (hwf.sound.everywhere_tidy_regrouped_iff.2 hdoubled) level

/-- Nullable types as the member of a constant and as the result of a callable: what they hold is
read again as branches of the union. -/
theorem parse_expanded_again_regrouped :
    let nullable (name : String) : TypeExpr := .nullable (.named name.toList)
    let constant : TypeExpr := .constant (.named "A".toList) (nullable "B")
    let call : TypeExpr := .callable (.named "f".toList) [] (nullable "C")
    let t : TypeExpr := .union [constant, call]
    let o : Options := { expandNull := true }
    parse [] "A::?B|f(): ?C kept".toList = .ok ⟨t, "kept".toList⟩ ∧ Everywhere KeepsCallee t ∧
      Text.unpieces (t.lines o .never) = "A::null | B | f(): null | C".toList ∧
      ∃ t', parse [] (Text.unpieces (t.lines o .never)) = .ok ⟨t', []⟩ ∧
        t'.lines o .never = t.lines o .never := by
  intro nullable constant call t o
  have hparsed : parse [] "A::?B|f(): ?C kept".toList = .ok ⟨t, "kept".toList⟩ := by
    with_unfolding_all rfl
  have heverywhere {P : TypeExpr → Prop} (hnamed : ∀ name, P (.named name))
      (hnullable : ∀ name, P (nullable name)) (hconstant : P constant) (hcall : P call)
      (ht : P t) : Everywhere P t := by
    have hname (name : Text) : Everywhere P (.named name) :=
      everywhere_iff.2 ⟨hnamed name, List.forall_mem_nil _⟩
    have hinner (name : String) : Everywhere P (nullable name) :=
      everywhere_iff.2 ⟨hnullable name, List.forall_mem_singleton.2 (hname _)⟩
    refine everywhere_union_iff.2 ⟨ht, List.forall_mem_cons.2 ⟨?_, List.forall_mem_singleton.2 ?_⟩⟩
    · exact everywhere_constant_iff.2 ⟨hconstant, hname _, hinner _⟩
    · exact everywhere_callable_iff.2 ⟨hcall, hname _, List.forall_mem_nil _, hinner _⟩
  have hkeeps : Everywhere KeepsCallee t :=
    heverywhere (fun _ => trivial) (fun _ => trivial) trivial trivial trivial
  have hdoubled : Everywhere NotDoubled t :=
    heverywhere (fun _ => trivial) (fun _ => Kind.noConfusion) trivial trivial trivial
  obtain ⟨t', hread, hlines⟩ :=
    parse_expanded_again hparsed (o := o) rfl (by decide) hkeeps .never []
  exact ⟨hparsed, hkeeps, by decide, t', hread, hlines.2 hdoubled⟩

/-- A nullable type directly in another: both write a `null`, and one of them is dropped when the
union that was read is written. -/
theorem parse_expanded_again_doubled :
    let string : TypeExpr := .named "string".toList
    let o : Options := { expandNull := true }
    let again : TypeExpr := .union [null, null, string]
    parse [] "??string".toList = .ok ⟨.nullable (.nullable string), []⟩ ∧
      (TypeExpr.nullable (.nullable string)).lines o .never = ["null | null | string".toList] ∧
      parse [] "null | null | string".toList = .ok ⟨again, []⟩ ∧
      again.lines o .never = ["null | string".toList] := by
  intro string o again
  exact ⟨by with_unfolding_all rfl, by decide, by with_unfolding_all rfl, by decide⟩

/-- A nullable type as the member of a callee: the constant ends at the `null` it is written with,
and the parameters stand behind another branch, where none are read. -/
theorem parse_expanded_callee :
    let constant (member : TypeExpr) : TypeExpr := .constant (.named "A".toList) member
    let items : TypeExpr := .arrayOf (.named "B".toList)
    let t : TypeExpr := .callable (constant (.nullable items)) [] (.named "int".toList)
    parse [] "A::?B[](): int".toList = .ok ⟨t, []⟩ ∧ ¬KeepsCallee t ∧
      t.lines { expandNull := true } .never = ["A::null | B[](): int".toList] ∧
      parse [] "A::null | B[](): int".toList =
        .ok ⟨.union [constant null, items], "(): int".toList⟩ := by
  intro constant items t
  exact ⟨by with_unfolding_all rfl, fun h => h List.mem_cons_self, by decide,
    by with_unfolding_all rfl⟩

end Docblock
