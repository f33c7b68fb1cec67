import Docblock.Proofs.Path.Order
import Docblock.Proofs.Text.Cuts

/-!
# The greatest common directory

The paths on the way to an absolute path have the rows of its first components, one component more
each time (`map_components_ancestors`). So one path leads to another just if its components are the
first ones of the other path (`leads_iff`), and where the rows of paths on the way to two paths
agree, place by place, is where the components of the two agree. What several paths leave of such a
row leads to all of them, and its last path is the greatest that does (`longestCommon?_greatest`).

The loop over the paths keeps one invariant: the paths that are left have the rows of first
components of what all paths so far begin with (`map_components_foldl`).

Greatest means that every path that leads to all of them leads to this one (`Leads`). It is unique
only up to spelling, and the spelling that is answered is the one on the way to the first path; a
step up is a component like any other, for nothing is looked up. Relative paths are not considered:
an empty row of components would be on the way to nothing.
-/

namespace Docblock.Path

/-- One path spells another one, or a directory on the way to it. -/
def Leads (a b : Text) : Prop := ∃ e ∈ ancestors b, same e a

/-! ## Growing rows -/

section Growing

variable {α : Type}

/-- The rows that begin with `row`, one element of `rest` longer each time. -/
def growing (row : List α) : List α → List (List α)
  | [] => []
  | a :: rest => (row ++ [a]) :: growing (row ++ [a]) rest

/-- The longest of the growing rows is the whole row. -/
theorem getLast?_growing (row : List α) {rest : List α} (h : rest ≠ []) :
    (growing row rest).getLast? = some (row ++ rest) := by
  induction rest generalizing row with
  | nil => exact absurd rfl h
  | cons a rest ih =>
    cases rest with
    | nil => rfl
    | cons b rest =>
      have hnext := ih (row ++ [a]) (List.cons_ne_nil b rest)
      rw [List.append_assoc] at hnext
      rw [growing, List.getLast?_cons, hnext]
      rfl

/-- The growing rows are the first parts of the whole row that go beyond the row they start from. -/
theorem mem_growing_iff {row rest found : List α} :
    found ∈ growing row rest ↔
      row <+: found ∧ row.length < found.length ∧ found <+: row ++ rest := by
  induction rest generalizing row with
  | nil =>
    rw [growing, List.append_nil]
    refine iff_of_false List.not_mem_nil fun ⟨_, hlength, hfound⟩ => ?_
    exact absurd hfound.length_le (by omega)
  | cons a rest ih =>
    rw [growing, List.mem_cons, ih, List.append_assoc, List.length_append, List.length_singleton]
    constructor
    · rintro (rfl | ⟨hrow, hlength, hfound⟩)
      · exact ⟨List.prefix_append _ _, by simp, ⟨rest, by simp⟩⟩
      · exact ⟨(List.prefix_append _ _).trans hrow, by omega, hfound⟩
    · rintro ⟨hrow, hlength, hfound⟩
      have hnext : row ++ [a] <+: found := by
        refine List.prefix_of_prefix_length_le ⟨rest, List.append_assoc _ _ _⟩ hfound ?_
        rw [List.length_append, List.length_singleton]
        omega
      -- either it is the next front itself, or it goes on beyond it
      by_cases hlength : (row ++ [a]).length = found.length
      · exact .inl (hnext.eq_of_length hlength).symm
      · have hle := hnext.length_le
        rw [List.length_append, List.length_singleton] at hlength hle
        exact .inr ⟨hnext, by omega, hfound⟩

variable [DecidableEq α]

/-- What two rows begin with. -/
def commonFront : List α → List α → List α
  | a :: as, b :: bs => if a = b then a :: commonFront as bs else []
  | _, _ => []

/-- What two rows begin with is the greatest first part of both. -/
theorem prefix_commonFront_iff {row as bs : List α} :
    row <+: commonFront as bs ↔ row <+: as ∧ row <+: bs := by
  fun_induction commonFront as bs generalizing row with
  | case1 a as bs ih =>
    cases row with
    | nil => exact iff_of_true List.nil_prefix ⟨List.nil_prefix, List.nil_prefix⟩
    | cons c row =>
      rw [List.cons_prefix_cons, List.cons_prefix_cons, List.cons_prefix_cons, ih]
      exact and_and_left
  | case2 a as b bs hne =>
    refine ⟨fun h => List.prefix_nil.1 h ▸ ⟨List.nil_prefix, List.nil_prefix⟩, fun h => ?_⟩
    cases row with
    | nil => exact List.nil_prefix
    | cons c row =>
      obtain ⟨ha, -⟩ := List.cons_prefix_cons.1 h.1
      obtain ⟨hb, -⟩ := List.cons_prefix_cons.1 h.2
      exact absurd (ha.symm.trans hb) hne
  | case3 as bs hempty =>
    refine ⟨fun h => List.prefix_nil.1 h ▸ ⟨List.nil_prefix, List.nil_prefix⟩, fun h => ?_⟩
    cases as with
    | nil => exact h.1
    | cons a as =>
      cases bs with
      | nil => exact h.2
      | cons b bs => exact absurd rfl (hempty a as b bs rfl)

end Growing

/-! ## The paths on the way to a path -/

/-- Whatever stands behind the text `front` in a path adds its own steps. -/
def Open (front : Text) : Prop :=
  ∀ rest, components (front ++ rest) = components front ++ componentsOfPieces (rest.splitOn '/')

/-- The root is ended by its slash, so whatever follows adds its steps. -/
theorem open_root : Open ['/'] := by
  intro rest
  have hpieces : ('/' :: rest).splitOn '/' = [] :: rest.splitOn '/' :=
    List.splitOn_append_cons_self [] rest
  show components ('/' :: rest) = .root :: componentsOfPieces (rest.splitOn '/')
  rw [components, hpieces]
  rfl

/-- One piece adds one step or none. -/
theorem Open.piece {front piece : Text} (h : Open front) (hpiece : '/' ∉ piece) :
    components (front ++ piece) = components front ++ componentsOfPieces [piece] := by
  rw [h piece, List.splitOn_eq_singleton hpiece]

/-- The steps behind a piece and a slash are those behind the piece. -/
theorem Open.next {front piece : Text} (h : Open front) (hpiece : '/' ∉ piece) :
    Open (front ++ piece ++ ['/']) ∧
      components (front ++ piece ++ ['/']) = components (front ++ piece) := by
  have hrest (rest : Text) : components (front ++ piece ++ '/' :: rest) =
      components (front ++ piece) ++ componentsOfPieces (rest.splitOn '/') := by
    rw [List.append_assoc, h, List.splitOn_append_cons_self_of_not_mem hpiece, h.piece hpiece,
      List.append_assoc, componentsOfPieces, componentsOfPieces, componentsOfPieces,
      ← List.filterMap_append]
    rfl
  have hslash : components (front ++ piece ++ ['/']) = components (front ++ piece) := by
    rw [hrest []]
    exact List.append_nil _
  refine ⟨fun rest => ?_, hslash⟩
  rw [hslash, List.append_assoc, List.singleton_append, hrest]

/-- The paths that pieces lead to have the rows of components that the pieces add one by one. -/
theorem map_components_stepsFrom {front : Text} (h : Open front) {pieces : List Text}
    (hpieces : ∀ piece ∈ pieces, '/' ∉ piece) :
    (stepsFrom front pieces).map components =
      growing (components front) (componentsOfPieces pieces) := by
  induction pieces generalizing front with
  | nil => rfl
  | cons piece rest ih =>
    obtain ⟨hpiece, hrest⟩ := List.forall_mem_cons.1 hpieces
    obtain ⟨hopen, hslash⟩ := h.next hpiece
    have hfurther := ih hopen hrest
    have hcons : componentsOfPieces (piece :: rest) =
        componentsOfPieces [piece] ++ componentsOfPieces rest := by
      unfold componentsOfPieces
      rw [← List.filterMap_append, List.singleton_append]
    have hreached := h.piece hpiece
    rw [hslash] at hfurther
    rw [stepsFrom, hcons]
    -- a piece is one step or none
    have hstep : componentsOfPieces [piece] = [] ∨ ∃ c, componentsOfPieces [piece] = [c] := by
      unfold componentsOfPieces
      rw [List.filterMap_cons]
      split
      · exact .inl rfl
      · exact .inr ⟨_, rfl⟩
    rcases hstep with hnone | ⟨c, hc⟩
    · rw [hnone, List.append_nil] at hreached
      rw [if_pos (same_iff.2 hreached.symm), hfurther, hnone, hreached]
      rfl
    · rw [hc] at hreached
      have hne : ¬ same front (front ++ piece) = true := by
        rw [same_iff, hreached]
        simp
      rw [if_neg hne, List.map_cons, hfurther, hc, hreached]
      rfl

/-- The paths on the way to an absolute path have the rows of its first components. -/
theorem map_components_ancestors {path : Text} (h : path.head? = some '/') :
    (ancestors path).map components = growing [] (components path) := by
  obtain ⟨rest, rfl⟩ := List.head?_eq_some_iff.1 h
  have hpath : components ('/' :: rest) = .root :: componentsOfPieces (rest.splitOn '/') :=
    open_root rest
  have hpieces : ∀ piece ∈ rest.splitOn '/', '/' ∉ piece := fun piece hpiece hslash =>
    absurd (Text.eq_false_of_mem_splitOnP hpiece _ hslash) (by simp)
  have hsteps := map_components_stepsFrom open_root hpieces
  have hrow : (['/'] :: stepsFrom ['/'] (rest.splitOn '/')).map components =
      growing [] (components ('/' :: rest)) := by
    rw [List.map_cons, hsteps, hpath]
    rfl
  have hlast := getLast?_growing [] (hpath ▸ List.cons_ne_nil _ _)
  have hwhole : ancestors ('/' :: rest) =
      (['/'] :: stepsFrom ['/'] (rest.splitOn '/')).dropLast ++ ['/' :: rest] := by
    rw [ancestors, if_pos h]
    rfl
  rw [hwhole, List.map_append, List.map_dropLast, hrow]
  exact List.dropLast_append_getLast? _ hlast

/-- The first component of an absolute path is the root, and no other path has it there. -/
theorem root_prefix_components_iff {path : Text} :
    [.root] <+: components path ↔ path.head? = some '/' := by
  constructor
  · intro hroot
    by_contra hrelative
    obtain ⟨rest, hrest⟩ := hroot
    have hmem : Component.root ∈ components path :=
      hrest ▸ List.mem_append_left rest List.mem_cons_self
    rw [components, if_neg hrelative] at hmem
    rcases List.mem_append.1 hmem with hmem | hmem
    · split at hmem <;> simp at hmem
    · obtain ⟨piece, -, hpiece⟩ := List.mem_filterMap.1 hmem
      split at hpiece
      · cases hpiece
      · split at hpiece <;> cases hpiece
  · intro h
    obtain ⟨rest, rfl⟩ := List.head?_eq_some_iff.1 h
    exact ⟨_, (open_root rest).symm⟩

/-- One path leads to another if its components are the first ones of the other. -/
theorem leads_iff {a b : Text} (hb : b.head? = some '/') :
    Leads a b ↔ components a ≠ [] ∧ components a <+: components b := by
  have hspelled : Leads a b ↔ components a ∈ (ancestors b).map components := by
    simp only [Leads, same_iff, List.mem_map]
  rw [hspelled, map_components_ancestors hb, mem_growing_iff, List.nil_append, List.length_nil,
    List.length_pos_iff, and_iff_right List.nil_prefix]

/-! ## Several paths -/

/-- Where two rows of paths agree their components do. -/
theorem map_components_shared {row as bs : List Component} {ps qs : List Text}
    (hps : ps.map components = growing row as) (hqs : qs.map components = growing row bs) :
    (shared ps qs).map components = growing row (commonFront as bs) := by
  -- both rows are read side by side, as `shared` reads them; the hypotheses say that each path is
  -- one component longer than the one before
  induction ps generalizing row as bs qs with
  | nil =>
    cases as with
    | nil => rfl
    | cons => cases hps
  | cons p ps ih =>
    cases as with
    | nil => cases hps
    | cons a as =>
      cases qs with
      | nil =>
        cases bs with
        | nil => rfl
        | cons => cases hqs
      | cons q qs =>
        cases bs with
        | nil => cases hqs
        | cons b bs =>
          obtain ⟨hp, hps⟩ := List.cons.inj hps
          obtain ⟨hq, hqs⟩ := List.cons.inj hqs
          have hsame : same p q = true ↔ a = b := by
            rw [same_iff, hp, hq, List.append_cancel_left_eq, List.singleton_inj]
          rw [shared, commonFront]
          by_cases hab : a = b
          · subst hab
            rw [if_pos (hsame.2 rfl), if_pos rfl, List.map_cons, hp, ih hps hqs]
            rfl
          · rw [if_neg (mt hsame.1 hab), if_neg hab]
            rfl

/-- The loop keeps the paths on the way to all paths so far. -/
theorem map_components_foldl {row : List Component} {common rest : List Text}
    (hcommon : common.map components = growing [] row) (hrest : ∀ p ∈ rest, p.head? = some '/') :
    (rest.foldl (fun common path => shared common (ancestors path)) common).map components =
      growing [] (rest.foldl (fun row path => commonFront row (components path)) row) := by
  induction rest generalizing common row with
  | nil => exact hcommon
  | cons p rest ih =>
    obtain ⟨hp, hrest⟩ := List.forall_mem_cons.1 hrest
    exact ih (map_components_shared hcommon (map_components_ancestors hp)) hrest

/-- The first parts that are left are those of the row one starts from and of all paths. -/
theorem prefix_foldl_commonFront_iff {row front : List Component} {rest : List Text} :
    front <+: rest.foldl (fun row path => commonFront row (components path)) row ↔
      front <+: row ∧ ∀ p ∈ rest, front <+: components p := by
  induction rest generalizing row with
  | nil => simp
  | cons p rest ih =>
    rw [List.foldl_cons, ih, prefix_commonFront_iff, List.forall_mem_cons, and_assoc]

/-- Absolute paths have a longest path on the way to all of them, and its components begin with what
the components of all paths begin with. -/
theorem exists_longestCommon? {paths : List Text} (hne : paths ≠ [])
    (habsolute : ∀ p ∈ paths, p.head? = some '/') :
    ∃ d, longestCommon? paths = some d ∧
      ∀ front, front <+: components d ↔ ∀ p ∈ paths, front <+: components p := by
  obtain ⟨first, rest, rfl⟩ := List.exists_cons_of_ne_nil hne
  obtain ⟨hfirst, hrest⟩ := List.forall_mem_cons.1 habsolute
  have hloop := map_components_foldl (map_components_ancestors hfirst) hrest
  set row := rest.foldl (fun row path => commonFront row (components path)) (components first)
  have hrow (front : List Component) :
      front <+: row ↔ ∀ p ∈ first :: rest, front <+: components p := by
    rw [prefix_foldl_commonFront_iff, List.forall_mem_cons]
  have hroot : row ≠ [] := by
    have hprefix : [.root] <+: row :=
      (hrow _).2 fun p hp => root_prefix_components_iff.2 (habsolute p hp)
    exact List.ne_nil_of_length_pos hprefix.length_le
  have hlast := congrArg List.getLast? hloop
  rw [getLast?_growing [] hroot, List.nil_append, List.getLast?_map] at hlast
  obtain ⟨d, hd, hcomponents⟩ := Option.map_eq_some_iff.1 hlast
  exact ⟨d, hd, hcomponents ▸ hrow⟩

/-- Several absolute paths have a greatest path that leads to all of them. It does not depend on
their order, nor on how often each of them is given. -/
theorem longestCommon?_greatest {paths : List Text} (hne : paths ≠ [])
    (habsolute : ∀ p ∈ paths, p.head? = some '/') :
    ∃ d, longestCommon? paths = some d ∧ (∀ p ∈ paths, Leads d p) ∧
      (∀ e, (∀ p ∈ paths, Leads e p) → Leads e d) ∧
      ∀ again : List Text, (∀ p, p ∈ again ↔ p ∈ paths) →
        ∃ d', longestCommon? again = some d' ∧ same d d' := by
  obtain ⟨d, hd, hfronts⟩ := exists_longestCommon? hne habsolute
  have hroot : [.root] <+: components d :=
    (hfronts _).2 fun p hp => root_prefix_components_iff.2 (habsolute p hp)
  have hsteps : components d ≠ [] := List.ne_nil_of_length_pos hroot.length_le
  refine ⟨d, hd, fun p hp => ?_, fun e he => ?_, fun again hagain => ?_⟩
  · exact (leads_iff (habsolute p hp)).2 ⟨hsteps, (hfronts _).1 (List.prefix_refl _) p hp⟩
  · obtain ⟨p, hp⟩ := List.exists_mem_of_ne_nil paths hne
    obtain ⟨hsteps, -⟩ := (leads_iff (habsolute p hp)).1 (he p hp)
    refine (leads_iff (root_prefix_components_iff.1 hroot)).2 ⟨hsteps, (hfronts _).2 fun q hq => ?_⟩
    exact ((leads_iff (habsolute q hq)).1 (he q hq)).2
  -- both are led by the same fronts, for these depend only on which paths are given
  · obtain ⟨p, hp⟩ := List.exists_mem_of_ne_nil paths hne
    obtain ⟨d', hd', hfronts'⟩ := exists_longestCommon? (List.ne_nil_of_mem ((hagain p).2 hp))
      fun q hq => habsolute q ((hagain q).1 hq)
    have hiff (front : List Component) : front <+: components d ↔ front <+: components d' := by
      rw [hfronts, hfronts']
      simp only [hagain]
    refine ⟨d', hd', same_iff.2 (List.IsPrefix.eq_of_length_le ?_ ?_)⟩
    · exact (hiff _).1 (List.prefix_refl _)
    · exact ((hiff _).2 (List.prefix_refl _)).length_le

/-- Several depths and spellings, and a step up that leads to another directory than its name. -/
theorem longestCommon?_greatest_spellings :
    let paths := ["/repo//src/../b/c".toList, "/repo/src/../b/./d/".toList,
      "/repo/src/../b".toList]
    paths ≠ [] ∧ (∀ p ∈ paths, p.head? = some '/') ∧
      ∃ d, longestCommon? paths = some d ∧ d = "/repo//src/../b".toList ∧
        (∀ p ∈ paths, Leads d p) ∧ ∀ e, (∀ p ∈ paths, Leads e p) → Leads e d := by
  intro paths
  have hne : paths ≠ [] := List.cons_ne_nil _ _
  have habsolute : ∀ p ∈ paths, p.head? = some '/' := by decide
  have hlongest : longestCommon? paths = some "/repo//src/../b".toList := by
    with_unfolding_all rfl
  obtain ⟨d, hd, hleads, hgreatest, -⟩ := longestCommon?_greatest hne habsolute
  obtain rfl := Option.some.inj (hlongest.symm.trans hd)
  exact ⟨hne, habsolute, _, hlongest, rfl, hleads, hgreatest⟩

end Docblock.Path
