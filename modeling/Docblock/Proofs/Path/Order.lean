import Mathlib.Data.List.Sort
import Docblock.Path

/-!
# The order of paths

Steps of a path compare by their kind, and two names by their characters. So paths have the linear
order of their rows of components, and a sorted set is strictly increasing in it: what is left out
are further spellings of the path that stands before them. So it is known, up to the spelling of its
paths, by what it spells (`forall₂_same_of_mem_iff`).

The order is on components and not on spellings, so it is total but two spellings of a path are not
told apart by it. That is why a sorted set drops a path that is the same as the one before it,
rather than one that is equal, and why membership in it is told up to `Path.same`
(`mem_map_components_sortedSet`). Which of several spellings stays is not said.
-/

namespace Docblock

namespace Component

/-- Names compare as their texts do. -/
theorem compare_name (a b : Text) : compare (name a) (name b) = compare a b :=
  Ordering.then_eq

instance : Std.LawfulEqOrd Component where
  compare_self {a} := by
    cases a with
    | name text => rw [compare_name, Std.ReflOrd.compare_self]
    | _ => rfl
  eq_of_compare {a b} h := by
    cases a <;> cases b
    case name.name a b =>
      rw [compare_name] at h
      rw [Std.LawfulEqOrd.eq_of_compare h]
    all_goals first | rfl | cases h

instance : Std.TransOrd Component where
  eq_swap {a b} := by
    cases a <;> cases b
    case name.name a b => simpa only [compare_name] using Std.OrientedOrd.eq_swap
    all_goals rfl
  isLE_trans {a b c} hab hbc := by
    cases a <;> cases b <;> cases c
    case name.name.name a b c =>
      simp only [compare_name] at hab hbc ⊢
      exact Std.TransOrd.isLE_trans hab hbc
    all_goals first
      | rfl
      | exact absurd hab Bool.false_ne_true
      | exact absurd hbc Bool.false_ne_true

end Component

namespace Path

/-- One path stands before another one in the order of paths. -/
def Before (a b : Text) : Prop := compare (components a) (components b) = .lt

/-- The order of paths is transitive. -/
theorem Before.trans {a b c : Text} (hab : Before a b) (hbc : Before b c) : Before a c :=
  Std.TransCmp.lt_trans hab hbc

/-- A path does not stand before itself. -/
theorem Before.ne {a b : Text} (h : Before a b) : a ≠ b := by
  rintro rfl
  have hself : compare (components a) (components a) = .eq := Std.ReflOrd.compare_self
  rw [Before, hself] at h
  cases h

/-- The order in which paths are sorted is transitive. -/
theorem le_trans (a b c : Text) (hab : le a b) (hbc : le b c) : le a c :=
  Std.TransCmp.isLE_trans hab hbc

/-- Any two paths are in order one way or the other. -/
theorem le_total (a b : Text) : le a b || le b a := by
  simp only [le, Std.OrientedCmp.eq_swap (a := components b) (b := components a)]
  cases compare (components a) (components b) <;> rfl

/-- Two paths are the same up to spelling if their components are. -/
theorem same_iff {a b : Text} : same a b ↔ components a = components b := beq_iff_eq

/-- Of two paths in order the first one stands before the second, or the second spells it again. -/
theorem before_of_le {a b : Text} (h : le a b) (hne : ¬ same a b) : Before a b := by
  unfold Before
  cases hab : compare (components a) (components b) with
  | lt => rfl
  | eq => exact absurd (same_iff.2 (Std.LawfulEqCmp.eq_of_compare hab)) hne
  | gt => simp [le, hab] at h

/-- Dropping repeats keeps the order of what is left. -/
theorem dropRepeatsAfter_sublist (last : Text) (paths : List Text) :
    (dropRepeatsAfter last paths).Sublist paths := by
  induction paths generalizing last with
  | nil => exact .slnil
  | cons path rest ih =>
    unfold dropRepeatsAfter
    split
    · exact (ih last).cons path
    · exact (ih path).cons_cons path

/-- Without repeats, paths in order are strictly increasing. -/
theorem pairwise_dropRepeatsAfter {last : Text} {paths : List Text}
    (h : (last :: paths).Pairwise (le · ·)) :
    (last :: dropRepeatsAfter last paths).Pairwise Before := by
  induction paths generalizing last with
  | nil => exact List.pairwise_singleton _ _
  | cons path rest ih =>
    obtain ⟨hlast, hrest⟩ := List.pairwise_cons.1 h
    unfold dropRepeatsAfter
    split
    · exact ih (List.pairwise_cons.2 ⟨fun p hp => hlast p (List.mem_cons_of_mem _ hp), hrest.tail⟩)
    · rename_i hne
      have hbefore : Before last path := before_of_le (hlast path List.mem_cons_self) hne
      have hpath := ih hrest
      refine List.pairwise_cons.2 ⟨fun p hp => ?_, hpath⟩
      rcases List.mem_cons.1 hp with rfl | hp
      · exact hbefore
      · exact hbefore.trans ((List.pairwise_cons.1 hpath).1 p hp)

/-- A sorted set is empty, or the first of the sorted paths and what is no repeat behind it. -/
theorem sortedSet_eq_nil_or (paths : List Text) :
    sortedSet paths = [] ∨ ∃ first rest, paths.mergeSort le = first :: rest ∧
      sortedSet paths = first :: dropRepeatsAfter first rest := by
  unfold sortedSet
  split
  · exact .inl rfl
  · next first rest h => exact .inr ⟨first, rest, h, rfl⟩

/-- A sorted set holds none but the paths it is made of. -/
theorem mem_of_mem_sortedSet {paths : List Text} {path : Text} (h : path ∈ sortedSet paths) :
    path ∈ paths := by
  rcases sortedSet_eq_nil_or paths with hnil | ⟨first, rest, hsort, hset⟩
  · rw [hnil] at h
    cases h
  · rw [hset] at h
    have hmem := ((dropRepeatsAfter_sublist first rest).cons_cons first).subset h
    rwa [← hsort, List.mem_mergeSort] at hmem

/-- A sorted set is strictly increasing. -/
theorem pairwise_sortedSet (paths : List Text) : (sortedSet paths).Pairwise Before := by
  rcases sortedSet_eq_nil_or paths with hnil | ⟨first, rest, hsort, hset⟩
  · rw [hnil]
    exact .nil
  · rw [hset]
    exact pairwise_dropRepeatsAfter (hsort ▸ List.pairwise_mergeSort le_trans le_total paths)

/-! ## What a sorted set spells -/

/-- Of each path that is left out another spelling is kept. -/
theorem exists_mem_dropRepeatsAfter {last : Text} {paths : List Text} {path : Text}
    (h : path ∈ last :: paths) :
    ∃ kept ∈ last :: dropRepeatsAfter last paths, components kept = components path := by
  induction paths generalizing last with
  | nil => exact ⟨path, h, rfl⟩
  | cons next rest ih =>
    unfold dropRepeatsAfter
    split
    next hsame =>
      rcases List.mem_cons.1 h with rfl | h
      · exact ⟨path, List.mem_cons_self, rfl⟩
      rcases List.mem_cons.1 h with rfl | h
      · exact ⟨last, List.mem_cons_self, same_iff.1 hsame⟩
      · exact ih (List.mem_cons_of_mem _ h)
    next =>
      rcases List.mem_cons.1 h with rfl | h
      · exact ⟨path, List.mem_cons_self, rfl⟩
      · obtain ⟨kept, hkept, heq⟩ := ih h
        exact ⟨kept, List.mem_cons_of_mem _ hkept, heq⟩

/-- A sorted set spells the paths that it was made of, and no others. -/
theorem mem_map_components_sortedSet {paths : List Text} {row : List Component} :
    row ∈ (sortedSet paths).map components ↔ row ∈ paths.map components := by
  constructor
  · intro h
    obtain ⟨path, hpath, rfl⟩ := List.mem_map.1 h
    exact List.mem_map_of_mem (mem_of_mem_sortedSet hpath)
  · intro h
    obtain ⟨path, hpath, rfl⟩ := List.mem_map.1 h
    have hsorted : path ∈ paths.mergeSort le := List.mem_mergeSort.2 hpath
    rcases sortedSet_eq_nil_or paths with hnil | ⟨first, rest, hsort, hset⟩
    · unfold sortedSet at hnil
      split at hnil
      next hempty =>
        rw [hempty] at hsorted
        exact absurd hsorted List.not_mem_nil
      next => cases hnil
    · rw [hsort] at hsorted
      obtain ⟨kept, hkept, heq⟩ := exists_mem_dropRepeatsAfter hsorted
      rw [hset, ← heq]
      exact List.mem_map_of_mem hkept

/-- The order of paths, by their components. -/
def RowBefore (a b : List Component) : Prop := compare a b = .lt

instance : Std.Irrefl RowBefore where
  irrefl a h := by
    rw [RowBefore, Std.ReflOrd.compare_self] at h
    cases h

instance : Std.Antisymm RowBefore where
  antisymm a b hab hba := by
    rw [RowBefore, Std.OrientedCmp.gt_iff_lt.2 hba] at hab
    cases hab

/-- Strictly increasing paths that spell the same paths do so place by place. -/
theorem forall₂_same_of_mem_iff {as bs : List Text} (has : as.Pairwise Before)
    (hbs : bs.Pairwise Before) (h : ∀ row, row ∈ as.map components ↔ row ∈ bs.map components) :
    List.Forall₂ (same · ·) as bs := by
  have hrows {paths : List Text} (h : paths.Pairwise Before) :
      (paths.map components).Pairwise RowBefore := List.pairwise_map.2 h
  have heq : as.map components = bs.map components := (hrows has).eq_of_mem_iff (hrows hbs) h
  rw [← List.forall₂_eq_eq_eq, List.forall₂_map_left_iff, List.forall₂_map_right_iff] at heq
  exact heq.imp fun a b => same_iff.2

end Path

end Docblock
