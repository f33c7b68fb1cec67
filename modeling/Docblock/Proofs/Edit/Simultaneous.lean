import Mathlib.Data.List.Chain
import Docblock.Edit
import Docblock.Proofs.Text.Offsets

/-!
# Edits are applied at once

Edits are applied in one pass over the text, from the first to the last of their order. `Spliced`
says what that amounts to: the text is what lies outside of the ranges with the old parts between,
and the result is the same with the replacements between. The pass finds such a reading of the text
exactly if the ranges fall on boundaries and do not overlap, and it is unique
(`applyFrom_eq_ok_iff`, `exists_applyFrom_iff`). Putting in the replacements one after the other,
from the last to the first, comes to the same, since an edit leaves alone what stands before it
(`Spliced.foldrM_replaceIn?`).

The order of edits that do not tie is fixed by their ranges, and edits that tie without overlapping
are insertions at one offset. So the order in which edits are given matters to these alone
(`apply_perm`).

Two edits that insert at one offset are applied in the order in which they are given, since sorting
is stable, and no independence is claimed for them: `InsertsApart` leaves them out, and the example
has an insertion next to a range but not next to another insertion. Edits that overlap are refused
as a whole, not in part. Which of several offending edits the error names is said only so far as it
depends on ranges alone (`applyFrom_error_congr`).
-/

namespace Docblock

open Text

namespace Edit

/-- From the byte offset `cursor` on the text is `rest`, and with the edits it is `result`: the
edits replace their ranges, and what lies outside of these is kept. -/
inductive Spliced : Nat → Text → List Edit → Text → Prop
  | none {cursor rest} : Spliced cursor rest [] rest
  | next {cursor kept old rest e es result} : cursor + byteSize kept = e.start →
      e.start + byteSize old = e.stop → Spliced e.stop rest es result →
      Spliced cursor (kept ++ (old ++ rest)) (e :: es) (kept ++ (e.replacement ++ result))

/-- The text with one range replaced. -/
def replaceIn? (source : Text) (e : Edit) : Option Text := do
  let (before, _) ← splitAtByte? e.start source
  let (_, after) ← splitAtByte? e.stop source
  return before ++ (e.replacement ++ after)

/-- No two of the edits insert at one offset. -/
def InsertsApart (edits : List Edit) : Prop :=
  edits.Pairwise fun a b => ¬ (a.start = a.stop ∧ b.start = b.stop ∧ a.start = b.start)

section

variable {source : Text} {es : List Edit}

/-! ## One pass -/

/-- One step of the pass: the text up to the range is kept, the replacement follows, and the pass
goes on from the end of the range. -/
theorem applyFrom_cons_eq_ok_iff {cursor : Nat} {e : Edit} {result : Text} :
    applyFrom source cursor (e :: es) = .ok result ↔
      cursor ≤ e.start ∧ ∃ kept tail, slice? cursor e.start source = some kept ∧
        applyFrom source e.stop es = .ok tail ∧ result = kept ++ (e.replacement ++ tail) := by
  rw [applyFrom]
  by_cases hlt : e.start < cursor
  · simp [hlt]
  · cases slice? cursor e.start source with
    | none => simp [hlt]
    | some kept =>
      cases applyFrom source e.stop es with
      | error => simp [hlt, bind, Except.bind]
      | ok tail =>
        simp [hlt, bind, Except.bind, pure, Except.pure]
        grind

/-- The pass succeeds exactly with the splice of what follows its place. -/
theorem applyFrom_eq_ok_iff (hforward : ∀ e ∈ es, e.start ≤ e.stop) {cursor : Nat} {result : Text} :
    applyFrom source cursor es = .ok result ↔
      ∃ before rest, source = before ++ rest ∧ byteSize before = cursor ∧
        Spliced cursor rest es result := by
  induction es generalizing cursor result with
  | nil =>
    rw [applyFrom]
    constructor
    · intro h
      split at h
      · next before rest hsplit =>
        cases h
        obtain ⟨hsource, hsize⟩ := splitAtByte?_eq_some_iff.1 hsplit
        exact ⟨before, _, hsource, hsize, .none⟩
      · cases h
    · rintro ⟨before, rest, rfl, rfl, hspliced⟩
      cases hspliced
      rw [splitAtByte?_append]
  | cons e es ih =>
    obtain ⟨hle, hforward⟩ := List.forall_mem_cons.1 hforward
    rw [applyFrom_cons_eq_ok_iff]
    constructor
    · rintro ⟨-, kept, tail, hkept, htail, rfl⟩
      obtain ⟨before, after, hsource, rfl, hstart⟩ := slice?_eq_some_iff.1 hkept
      obtain ⟨before', rest, hsource', hstop, hspliced⟩ := (ih hforward).1 htail
      -- both cut the source, at the start and at the stop of the range
      have hcuts : (before ++ kept) ++ after = before' ++ rest := by
        rw [List.append_assoc, ← hsource, hsource']
      obtain ⟨old, rfl, rfl⟩ := exists_append_of_byteSize_le hcuts (by rw [byteSize_append]; omega)
      refine ⟨before, kept ++ (old ++ rest), hsource, rfl, .next hstart ?_ hspliced⟩
      rw [← hstop, byteSize_append, byteSize_append, hstart]
    · rintro ⟨before, rest, rfl, rfl, hspliced⟩
      cases hspliced with
      | @next _ kept old rest _ _ tail hstart hstop hspliced =>
      refine ⟨by omega, kept, tail, ?_, (ih hforward).2 ?_, rfl⟩
      · rw [← hstart, slice?_append]
      · refine ⟨before ++ (kept ++ old), rest, by simp, ?_, hspliced⟩
        rw [byteSize_append, byteSize_append]
        omega

/-- The pass succeeds exactly if its place and the ranges fall on boundaries, and no range starts
before the place or before the end of the range in front of it. -/
theorem exists_applyFrom_iff (hforward : ∀ e ∈ es, e.start ≤ e.stop) {cursor : Nat} :
    (∃ result, applyFrom source cursor es = .ok result) ↔
      IsBoundary source cursor ∧ (∀ e ∈ es, IsBoundary source e.start ∧ IsBoundary source e.stop) ∧
        (∀ e ∈ es.head?, cursor ≤ e.start) ∧ es.IsChain fun a b => a.stop ≤ b.start := by
  induction es generalizing cursor with
  | nil =>
    constructor
    · rintro ⟨result, h⟩
      obtain ⟨before, rest, rfl, rfl, -⟩ := (applyFrom_eq_ok_iff hforward).1 h
      exact ⟨isBoundary_append before rest, by simp, by simp, .nil⟩
    · rintro ⟨⟨before, rest, rfl, rfl⟩, -⟩
      exact ⟨rest, (applyFrom_eq_ok_iff hforward).2 ⟨before, rest, rfl, rfl, .none⟩⟩
  | cons e es ih =>
    obtain ⟨hle, hforward⟩ := List.forall_mem_cons.1 hforward
    simp only [applyFrom_cons_eq_ok_iff, List.forall_mem_cons, List.isChain_cons, List.head?_cons,
      Option.mem_some_iff, forall_eq']
    constructor
    · rintro ⟨_, hcursor, kept, tail, hkept, htail, -⟩
      obtain ⟨before, after, rfl, rfl, hstart⟩ := slice?_eq_some_iff.1 hkept
      obtain ⟨hstop, hes, hchain⟩ := (ih hforward).1 ⟨tail, htail⟩
      -- the slice up to the edit was cut off at its start, so that is a boundary
      have hborder : IsBoundary (before ++ (kept ++ after)) e.start :=
        ⟨before ++ kept, after, by simp, by rw [byteSize_append, hstart]⟩
      exact ⟨isBoundary_append _ _, ⟨⟨hborder, hstop⟩, hes⟩, hcursor, hchain⟩
    · rintro ⟨⟨before, after, rfl, rfl⟩, ⟨⟨hstart, hstop⟩, hes⟩, hcursor, hchain⟩
      obtain ⟨tail, htail⟩ := (ih hforward).2 ⟨hstop, hes, hchain⟩
      obtain ⟨before', after', hcuts, hsize⟩ := hstart
      obtain ⟨kept, rfl, rfl⟩ := exists_append_of_byteSize_le hcuts (hsize ▸ hcursor)
      refine ⟨_, hcursor, kept, tail, ?_, htail, rfl⟩
      rw [← hsize, byteSize_append, slice?_append]

/-! ## One after the other -/

/-- An edit replaces its range and leaves alone what stands before and behind it. -/
theorem replaceIn?_append {before old after : Text} {e : Edit} (hstart : byteSize before = e.start)
    (hstop : e.start + byteSize old = e.stop) :
    replaceIn? (before ++ (old ++ after)) e = some (before ++ (e.replacement ++ after)) := by
  have hsize : byteSize (before ++ old) = e.stop := by rw [byteSize_append]; omega
  have hcut : splitAtByte? e.stop (before ++ (old ++ after)) = some (before ++ old, after) := by
    rw [← List.append_assoc, ← hsize, splitAtByte?_append]
  rw [replaceIn?, ← hstart, splitAtByte?_append, hcut]
  rfl

/-- The edits put in one after the other, from the last to the first, make the splice. -/
theorem Spliced.foldrM_replaceIn? {before rest result : Text}
    (h : Spliced (byteSize before) rest es result) :
    es.foldrM (fun e text => replaceIn? text e) (before ++ rest) = some (before ++ result) := by
  generalize hcursor : byteSize before = cursor at h
  induction h generalizing before with
  | none => rfl
  | @next cursor kept old rest e es result hstart hstop _ ih =>
    have hborder : byteSize (before ++ kept) = e.start := by rw [byteSize_append]; omega
    have hlater : es.foldrM (fun e text => replaceIn? text e) (before ++ (kept ++ (old ++ rest))) =
        some (before ++ kept ++ (old ++ result)) := by
      have hsize : byteSize (before ++ kept ++ old) = e.stop := by rw [byteSize_append]; omega
      simpa using ih hsize
    rw [List.foldrM_cons, hlater]
    show replaceIn? (before ++ kept ++ (old ++ result)) e = _
    rw [replaceIn?_append hborder hstop, List.append_assoc]

/-! ## The order of the edits -/

/-- Edits are ordered by where they start, and then by where they stop. -/
theorem le_iff {a b : Edit} :
    le a b = true ↔ a.start < b.start ∨ a.start = b.start ∧ a.stop ≤ b.stop := by
  simp [le]

/-- Sorted edits are in order. -/
theorem pairwise_mergeSort_le (edits : List Edit) :
    (edits.mergeSort le).Pairwise fun a b => le a b = true := by
  apply List.pairwise_mergeSort
  · intro a b c hab hbc
    rw [le_iff] at hab hbc ⊢
    omega
  · intro a b
    rw [Bool.or_eq_true, le_iff, le_iff]
    omega

/-- Sorting keeps the edits. -/
theorem forall_mem_mergeSort {P : Edit → Prop} {edits : List Edit} :
    (∀ e ∈ edits.mergeSort le, P e) ↔ ∀ e ∈ edits, P e := by
  simp only [List.mem_mergeSort]

/-- Edits given in another order have the same ranges in order. -/
theorem ranges_mergeSort_perm {edits edits' : List Edit} (h : edits'.Perm edits) :
    (edits'.mergeSort le).map (fun e => (e.start, e.stop)) =
      (edits.mergeSort le).map fun e => (e.start, e.stop) := by
  have hsorted (edits : List Edit) :
      ((edits.mergeSort le).map fun e => (e.start, e.stop)).Pairwise
        fun a b => a.1 < b.1 ∨ a.1 = b.1 ∧ a.2 ≤ b.2 :=
    List.pairwise_map.2 ((pairwise_mergeSort_le edits).imp le_iff.1)
  have hperm : (edits'.mergeSort le).Perm (edits.mergeSort le) :=
    (List.mergeSort_perm _ _).trans (h.trans (List.mergeSort_perm _ _).symm)
  refine List.Perm.eq_of_pairwise ?_ (hsorted edits') (hsorted edits) (hperm.map _)
  rintro ⟨a, a'⟩ ⟨b, b'⟩ - - hab hba
  simp only [Prod.mk.injEq] at hab hba ⊢
  omega

/-- Whether the pass fails, and why, is told by the ranges alone. -/
theorem applyFrom_error_congr {es' : List Edit}
    (h : es'.map (fun e => (e.start, e.stop)) = es.map fun e => (e.start, e.stop)) {cursor : Nat}
    {error : EditError} (herror : applyFrom source cursor es = .error error) :
    applyFrom source cursor es' = .error error := by
  induction es generalizing es' cursor with
  | nil =>
    obtain rfl := List.map_eq_nil_iff.1 h
    exact herror
  | cons e es ih =>
    obtain ⟨e', es', rfl, hrange, hes⟩ := List.map_eq_cons_iff.1 h
    obtain ⟨hstart, hstop⟩ := Prod.mk.inj hrange
    rw [applyFrom] at herror ⊢
    rw [hstart, hstop]
    split
    · next hlt => rwa [if_pos hlt] at herror
    · next hlt =>
      rw [if_neg hlt] at herror
      cases hslice : slice? cursor e.start source with
      | none => rwa [hslice] at herror
      | some kept =>
        rw [hslice] at herror
        cases htail : applyFrom source e.stop es with
        | ok tail =>
          rw [htail] at herror
          cases herror
        -- the failure is one of the later edits, which fail alike from the same place
        | error error' =>
          rw [htail] at herror
          obtain rfl : error' = error := by cases herror; rfl
          rw [ih hes htail]
          rfl

/-- Edits whose ranges do not overlap tie only where they insert at one offset. -/
theorem eq_of_ties (hforward : ∀ e ∈ es, e.start ≤ e.stop)
    (hchain : es.IsChain fun a b => a.stop ≤ b.start) (hapart : InsertsApart es) {a b : Edit}
    (ha : a ∈ es) (hb : b ∈ es) (hstart : a.start = b.start) (hstop : a.stop = b.stop) : a = b := by
  by_contra hne
  have hbehind : es.Pairwise fun a b => a.stop ≤ b.start ∨ b.stop ≤ a.start := by
    have hpairwise : es.Pairwise fun a b => a.start ≤ a.stop ∧ a.stop ≤ b.start := by
      have htrans : Trans (α := Edit) (β := Edit) (γ := Edit)
          (fun a b => a.start ≤ a.stop ∧ a.stop ≤ b.start)
          (fun a b => a.start ≤ a.stop ∧ a.stop ≤ b.start)
          (fun a b => a.start ≤ a.stop ∧ a.stop ≤ b.start) := ⟨by omega⟩
      exact (hchain.imp_of_mem_imp fun a b ha _ h => ⟨hforward a ha, h⟩).pairwise
    exact hpairwise.imp fun h => .inl h.2
  have hsymm : Std.Symm fun a b : Edit => a.stop ≤ b.start ∨ b.stop ≤ a.start :=
    ⟨fun _ _ => Or.symm⟩
  have hsymm' : Std.Symm fun a b : Edit =>
      ¬ (a.start = a.stop ∧ b.start = b.stop ∧ a.start = b.start) := ⟨by omega⟩
  -- neither range reaches into the other, so two equal ranges are empty
  have hdisjoint := hbehind.forall ha hb hne
  have hinserts := hapart.forall ha hb hne
  have := hforward a ha
  omega

/-- The order in which edits are given does not matter where no two insert at one offset. -/
theorem apply_perm {edits edits' : List Edit} (hforward : ∀ e ∈ edits, e.start ≤ e.stop)
    (hapart : InsertsApart edits) (hperm : edits'.Perm edits) :
    apply source edits' = apply source edits := by
  have hall : edits.all (fun e => e.start ≤ e.stop) = true := by simpa using hforward
  have hall' : edits'.all (fun e => e.start ≤ e.stop) = true := by
    rwa [hperm.all_eq]
  rw [apply, apply, if_pos hall, if_pos hall']
  cases hresult : applyFrom source 0 (edits.mergeSort le) with
  | error => exact applyFrom_error_congr (ranges_mergeSort_perm hperm) hresult
  | ok result =>
    have hsort : (edits.mergeSort le).Perm edits := List.mergeSort_perm _ _
    have hforward' : ∀ e ∈ edits.mergeSort le, e.start ≤ e.stop := forall_mem_mergeSort.2 hforward
    obtain ⟨-, -, -, hchain⟩ := (exists_applyFrom_iff hforward').1 ⟨result, hresult⟩
    have hapart' : InsertsApart (edits.mergeSort le) := (hsort.pairwise_iff (by omega)).2 hapart
    -- the sort leaves only ties open, and two edits of the same range are the same edit here
    have hsame : edits'.mergeSort le = edits.mergeSort le := by
      have hperm' : (edits'.mergeSort le).Perm (edits.mergeSort le) :=
        (List.mergeSort_perm _ _).trans (hperm.trans hsort.symm)
      refine List.Perm.eq_of_pairwise ?_ (pairwise_mergeSort_le edits')
        (pairwise_mergeSort_le edits) hperm'
      intro a b ha hb hab hba
      rw [le_iff] at hab hba
      exact eq_of_ties hforward' hchain hapart' (hperm'.mem_iff.1 ha) hb (by omega) (by omega)
    rw [hsame, hresult]

end

/-- Edits are applied at once. They can be applied exactly if their ranges fall on boundaries of the
text and, in their order, no range reaches into the next. The text is then the one with its ranges
replaced one after the other from the last, and all that lies outside of the ranges is kept. The
order in which they are given matters only to insertions at one offset. -/
theorem apply_at_once {source : Text} {edits : List Edit}
    (hforward : ∀ e ∈ edits, e.start ≤ e.stop) :
    ((∃ result, apply source edits = .ok result) ↔
      (∀ e ∈ edits, IsBoundary source e.start ∧ IsBoundary source e.stop) ∧
        (edits.mergeSort le).IsChain fun a b => a.stop ≤ b.start) ∧
    (∀ result, apply source edits = .ok result →
      (edits.mergeSort le).foldrM (fun e text => replaceIn? text e) source = some result ∧
        Spliced 0 source (edits.mergeSort le) result) ∧
    (InsertsApart edits →
      ∀ edits', edits'.Perm edits → apply source edits' = apply source edits) := by
  have hall : edits.all (fun e => e.start ≤ e.stop) = true := by simpa using hforward
  have hforward' : ∀ e ∈ edits.mergeSort le, e.start ≤ e.stop := forall_mem_mergeSort.2 hforward
  have happly : apply source edits = applyFrom source 0 (edits.mergeSort le) := by
    rw [apply, if_pos hall]
  refine ⟨?_, ?_, fun hapart edits' hperm => apply_perm hforward hapart hperm⟩
  · have hfront : IsBoundary source 0 := isBoundary_append [] source
    rw [happly, exists_applyFrom_iff hforward', forall_mem_mergeSort]
    constructor
    · rintro ⟨-, hbounds, -, hchain⟩
      exact ⟨hbounds, hchain⟩
    · rintro ⟨hbounds, hchain⟩
      exact ⟨hfront, hbounds, fun _ _ => Nat.zero_le _, hchain⟩
  · intro result hresult
    rw [happly] at hresult
    obtain ⟨before, rest, hsource, hsize, hspliced⟩ := (applyFrom_eq_ok_iff hforward').1 hresult
    obtain rfl := byteSize_eq_zero_iff.1 hsize
    obtain rfl : source = rest := hsource
    -- the pass begins at offset zero, with nothing before it
    have hspliced' : Spliced (byteSize []) source (edits.mergeSort le) result := hspliced
    exact ⟨hspliced'.foldrM_replaceIn?, hspliced⟩

/-- A range of one character of two bytes, an insertion at its end and a range that begins there, in
no order. -/
theorem apply_at_once_adjacent :
    let source := "aéz".toList
    let edits : List Edit := [⟨3, 4, "Z!".toList⟩, ⟨1, 3, "e".toList⟩, ⟨3, 3, "-".toList⟩]
    (∀ e ∈ edits, e.start ≤ e.stop) ∧ InsertsApart edits ∧
      (∀ e ∈ edits, IsBoundary source e.start ∧ IsBoundary source e.stop) ∧
      (edits.mergeSort le).foldrM (fun e text => replaceIn? text e) source = some "ae-Z!".toList ∧
      ∀ edits', edits'.Perm edits → apply source edits' = .ok "ae-Z!".toList := by
  intro source edits
  have hforward : ∀ e ∈ edits, e.start ≤ e.stop := by decide
  have hapart : InsertsApart edits := by
    unfold InsertsApart
    decide
  have hsort : edits.mergeSort le =
      [⟨1, 3, "e".toList⟩, ⟨3, 3, "-".toList⟩, ⟨3, 4, "Z!".toList⟩] := by
    simp [edits, List.mergeSort, List.MergeSort.Internal.splitInTwo, le]
  have happly : apply source edits = .ok "ae-Z!".toList := by
    rw [apply, hsort]
    rfl
  obtain ⟨hsucceeds, hresult, hperm⟩ := @apply_at_once source edits hforward
  exact ⟨hforward, hapart, (hsucceeds.1 ⟨_, happly⟩).1, (hresult _ happly).1,
    fun edits' h => (hperm hapart edits' h).trans happly⟩

end Edit

end Docblock
