import Mathlib.Data.List.Basic

/-!
# Computations that may fail

What is known of a computation whose result is known: each of its steps had a result. The three
facts are about any error type and are stated here once, since readers of types, walks over files
and edits of texts all fail in `Except`.

Nothing is said of the errors. Which of several failing steps is reported is for the modules that
read the errors of one program.
-/

namespace Docblock

/-- A computation in two steps has a result just if both steps do. Cases of a program that may fail
are taken apart with this. -/
theorem bind_eq_ok {ε α β : Type} {x : Except ε α} {f : α → Except ε β} {b : β} :
    x >>= f = .ok b ↔ ∃ a, x = .ok a ∧ f a = .ok b := by
  cases x with
  | error e => simp [bind, Except.bind]
  | ok a => simp [bind, Except.bind]

/-- A first step whose result is known can be taken out of the way. -/
theorem ok_bind {ε α β : Type} (a : α) (f : α → Except ε β) : Except.ok a >>= f = f a := rfl

/-- A computation that has a result for each element of a row has them all, and no others. -/
theorem mapM_eq_ok {ε α β : Type} {f : α → Except ε β} {xs : List α}
    (h : ∀ x ∈ xs, ∃ y, f x = .ok y) :
    ∃ ys, xs.mapM f = .ok ys ∧ ∀ y, y ∈ ys ↔ ∃ x ∈ xs, f x = .ok y := by
  induction xs with
  | nil => exact ⟨[], rfl, fun y => by simp⟩
  | cons x xs ih =>
    obtain ⟨⟨y, hy⟩, hxs⟩ := List.forall_mem_cons.1 h
    obtain ⟨ys, hys, hmem⟩ := ih hxs
    refine ⟨y :: ys, ?_, fun z => ?_⟩
    · rw [List.mapM_cons, hy, hys]
      rfl
    · rw [List.mem_cons, hmem, List.exists_mem_cons_iff, hy, Except.ok.injEq, eq_comm]

end Docblock
