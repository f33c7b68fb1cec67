import Docblock.Proofs.TypeExpr.CursorTokens

/-!
# How a token moves the cursor

Whatever stands in the text, no step moves the cursor back (`CursorM.Moves`), and there are two
places where it can stand after a token was looked for (`Looked`): where the token would begin, the
last one still ending where it did, or behind the token, which then is the last one.

This is said of runs, whatever they come to. A run that fails does so at the cursor or behind it
(`Moves.fails`), and of one that goes astray nothing has to be said, since
`Docblock.Proofs.TypeExpr.CursorReader` rules it out. Nor does it matter here what the token is:
what is read is the matter of `Docblock.Proofs.TypeExpr.CursorTokens`, how far it reaches is the
matter of this module. A computation that looks for a token and leaves it there is one that never
passes it (`LooksFor` with the test that is always false).

The rules of the grammar are made of such steps, and `Docblock.Proofs.TypeExpr.Advancing` follows
them from one step to the next.
-/

namespace Docblock

open Text

/-- Where the next token begins, for a cursor at `pos`. -/
def tokenStart (text : Text) (pos : Nat) : Nat :=
  pos + ((text.bytes.drop pos).takeWhile CursorM.isLayoutByte).length

/-- Layout is skipped forward. -/
theorem le_tokenStart (text : Text) (pos : Nat) : pos ≤ tokenStart text pos := Nat.le_add_right _ _

/-- Where a token begins there is no layout to skip. -/
theorem tokenStart_tokenStart (text : Text) (pos : Nat) :
    tokenStart text (tokenStart text pos) = tokenStart text pos := by
  have hrest (bs : List UInt8) :
      bs.drop (bs.takeWhile CursorM.isLayoutByte).length = bs.dropWhile CursorM.isLayoutByte :=
    (congrArg _ List.takeWhile_append_dropWhile.symm).trans List.drop_left
  have hnone (bs : List UInt8) :
      (bs.dropWhile CursorM.isLayoutByte).takeWhile CursorM.isLayoutByte = [] :=
    List.takeWhile_eq_nil_iff.2 (List.dropWhile_get_zero_not _ _)
  rw [tokenStart, tokenStart, ← List.drop_drop, hrest, hnone]
  rfl

/-- The cursor after a token was looked for that would begin at `start`, the last token having ended
at `stop`. -/
inductive Looked (start stop : Nat) : (found : Bool) → Cursor → Prop where
  | absent : Looked start stop false ⟨start, stop⟩
  | passed {n : Nat} (h : start < n) : Looked start stop true ⟨n, n⟩

namespace CursorM

/-! ## Moves -/

/-- The computation does not move the cursor back from `c`. If it has a result, this is what holds
of it and of the cursor then. -/
structure Moves {α : Type} (passage : Passage) (c : Cursor) (x : CursorM α)
    (Q : α → Cursor → Prop) : Prop where
  runs : ∀ a c', Runs passage c x a c' → c.pos ≤ c'.pos ∧ Q a c'
  fails : ∀ e, Fails passage c x e → c.pos ≤ e.offset

section
variable {α β : Type} {passage : Passage} {c : Cursor} {x : CursorM α} {f : α → CursorM β}
  {R : α → Cursor → Prop} {Q : β → Cursor → Prop}

/-- A run that has ended without a result goes on with nothing. -/
theorem run_bind_error {halt : Halt} (h : (x.run passage).run c = .error halt) :
    ((x >>= f).run passage).run c = .error halt := by
  rw [ReaderT.run_bind, StateT.run_bind, h]
  rfl

/-- Two computations in a row do not move the cursor back, if the second one does not from wherever
the first one may leave it. -/
theorem Moves.bind (hx : Moves passage c x R) (hf : ∀ a d, R a d → Moves passage d (f a) Q) :
    Moves passage c (x >>= f) Q := by
  cases hrun : (x.run passage).run c with
  | ok r =>
    obtain ⟨hle, hR⟩ := hx.runs r.1 r.2 hrun
    have hbind : ((x >>= f).run passage).run c = ((f r.1).run passage).run r.2 :=
      Runs.run_bind hrun
    constructor
    · intro b c' h
      obtain ⟨hle', hQ⟩ := (hf _ _ hR).runs b c' (hbind.symm.trans h)
      exact ⟨hle.trans hle', hQ⟩
    · intro e h
      exact hle.trans ((hf _ _ hR).fails e (hbind.symm.trans h))
  -- The second computation is not run, so only the failure of the first one is left.
  | error halt =>
    have hbind := run_bind_error (f := f) hrun
    constructor
    · intro b c' h
      exact nomatch hbind.symm.trans h
    · intro e h
      cases hbind.symm.trans h
      exact hx.fails e hrun

/-- A result alone moves nothing. -/
theorem moves_pure {a : α} (h : R a c) : Moves passage c (pure a) R where
  runs := by
    rintro _ _ hrun
    cases hrun
    exact ⟨Nat.le_refl _, h⟩
  fails _ h := nomatch h

/-- To look where the cursor stands moves nothing. -/
theorem moves_get {f : Cursor → CursorM β} (h : Moves passage c (f c) Q) :
    Moves passage c (get >>= f) Q :=
  ⟨h.runs, h.fails⟩

/-- To look at the text moves nothing. -/
theorem moves_read {f : Passage → CursorM β} (h : Moves passage c (f passage) Q) :
    Moves passage c (read >>= f) Q :=
  ⟨h.runs, h.fails⟩

/-- A failure at the cursor or behind it is none in front of it. -/
theorem moves_failed {e : ParseError} (h : c.pos ≤ e.offset) :
    Moves passage c (throw (.failed e) : CursorM α) R where
  runs _ _ h := nomatch h
  fails _ hfails := by
    cases hfails
    exact h

/-- A run that goes astray has no result and no failure, so nothing has to hold of it. -/
theorem moves_astray : Moves passage c (throw .astray : CursorM α) R where
  runs _ _ h := nomatch h
  fails _ h := nomatch h

/-- Each branch may use the test. -/
theorem Moves.ite {p : Prop} [Decidable p] {y : CursorM α} (hx : p → Moves passage c x R)
    (hy : ¬ p → Moves passage c y R) : Moves passage c (if p then x else y) R := by
  split
  · next h => exact hx h
  · next h => exact hy h

end

section
variable {passage : Passage} (c : Cursor)

/-- A slice is cut off where it says, and moves nothing. -/
theorem moves_cut (n : Nat) (t : Text) :
    Moves passage c (cut n t) fun parts c' =>
      c' = c ∧ t = parts.1 ++ parts.2 ∧ byteSize parts.1 = n := by
  rw [cut]
  split
  · next parts h => exact moves_pure ⟨rfl, splitAtByte?_eq_some_iff.1 h⟩
  · exact moves_astray

/-- What is ahead are the bytes from the cursor on. -/
theorem moves_ahead :
    Moves passage c ahead fun rest c' => c' = c ∧ bytes rest = (bytes passage.text).drop c.pos := by
  refine moves_get (moves_read ((moves_cut c _ _).bind ?_))
  rintro ⟨front, rest⟩ _ ⟨rfl, htext, hsize⟩
  refine moves_pure ⟨rfl, ?_⟩
  rw [htext, ← hsize, drop_bytes_append]

/-- A move ends where it is to end, if the check lets it. -/
theorem moves_moveTo {d : Cursor} (h : c.pos ≤ d.pos) :
    Moves passage c (moveTo d) fun _ c' => c' = d := by
  refine moves_read (.ite (fun _ => ⟨?_, fun _ h => nomatch h⟩) fun _ => moves_astray)
  intro _ _ hrun
  cases hrun
  exact ⟨h, rfl⟩

/-- A token that is passed is the last one. -/
theorem moves_advance (n : Nat) :
    Moves passage c (advance n) fun _ c' => c' = ⟨c.pos + n, c.pos + n⟩ :=
  moves_get (moves_moveTo c (Nat.le_add_right _ _))

/-- A failure points to the cursor. -/
theorem moves_fail {α : Type} {R : α → Cursor → Prop} (cause : ParseCause) (path : List Rule) :
    Moves passage c (fail cause path) R := by
  refine moves_get ((moves_ahead c).bind ?_)
  rintro rest _ ⟨rfl, -⟩
  exact moves_read (moves_failed (Nat.le_refl _))

/-- Layout is skipped up to the next token, and belongs to no token. -/
theorem moves_skipLayout :
    Moves passage c skipLayout fun _ c' => c' = ⟨tokenStart passage.text c.pos, c.stop⟩ := by
  refine moves_get ((moves_ahead c).bind ?_)
  rintro rest _ ⟨rfl, hrest⟩
  dsimp only
  rw [hrest]
  exact moves_moveTo _ (Nat.le_add_right _ _)

/-- What is looked for behind layout is looked for from where the token would begin. -/
theorem moves_skipLayout_ahead {α : Type} {g : Text → CursorM α} {Q : α → Cursor → Prop}
    (h : ∀ rest, Moves passage ⟨tokenStart passage.text c.pos, c.stop⟩ (g rest) Q) :
    Moves passage c (skipLayout >>= fun _ => ahead >>= g) Q := by
  refine (moves_skipLayout c).bind ?_
  rintro _ _ rfl
  refine (moves_ahead _).bind ?_
  rintro rest _ ⟨rfl, -⟩
  exact h rest

/-- A mark that is looked for is not passed, whether it stands there or not. -/
theorem moves_peek (start : Text) :
    Moves passage c (peek start) fun _ c' => c' = ⟨tokenStart passage.text c.pos, c.stop⟩ :=
  moves_skipLayout_ahead c fun _ => moves_pure rfl

end

/-! ## Tokens -/

/-- The computation looks for a token behind layout. `reads` tells whether it was found and
passed. -/
def LooksFor {α : Type} (passage : Passage) (x : CursorM α) (reads : α → Bool) : Prop :=
  ∀ c, Moves passage c x fun a c' => Looked (tokenStart passage.text c.pos) c.stop (reads a) c'

section
variable {passage : Passage}

/-- To peek is to look for a token and not to pass it. -/
theorem looksFor_peek (start : Text) : LooksFor passage (peek start) fun _ => false := by
  intro c
  refine ⟨fun found c' h => ?_, (moves_peek c start).fails⟩
  obtain ⟨hle, rfl⟩ := (moves_peek c start).runs found c' h
  exact ⟨hle, .absent⟩

/-- To look for the end of an argument passes no token. -/
theorem looksFor_endsArgument : LooksFor passage endsArgument fun _ => false := by
  refine fun c => (moves_peek c _).bind ?_
  rintro _ _ rfl
  refine .ite (fun _ => moves_pure .absent) fun _ => ?_
  have hpeek : Moves passage ⟨tokenStart passage.text c.pos, c.stop⟩ (peek _) _ :=
    looksFor_peek Mark.closeAngle.text _
  rwa [tokenStart_tokenStart] at hpeek

/-- No mark is empty. -/
theorem byteSize_mark_pos (m : Mark) : 0 < byteSize m.text := by
  cases m <;> decide

/-- A mark is looked for, and passed if it stands there. -/
theorem looksFor_eat (m : Mark) : LooksFor passage (eat m) id := by
  refine fun c => (moves_peek c m.text).bind ?_
  rintro _ _ rfl
  refine .ite (fun _ => (moves_advance _ _).bind ?_) fun _ => moves_pure .absent
  rintro _ _ rfl
  exact moves_pure (.passed (Nat.lt_add_of_pos_right (byteSize_mark_pos m)))

/-- A word is looked for, and passed if it stands there and does not go on. -/
theorem looksFor_eatWord {word : Text} (hword : word ≠ []) :
    LooksFor passage (eatWord word) id := by
  refine fun c => (moves_peek c word).bind ?_
  rintro _ _ rfl
  refine .ite (fun _ => moves_read (moves_get ?_)) fun _ => moves_pure .absent
  refine .ite (fun _ => moves_pure .absent) fun _ => (moves_advance _ _).bind ?_
  rintro _ _ rfl
  have hsize : byteSize word ≠ 0 := mt byteSize_eq_zero_iff.1 hword
  exact moves_pure (.passed (Nat.lt_add_of_pos_right (Nat.pos_of_ne_zero hsize)))

/-- Where a mark is asked for, a result means that it was passed. -/
theorem looksFor_expect (path : List Rule) (m : Mark) :
    LooksFor passage (expect path m) fun _ => true := by
  refine fun c => (looksFor_eat m c).bind ?_
  rintro _ _ (_ | hlt)
  · exact moves_fail _ _ _
  · exact moves_pure (.passed hlt)

/-- A word is passed from the cursor on, or the cursor stays: no layout is skipped here. -/
theorem moves_eatStarting (c : Cursor) (start : Text) (p : UInt8 → Bool) :
    Moves passage c (eatStarting start p) fun word c' => Looked c.pos c.stop word.isSome c' := by
  refine (moves_ahead c).bind ?_
  rintro rest _ ⟨rfl, -⟩
  refine .ite (fun _ => moves_astray.bind (R := fun _ _ => False) fun _ _ h => h.elim) fun _ => ?_
  refine .ite (fun _ => moves_pure .absent) fun hscanned => (moves_cut _ _ _).bind ?_
  rintro _ _ ⟨rfl, -, -⟩
  refine (moves_advance _ _).bind ?_
  rintro _ _ rfl
  exact moves_pure (.passed (by omega))

/-- A name is looked for behind layout. -/
theorem looksFor_eatName : LooksFor passage eatName Option.isSome :=
  fun c => moves_skipLayout_ahead c fun _ => moves_eatStarting _ _ _

/-- The name of a parameter is looked for behind layout. -/
theorem looksFor_eatParameterName : LooksFor passage eatParameterName Option.isSome := by
  refine fun c => moves_skipLayout_ahead c fun rest => ?_
  split
  · exact moves_eatStarting _ _ _
  · exact moves_pure .absent

/-- A literal is read from the quote at the cursor. -/
theorem moves_literal (c : Cursor) (path : List Rule) (quote : Quote) :
    Moves passage c (literal path quote) fun _ c' => Looked c.pos c.stop true c' := by
  refine moves_get (moves_read ((moves_cut c _ _).bind ?_))
  rintro ⟨front, rest⟩ _ ⟨rfl, -, -⟩
  dsimp only
  split
  · refine (moves_cut _ _ _).bind ?_
    rintro _ _ ⟨rfl, -, -⟩
    refine (moves_advance _ _).bind ?_
    rintro _ _ rfl
    exact moves_pure (.passed (by omega))
  · exact moves_fail _ _ _

end

end CursorM

end Docblock
