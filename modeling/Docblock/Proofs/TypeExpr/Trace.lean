import Docblock.Proofs.TypeExpr.CursorMoves
import Docblock.Proofs.TypeExpr.Stepwise

/-!
# Reading a type with a cursor that leaves a trace

A run of `CursorM.parse` says where it ends, but not how it came there. Here the rules of
`Docblock.Proofs.TypeExpr.Stepwise` run in a monad that writes down what they do (`Trace`): where
the cursor stands after each token that is looked for or read, where each type inside another one
begins, where each round of a loop begins and ends, and how far each type reaches that was read.
What was written down is kept when a run fails, so that something can be said of such a run too.

`Trace.Advances` says of what was written down that the reader only went forward. That every trace
is of this kind is proved in `Docblock.Proofs.TypeExpr.Advancing`. The trace is about one run: it
does not say how much the reader looks ahead for a token, nor how often it looks at the same text.
-/

namespace Docblock

/-- What a reader did so far, in offsets of bytes. In each row the latest entry comes first. -/
structure Trace where
  /-- Where the cursor stood after each step, or where the step failed. -/
  positions : List Nat := []
  /-- Where the first token of a type begins, and where the cursor stood when the reader of a type
  inside it was called. -/
  calls : List (Nat × Nat) := []
  /-- Where the cursor stood before and after the body of a loop was run. -/
  rounds : List (Nat × Nat) := []
  /-- Where the last token ended before and after a type was read. -/
  results : List (Nat × Nat) := []

/-- The reader only advances. -/
structure Trace.Advances (t : Trace) : Prop where
  /-- The cursor never goes back. -/
  positions : t.positions.Pairwise (· ≥ ·)
  /-- A type inside another one is read behind the place where the other one begins. -/
  calls : ∀ call ∈ t.calls, call.1 < call.2
  /-- Each round of a loop moves the cursor. -/
  rounds : ∀ round ∈ t.rounds, round.1 < round.2
  /-- Each type that is read has a token. -/
  results : ∀ result ∈ t.results, result.1 < result.2

/-- A computation that reads a text with a cursor and leaves a trace. -/
abbrev TracedM := ReaderT Passage (StateT Cursor (ExceptT Halt (StateM Trace)))

namespace TracedM

/-! ## What is written down -/

/-- A step, and where the cursor then stands, or where the step failed. -/
def noting {α : Type} (x : CursorM α) : TracedM α := do
  match (x.run (← read)).run (← get) with
  | .ok (a, c) =>
    modifyThe Trace fun t => { t with positions := c.pos :: t.positions }
    set c
    return a
  | .error (.failed e) =>
    modifyThe Trace fun t => { t with positions := e.offset :: t.positions }
    throw (.failed e)
  | .error halt => throw halt

/-- Where the cursor stands. -/
def position : TracedM Nat := return (← get).pos

/-- Reads a type inside the one that begins at `start`. -/
def inside (start : Nat) (x : TracedM TypeExpr) : TracedM TypeExpr := do
  let pos ← position
  modifyThe Trace fun t => { t with calls := (start, pos) :: t.calls }
  x

/-- Ends a round of a loop that began at an offset. -/
def endRound (began : Nat) : TracedM Unit := do
  let pos ← position
  modifyThe Trace fun t => { t with rounds := (began, pos) :: t.rounds }

/-- Ends the reading of a type, before which the last token ended at `stop`. -/
def endReading (stop : Nat) : TracedM Unit := do
  let c ← get
  modifyThe Trace fun t => { t with results := (stop, c.stop) :: t.results }

instance : Stepwise TracedM where
  exhausted := throw .exhausted
  step := noting
  round body := do
    let began ← position
    body (endRound began)
  reading body := do
    let c ← get
    let type ← body (inside (tokenStart (← read).text c.pos))
    endReading c.stop
    return type

/-- Reads the type at the front of `text` with a cursor, and leaves a trace. -/
def parse (fuel : Nat) (location text : Text) : Except Halt TypeExpr.Parsed × Trace :=
  (((Stepwise.parsed fuel : TracedM TypeExpr.Parsed).run ⟨location, text⟩).run' ⟨0, 0⟩).run.run {}

end TracedM

end Docblock
