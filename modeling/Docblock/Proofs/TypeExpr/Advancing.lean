import Docblock.Proofs.TypeExpr.CursorReader
import Docblock.Proofs.TypeExpr.Trace

/-!
# The reader of types advances

A run that leaves a trace ends as one that leaves none, and whatever the text is, the trace says
that the reader only advanced (`TracedM.parse_advances`). Rule by rule the two readers are run side
by side (`Records`). Behind the first token of a type the last token ended behind the place where
the type begins, and no cursor goes back, so a type inside is read from behind that place. The
readers of the types inside move the cursor themselves; that is what the rounds rest on, and the
one place where a type follows another with no token between them.

The two readers have the same rules, so each rule has one lemma, which says of any two readers of
the types inside that if these advance then the rule does (`Nests`). The fuel is whatever it is: a
run that ends for want of it has advanced as far as it went.

The statement is about offsets in one text. It does not bound the number of steps, and does not say
that every byte is looked at once: a token may be looked for several times at one place, by one rule
after the other.
-/

namespace Docblock

open Text

/-! ## Two readers side by side -/

/-- What was written down says that the reader only advanced, and the cursor is not in front of any
place where it stood before. -/
structure Trace.Reaches (t : Trace) (c : Cursor) : Prop where
  advances : t.Advances
  stop_le : c.stop ≤ c.pos
  le_pos : ∀ pos ∈ t.positions, pos ≤ c.pos

/-- A place that is not in front of the cursor may be written down. -/
theorem Trace.Reaches.advances_cons {c : Cursor} {t : Trace} (ht : t.Reaches c) {pos : Nat}
    (hle : c.pos ≤ pos) : { t with positions := pos :: t.positions : Trace }.Advances where
  positions := List.pairwise_cons.2
    ⟨fun q hq => (ht.le_pos q hq).trans hle, ht.advances.positions⟩
  calls := ht.advances.calls
  rounds := ht.advances.rounds
  results := ht.advances.results

namespace TracedM

open CursorM Stepwise

/-- A run from a cursor, and what is written down by its end. -/
def runFrom {α : Type} (x : TracedM α) (passage : Passage) (c : Cursor) (t : Trace) :
    Except Halt (α × Cursor) × Trace :=
  ((x.run passage).run c).run.run t

/-- From a cursor for which `P` holds the two computations end alike, and what the second one writes
down says that it only advanced. If there is a result, `Q` holds of it and of the cursor then. -/
def Records {α : Type} (passage : Passage) (P : Cursor → Prop) (y : CursorM α) (x : TracedM α)
    (Q : α → Cursor → Prop) : Prop :=
  ∀ c t, t.Reaches c → P c → ∃ t', x.runFrom passage c t = ((y.run passage).run c, t') ∧
    t'.Advances ∧ ∀ a c', Runs passage c y a c' → t'.Reaches c' ∧ Q a c'

section
variable {α β : Type} {passage : Passage} {P : Cursor → Prop} {y : CursorM α} {x : TracedM α}
  {R : α → Cursor → Prop} {g : α → CursorM β} {f : α → TracedM β} {Q : β → Cursor → Prop}

/-- What was written down so far stays when the computation goes on. -/
theorem runFrom_bind_ok {c c' : Cursor} {t t' : Trace} {a : α}
    (h : x.runFrom passage c t = (.ok (a, c'), t')) :
    (x >>= f).runFrom passage c t = (f a).runFrom passage c' t' := by
  simp only [runFrom, ReaderT.run_bind, StateT.run_bind, ExceptT.run_bind] at h ⊢
  rw [h]
  rfl

/-- What was written down so far stays when the run ends. -/
theorem runFrom_bind_error {c : Cursor} {t t' : Trace} {halt : Halt}
    (h : x.runFrom passage c t = (.error halt, t')) :
    (x >>= f).runFrom passage c t = (.error halt, t') := by
  simp only [runFrom, ReaderT.run_bind, StateT.run_bind, ExceptT.run_bind] at h ⊢
  rw [h]
  rfl

/-- Two pairs of computations in a row. A failure of the first keeps the trace as it was then. -/
theorem Records.bind (hx : Records passage P y x R)
    (hf : ∀ a, Records passage (R a) (g a) (f a) Q) :
    Records passage P (y >>= g) (x >>= f) Q := by
  intro c t ht hP
  obtain ⟨t₁, hrun, hadvances, hruns⟩ := hx c t ht hP
  cases hy : (y.run passage).run c with
  | ok r =>
    obtain ⟨a, c₁⟩ := r
    obtain ⟨ht₁, hR⟩ := hruns a c₁ hy
    obtain ⟨t₂, hrun₂, hadvances₂, hruns₂⟩ := hf a c₁ t₁ ht₁ hR
    have hbind : ((y >>= g).run passage).run c = ((g a).run passage).run c₁ := Runs.run_bind hy
    rw [hy] at hrun
    refine ⟨t₂, ?_, hadvances₂, fun b c' h => hruns₂ b c' (hbind.symm.trans h)⟩
    rw [runFrom_bind_ok hrun, hrun₂, hbind]
  | error halt =>
    have hbind := run_bind_error (f := g) hy
    rw [hy] at hrun
    refine ⟨t₁, ?_, hadvances, fun b c' h => nomatch hbind.symm.trans h⟩
    rw [runFrom_bind_error hrun, hbind]

/-- A result alone writes nothing down. -/
theorem records_pure {a : α} (h : ∀ c, P c → R a c) : Records passage P (pure a) (pure a) R := by
  intro c t ht hP
  refine ⟨t, rfl, ht.advances, fun b c' hrun => ?_⟩
  cases hrun
  exact ⟨ht, h c hP⟩

/-- A run without fuel ends with the trace as it is. -/
theorem records_exhausted : Records passage P exhausted exhausted R :=
  fun _ t ht _ => ⟨t, rfl, ht.advances, fun _ _ h => nomatch h⟩

/-- More may be known before, and less kept after. -/
theorem Records.weaken {P' : Cursor → Prop} {R' : α → Cursor → Prop} (hx : Records passage P y x R)
    (hP : ∀ c, P' c → P c) (hR : ∀ a c, R a c → R' a c) : Records passage P' y x R' := by
  intro c t ht hP'
  obtain ⟨t', hrun, hadvances, hruns⟩ := hx c t ht (hP c hP')
  exact ⟨t', hrun, hadvances, fun a c' h => (hruns a c' h).imp_right (hR a c')⟩

/-- A test that both computations make. -/
theorem Records.ite {p : Prop} [Decidable p] {y' : CursorM α} {x' : TracedM α}
    (hx : Records passage P y x R) (hx' : Records passage P y' x' R) :
    Records passage P (if p then y else y') (if p then x else x') R := by
  split
  · exact hx
  · exact hx'

/-- A step does what the token does, and writes down where the cursor then stands, or where it
failed. -/
theorem runFrom_step (y : CursorM α) (passage : Passage) (c : Cursor) (t : Trace) :
    runFrom (step y) passage c t =
      match (y.run passage).run c with
      | .ok (a, c') => (.ok (a, c'), { t with positions := c'.pos :: t.positions })
      | .error (.failed e) => (.error (.failed e), { t with positions := e.offset :: t.positions })
      | .error halt => (.error halt, t) := by
  have hstep : runFrom (step y) passage c t = runFrom (match (y.run passage).run c with
      | .ok (a, c') => do
        modifyThe Trace fun t => { t with positions := c'.pos :: t.positions }
        set c'
        return a
      | .error (.failed e) => do
        modifyThe Trace fun t => { t with positions := e.offset :: t.positions }
        throw (.failed e)
      | .error halt => throw halt) passage c t := rfl
  rw [hstep]
  rcases (y.run passage).run c with (_ | _ | e) | ⟨a, c'⟩ <;> rfl

/-- A step that does not move the cursor back adds a place that is not in front of the others. -/
theorem records_step {S : Cursor → α → Cursor → Prop} (h : ∀ c, P c → Moves passage c y (S c))
    (hR : ∀ c a c', c.stop ≤ c.pos → P c → S c a c' → c'.stop ≤ c'.pos ∧ R a c') :
    Records passage P (step y) (step y) R := by
  intro c t ht hP
  have hmoves := h c hP
  rw [runFrom_step]
  rcases hy : (y.run passage).run c with (_ | _ | e) | ⟨a, c'⟩
  · exact ⟨t, rfl, ht.advances, fun _ _ h => nomatch hy.symm.trans h⟩
  · exact ⟨t, rfl, ht.advances, fun _ _ h => nomatch hy.symm.trans h⟩
  · refine ⟨_, rfl, ht.advances_cons (hmoves.fails e hy), fun _ _ h => nomatch hy.symm.trans h⟩
  · obtain ⟨hle, hS⟩ := hmoves.runs a c' hy
    obtain ⟨hstop, hR⟩ := hR c a c' ht.stop_le hP hS
    refine ⟨_, rfl, ht.advances_cons hle, fun b d h => ?_⟩
    cases hy.symm.trans h
    refine ⟨⟨ht.advances_cons hle, hstop, List.forall_mem_cons.2 ⟨Nat.le_refl _, ?_⟩⟩, hR⟩
    exact fun pos hpos => (ht.le_pos pos hpos).trans hle

end

/-! ## Steps -/

/-- The last token ended behind `start`, and the cursor is at `p` or behind it. -/
def Past (start p : Nat) (c : Cursor) : Prop := start < c.stop ∧ p ≤ c.pos

/-- A cursor behind a place is behind every earlier one. -/
theorem Past.mono {start p q : Nat} {c : Cursor} (h : Past start p c) (hle : q ≤ p) :
    Past start q c :=
  ⟨h.1, hle.trans h.2⟩

/-- The next token begins at `start`. -/
def Before (passage : Passage) (start : Nat) (c : Cursor) : Prop :=
  tokenStart passage.text c.pos = start

section
variable {passage : Passage} {start p q : Nat} {α β : Type} {z : CursorM α} {reads : α → Bool}

/-- What holds from some place on holds from a later one on. -/
theorem Records.ofLe {y : CursorM α} {x : TracedM α} {Q : α → Cursor → Prop}
    (h : Records passage (Past start q) y x Q) (hle : q ≤ p) :
    Records passage (Past start p) y x Q :=
  h.weaken (fun _ hpast => hpast.mono hle) fun _ _ => id

/-- The end of a rule, which may keep less of where the cursor is than it knows. -/
theorem records_result {a : α} (hle : q ≤ p) :
    Records passage (Past start p) (pure a) (pure a) fun _ => Past start q :=
  records_pure fun _ hpast => hpast.mono hle

/-- Behind the first token of a type. -/
theorem records_past (hz : LooksFor passage z reads) :
    Records passage (Past start p) (step z) (step z)
      fun a => Past start (p + (reads a).toNat) := by
  refine records_step (fun c _ => hz c) ?_
  rintro c a c' hstop ⟨hstart, hp⟩ h
  have hle := le_tokenStart passage.text c.pos
  generalize reads a = found at h ⊢
  cases h with
  | absent => exact ⟨hstop.trans hle, hstart, hp.trans hle⟩
  | passed hlt =>
    refine ⟨Nat.le_refl _, ?_, ?_⟩
    · dsimp only
      omega
    · rw [Bool.toNat_true]
      dsimp only
      omega

/-- Behind a token that was passed, the cursor is past one more byte. -/
theorem records_passed (hz : LooksFor passage z fun _ => true) :
    Records passage (Past start p) (step z) (step z) fun _ => Past start (p + 1) :=
  records_past hz

/-- In front of the first token of a type. -/
theorem records_before (hz : LooksFor passage z reads) :
    Records passage (Before passage start) (step z) (step z) fun a c =>
      if reads a then Past start 0 c else Before passage start c ∧ c.pos = start := by
  refine records_step (fun c _ => hz c) fun c a c' hstop hstart h => ?_
  have hle := le_tokenStart passage.text c.pos
  obtain rfl : tokenStart passage.text c.pos = start := hstart
  generalize reads a = found at h ⊢
  cases h with
  | absent => exact ⟨hstop.trans hle, tokenStart_tokenStart _ _, rfl⟩
  | passed hlt => exact ⟨Nat.le_refl _, hlt, Nat.zero_le _⟩

variable {z : CursorM Bool} {y₁ y₂ : CursorM β} {x₁ x₂ : TracedM β} {Q : β → Cursor → Prop}

/-- A token decides how a rule goes on: where it was passed, the cursor is past one more byte. -/
theorem records_ifPassed (hz : LooksFor passage z id)
    (hyes : Records passage (Past start (p + 1)) y₁ x₁ Q)
    (hno : Records passage (Past start p) y₂ x₂ Q) :
    Records passage (Past start p) (step z >>= fun found => if found then y₁ else y₂)
      (step z >>= fun found => if found then x₁ else x₂) Q := by
  refine (records_past hz).bind fun found => ?_
  cases found with
  | true => exact hyes
  | false => exact hno

/-- A token that is only looked for decides how a rule goes on. -/
theorem records_ifSeen (hz : LooksFor passage z fun _ => false)
    (hyes : Records passage (Past start p) y₁ x₁ Q)
    (hno : Records passage (Past start p) y₂ x₂ Q) :
    Records passage (Past start p) (step z >>= fun found => if found then y₁ else y₂)
      (step z >>= fun found => if found then x₁ else x₂) Q :=
  (records_past hz).bind fun _ => .ite hyes hno

/-- The first token of a type decides: either it was passed, or the type still begins where it did.
-/
theorem records_ifFirst (hz : LooksFor passage z id)
    (hyes : Records passage (Past start 0) y₁ x₁ Q)
    (hno : Records passage (Before passage start) y₂ x₂ Q) :
    Records passage (Before passage start) (step z >>= fun found => if found then y₁ else y₂)
      (step z >>= fun found => if found then x₁ else x₂) Q := by
  refine (records_before hz).bind fun found => ?_
  cases found with
  | true => exact hyes
  | false => exact hno.weaken (fun _ h => h.1) fun _ _ => id

/-- A rule that fails has no result to say anything about. -/
theorem records_fail (cause : ParseCause) (path : List Rule) {P : Cursor → Prop} :
    Records passage P (step (fail cause path)) (step (fail cause path)) Q :=
  records_step (fun c _ => moves_fail c (R := fun _ _ => False) cause path) fun _ _ _ _ _ => nofun

/-- A literal is read from its first quote on. -/
theorem records_ifQuote {quote : Quote} {path : List Rule} {y : CursorM TypeExpr}
    {x : TracedM TypeExpr}
    (hno : Records passage (Before passage start) y x fun _ => Past start 0) :
    Records passage (Before passage start)
      (step (peek [quote.char]) >>= fun found => if found then step (literal path quote) else y)
      (step (peek [quote.char]) >>= fun found => if found then step (literal path quote) else x)
      fun _ => Past start 0 := by
  refine (records_before (looksFor_peek _)).bind fun found => .ite ?_ ?_
  · refine records_step (fun c _ => moves_literal c path quote) fun c _ c' hstop h hlooked => ?_
    obtain ⟨-, rfl⟩ := h
    cases hlooked with
    | passed hlt => exact ⟨Nat.le_refl _, hlt, Nat.zero_le _⟩
  · exact hno.weaken (fun _ h => h.1) fun _ _ => id

end

/-! ## Rounds, and types inside -/

section
variable {passage : Passage} {start p q : Nat} {α : Type} {y : CursorM α} {x : TracedM α}
  {Q : α → Cursor → Prop}

/-- A round begins where the cursor stands. -/
theorem records_round {g : CursorM Unit → CursorM α} {f : TracedM Unit → TracedM α}
    (h : ∀ began, Records passage (Past start began) (g (pure ())) (f (endRound began)) Q) :
    Records passage (Past start p) (round g) (round f) Q :=
  fun c t ht hpast => h c.pos c t ht ⟨hpast.1, Nat.le_refl _⟩

/-- A round ends behind the place where it began. -/
theorem records_endRound (hlt : p < q) (h : Records passage (Past start 0) y x Q) :
    Records passage (Past start q) (pure () >>= fun _ => y) (endRound p >>= fun _ => x) Q := by
  intro c t ht hpast
  have hround := Nat.lt_of_lt_of_le hlt hpast.2
  refine h c { t with rounds := (p, c.pos) :: t.rounds } ⟨?_, ht.stop_le, ht.le_pos⟩
    (hpast.mono (Nat.zero_le _))
  exact ⟨ht.advances.positions, ht.advances.calls,
    List.forall_mem_cons.2 ⟨hround, ht.advances.rounds⟩, ht.advances.results⟩

/-- The row goes on behind a member. -/
theorem records_nextRound {y : CursorM (List α)} {x : TracedM (List α)} (first : α) (hlt : p < q)
    (h : Records passage (Past start 0) y x fun _ => Past start 0) :
    Records passage (Past start q)
      (pure () >>= fun _ => y >>= fun others => pure (first :: others))
      (endRound p >>= fun _ => x >>= fun others => pure (first :: others))
      fun _ => Past start 0 :=
  records_endRound hlt (h.bind fun _ => records_pure fun _ => id)

/-- A mark closes the row behind a member. -/
theorem records_lastRound {path : List Rule} {m : Mark} (a : α) (hlt : p < q) :
    Records passage (Past start q)
      (step (expect path m) >>= fun _ => pure () >>= fun _ => pure a)
      (step (expect path m) >>= fun _ => endRound p >>= fun _ => pure a) fun _ => Past start 0 :=
  (records_passed (looksFor_expect _ _)).bind fun _ =>
    records_endRound (hlt.trans (Nat.lt_succ_self _)) (records_pure fun _ => id)

/-- A type inside is read from behind the place where the other one begins. -/
theorem records_inside {y : CursorM TypeExpr} {x : TracedM TypeExpr}
    {Q : TypeExpr → Cursor → Prop} (h : Records passage (Past start p) y x Q) :
    Records passage (Past start p) y (inside start x) Q := by
  intro c t ht hpast
  have hcall := Nat.lt_of_lt_of_le hpast.1 ht.stop_le
  refine h c { t with calls := (start, c.pos) :: t.calls } ⟨?_, ht.stop_le, ht.le_pos⟩ hpast
  exact ⟨ht.advances.positions, List.forall_mem_cons.2 ⟨hcall, ht.advances.calls⟩,
    ht.advances.rounds, ht.advances.results⟩

/-- A type has a token: the last token ends behind the place where the last one ended before. -/
theorem records_reading {stop : Nat}
    {g : (CursorM TypeExpr → CursorM TypeExpr) → CursorM TypeExpr}
    {f : (TracedM TypeExpr → TracedM TypeExpr) → TracedM TypeExpr} {Q : TypeExpr → Cursor → Prop}
    (h : Records passage (Before passage start) (g fun y => y) (f (inside start)) Q)
    (hlt : ∀ a c, Q a c → stop < c.stop) :
    Records passage (fun c => Before passage start c ∧ c.stop = stop) (reading g) (reading f)
      Q := by
  have hend (a : TypeExpr) :
      Records passage (Q a) (pure a) (endReading stop >>= fun _ => pure a) Q := by
    intro c t ht hQ
    refine records_pure (fun _ => id) c { t with results := (stop, c.stop) :: t.results }
      ⟨?_, ht.stop_le, ht.le_pos⟩ hQ
    exact ⟨ht.advances.positions, ht.advances.calls, ht.advances.rounds,
      List.forall_mem_cons.2 ⟨hlt a c hQ, ht.advances.results⟩⟩
  -- What is done at the end of the type returns the type itself, so the bind with it is the body
  -- alone.
  rintro c t ht ⟨rfl, rfl⟩
  have hread := h.bind hend c t ht rfl
  rwa [bind_pure] at hread

end

/-! ## Rules -/

/-- Two readers of the types inside the one that begins at `start`. -/
def Nests (passage : Passage) (start : Nat) (nested : Rule → (whole : Bool) → CursorM TypeExpr)
    (nested' : Rule → (whole : Bool) → TracedM TypeExpr) : Prop :=
  ∀ rule whole p, Records passage (Past start p) (nested rule whole) (nested' rule whole)
    fun _ => Past start (p + 1)

section
variable {passage : Passage} {start p : Nat} {nested : Rule → (whole : Bool) → CursorM TypeExpr}
  {nested' : Rule → (whole : Bool) → TracedM TypeExpr} {path : List Rule}

/-- Each pair of square brackets is a round with two tokens. -/
theorem records_brackets (fuel : Nat) (type : TypeExpr) :
    Records passage (Past start 0) (brackets path fuel type) (brackets path fuel type)
      fun _ => Past start 0 := by
  induction fuel generalizing type with
  | zero => exact records_exhausted
  | succ fuel ih =>
    refine records_ifPassed (looksFor_eat _) ?_ (records_pure fun _ => id)
    refine records_round fun began => ?_
    refine (records_passed (looksFor_expect _ _)).bind fun _ => ?_
    exact records_endRound (by omega) (ih _)

/-- An entry has a type, so the cursor is past one more byte behind it. -/
theorem records_entry (hn : Nests passage start nested nested') :
    Records passage (Past start p) (entry nested path) (entry nested' path)
      fun _ => Past start (p + 1) := by
  refine (hn _ _ _).bind fun first => (records_past (looksFor_eat _)).bind fun isOptional => ?_
  have hkeyed : Records passage (Past start (p + 1))
      (do
        step (expect path .colon)
        let value ← nested .entryValue true
        return ShapeEntry.keyed first isOptional value)
      (do
        step (expect path .colon)
        let value ← nested' .entryValue true
        return ShapeEntry.keyed first isOptional value) fun _ => Past start (p + 1) := by
    refine (records_passed (looksFor_expect _ _)).bind fun _ => (hn _ _ _).bind fun value => ?_
    exact records_result (by omega)
  cases isOptional with
  | true => exact hkeyed.ofLe (Nat.le_succ _)
  | false => exact records_ifSeen (looksFor_peek _) hkeyed (records_pure fun _ => id)

/-- Each entry of a shape is a round. -/
theorem records_entries (hn : Nests passage start nested nested') (fuel : Nat) :
    Records passage (Past start 0) (entries nested path fuel) (entries nested' path fuel)
      fun _ => Past start 0 := by
  induction fuel with
  | zero => exact records_exhausted
  | succ fuel ih =>
    refine records_ifPassed (looksFor_eat _) (records_result (Nat.zero_le _)) ?_
    refine records_round fun began => (records_entry hn).bind fun first => ?_
    refine records_ifPassed (looksFor_eat _) ?_ ?_
    · exact records_nextRound first (by omega) ih
    · exact records_lastRound _ (by omega)

/-- The arguments of an array, which are no loop. -/
theorem records_arrayArguments (hn : Nests passage start nested nested') :
    Records passage (Past start p) (arrayArguments nested path)
      (arrayArguments nested' path) fun _ => Past start 0 := by
  refine (hn _ _ _).bind fun first => records_ifPassed (looksFor_eat _) ?_ ?_
  · refine (hn _ _ _).bind fun value => (records_passed (looksFor_expect _ _)).bind fun _ => ?_
    exact records_result (Nat.zero_le _)
  · refine (records_passed (looksFor_expect _ _)).bind fun _ => ?_
    exact records_result (Nat.zero_le _)

/-- A type that a name qualifies follows the name with no token between them. Its reader begins
behind the name, which the reader before it has read. -/
theorem records_argument (hn : Nests passage start nested nested') :
    Records passage (Past start p) (argument nested) (argument nested')
      fun _ => Past start (p + 1) := by
  refine (hn _ _ _).bind fun first => ?_
  cases first with
  | named name =>
    refine records_ifSeen looksFor_endsArgument (records_pure fun _ => id) ?_
    exact (hn _ _ _).bind fun target => records_result (Nat.le_succ _)
  | _ => exact records_pure fun _ => id

/-- Each argument of a generic type is a round, also where a comma stands behind the last one. -/
theorem records_arguments (hn : Nests passage start nested nested') (fuel : Nat) :
    Records passage (Past start 0) (arguments nested path fuel)
      (arguments nested' path fuel) fun _ => Past start 0 := by
  induction fuel with
  | zero => exact records_exhausted
  | succ fuel ih =>
    refine records_round fun began => (records_argument hn).bind fun first => ?_
    refine records_ifPassed (looksFor_eat _) (records_ifPassed (looksFor_eat _) ?_ ?_) ?_
    · exact records_endRound (by omega) (records_pure fun _ => id)
    · exact records_nextRound first (by omega) ih
    · exact records_lastRound _ (by omega)

/-- A parameter has a type, so the cursor is past one more byte behind it. -/
theorem records_parameter (hn : Nests passage start nested nested') :
    Records passage (Past start p) (parameter nested) (parameter nested')
      fun _ => Past start (p + 1) := by
  refine (hn _ _ _).bind fun type => (records_past looksFor_eatParameterName).bind fun name => ?_
  cases name with
  | some name => exact records_result (Nat.le_succ _)
  | none => exact records_pure fun _ => id

/-- Each parameter of a callable is a round. -/
theorem records_parameters (hn : Nests passage start nested nested') (fuel : Nat) :
    Records passage (Past start 0) (parameters nested path fuel)
      (parameters nested' path fuel) fun _ => Past start 0 := by
  induction fuel with
  | zero => exact records_exhausted
  | succ fuel ih =>
    refine records_ifPassed (looksFor_eat _) (records_result (Nat.zero_le _)) ?_
    refine records_round fun began => (records_parameter hn).bind fun first => ?_
    refine records_ifPassed (looksFor_eat _) ?_ ?_
    · exact records_nextRound first (by omega) ih
    · exact records_lastRound _ (by omega)

/-- The result of a callable is read behind its parameters. -/
theorem records_call (hn : Nests passage start nested nested') (fuel : Nat) (whole : Bool)
    (callee : TypeExpr) :
    Records passage (Past start 0) (call nested path fuel whole callee)
      (call nested' path fuel whole callee) fun _ => Past start 0 := by
  refine records_ifPassed (looksFor_eat _) ?_ (records_pure fun _ => id)
  refine ((records_parameters hn fuel).ofLe (Nat.zero_le _)).bind fun parameters => ?_
  refine (records_passed (looksFor_expect _ _)).bind fun _ => (hn _ _ _).bind fun result => ?_
  exact records_result (Nat.zero_le _)

/-- The arguments are read behind the name. -/
theorem records_generic (hn : Nests passage start nested nested') (fuel : Nat) (name : Text) :
    Records passage (Past start 0) (generic nested path fuel name)
      (generic nested' path fuel name) fun _ => Past start 0 := by
  refine records_ifPassed (looksFor_eat _) ?_ (records_pure fun _ => id)
  exact ((records_arguments hn fuel).ofLe (Nat.zero_le _)).bind fun _ => records_pure fun _ => id

/-- The member is read behind the name and its arguments. -/
theorem records_nameTail (hn : Nests passage start nested nested') (fuel : Nat) (name : Text) :
    Records passage (Past start 0) (nameTail nested path fuel name)
      (nameTail nested' path fuel name) fun _ => Past start 0 := by
  refine (records_generic hn fuel name).bind fun base => ?_
  refine records_ifPassed (looksFor_eat _) ?_ (records_pure fun _ => id)
  exact (hn _ _ _).bind fun member => records_result (Nat.zero_le _)

/-- What is inside an array or a list is read behind the word. -/
theorem records_named (hn : Nests passage start nested nested') (fuel : Nat) (name : Text) :
    Records passage (Past start 0) (named nested path fuel name)
      (named nested' path fuel name) fun _ => Past start 0 := by
  have htail : Records passage (Past start 0) (nameTail nested path fuel name)
      (nameTail nested' path fuel name) fun _ => Past start 0 := records_nameTail hn fuel name
  refine .ite ?_ (.ite ?_ htail)
  · refine records_ifPassed (looksFor_eat _) ?_ ?_
    · exact ((records_entries hn fuel).ofLe (Nat.zero_le _)).bind fun _ => records_pure fun _ => id
    · exact records_ifPassed (looksFor_eat _) (records_arrayArguments hn) htail
  · refine records_ifPassed (looksFor_eat _) ?_ htail
    refine (hn _ _ _).bind fun item => (records_passed (looksFor_expect _ _)).bind fun _ => ?_
    exact records_result (Nat.zero_le _)

/-- The first token of a type without what may follow it: from in front of it to behind it. -/
theorem records_primary (hn : Nests passage start nested nested') (fuel : Nat) :
    Records passage (Before passage start) (primary nested path fuel)
      (primary nested' path fuel) fun _ => Past start 0 := by
  refine records_ifFirst (looksFor_eat _) (records_pure fun _ => id) ?_
  refine records_ifFirst (looksFor_eat _) ?_ ?_
  · refine (hn _ _ _).bind fun inner => (records_passed (looksFor_expect _ _)).bind fun _ => ?_
    exact records_result (Nat.zero_le _)
  refine records_ifQuote (records_ifQuote ?_)
  refine (records_before looksFor_eatName).bind fun name => ?_
  cases name with
  | some name => exact records_named hn fuel name
  | none => exact records_fail _ _

/-- The first token of a branch is its question mark, or that of the type in it. -/
theorem records_branch (hn : Nests passage start nested nested') (fuel : Nat) (whole : Bool) :
    Records passage (Before passage start) (branch nested path fuel whole)
      (branch nested' path fuel whole) fun _ => Past start 0 := by
  refine records_ifFirst (looksFor_eat _) ?_ ?_
  · exact (hn _ _ _).bind fun inner => records_result (Nat.zero_le _)
  refine (records_primary hn fuel).bind fun callee => ?_
  exact (records_call hn fuel whole callee).bind fun called => records_brackets fuel called

/-- Each branch behind the first one is a round, which begins behind its bar. -/
theorem records_branches (hn : Nests passage start nested nested') (fuel : Nat) :
    Records passage (Past start 0) (branches nested fuel) (branches nested' fuel)
      fun _ => Past start 0 := by
  induction fuel with
  | zero => exact records_exhausted
  | succ fuel ih =>
    refine records_ifPassed (looksFor_eat _) ?_ (records_pure fun _ => id)
    refine records_round fun began => (hn _ _ _).bind fun branch => ?_
    exact records_nextRound branch (by omega) ih

/-- The clauses are read behind the subject, each behind a word or a mark. -/
theorem records_clauses (hn : Nests passage start nested nested') (subject : TypeExpr) :
    Records passage (Past start 0) (clauses nested path subject)
      (clauses nested' path subject) fun _ => Past start 0 := by
  refine .ite (records_pure fun _ => id) ?_
  refine records_ifPassed (looksFor_eatWord (by decide)) ?_ (records_pure fun _ => id)
  refine (hn _ _ _).bind fun bound => (records_passed (looksFor_expect _ _)).bind fun _ => ?_
  refine (hn _ _ _).bind fun consequent => (records_passed (looksFor_expect _ _)).bind fun _ => ?_
  refine (hn _ _ _).bind fun alternative => ?_
  exact records_result (Nat.zero_le _)

/-- A whole type, given that the readers of the types inside advance. -/
theorem records_typeWith (hn : Nests passage start nested nested') (fuel : Nat) (whole : Bool) :
    Records passage (Before passage start) (typeWith nested path fuel whole)
      (typeWith nested' path fuel whole) fun _ => Past start 0 := by
  refine (records_branch hn fuel whole).bind fun first => ?_
  refine .ite (records_ifSeen (looksFor_peek _) ?_ ?_) (records_pure fun _ => id)
  · exact (records_branches hn fuel).bind fun others => records_clauses hn _
  · exact records_clauses hn first

end

/-- A type is read from in front of its first token, and its reader ends behind that place. -/
theorem records_type (passage : Passage) (fuel : Nat) (path : List Rule) (whole : Bool)
    (stop pos : Nat) :
    Records passage (fun c => stop ≤ c.stop ∧ pos ≤ c.pos) (type fuel path whole)
      (type fuel path whole) fun _ c => stop < c.stop ∧ pos < c.pos := by
  -- The places `stop` and `pos` vary with the type: for a type inside, the last token ended behind
  -- the place where the type around it begins, which is the call that is written down.
  induction fuel generalizing path whole stop pos with
  | zero => exact records_exhausted
  | succ fuel ih =>
    rintro c t ht ⟨hstop, hpos⟩
    have hn : Nests passage (tokenStart passage.text c.pos)
        (fun rule whole => type fuel (path ++ [rule]) whole)
        (fun rule whole =>
          inside (tokenStart passage.text c.pos) (type fuel (path ++ [rule]) whole)) := by
      refine fun rule whole p => records_inside ?_
      exact (ih _ whole (tokenStart passage.text c.pos + 1) p).weaken (fun _ h => h)
        fun _ _ h => ⟨(Nat.le_succ _).trans_lt h.1, h.2⟩
    have hbegins : c.stop ≤ tokenStart passage.text c.pos :=
      ht.stop_le.trans (le_tokenStart passage.text c.pos)
    have hreading : Records passage
        (fun d => Before passage (tokenStart passage.text c.pos) d ∧ d.stop = c.stop)
        (type (fuel + 1) path whole) (type (fuel + 1) path whole)
        fun _ => Past (tokenStart passage.text c.pos) 0 :=
      records_reading (records_typeWith hn (fuel + 1) whole) fun _ _ h => hbegins.trans_lt h.1
    obtain ⟨t', hrun, hadvances, hruns⟩ := hreading c t ht ⟨rfl, rfl⟩
    refine ⟨t', hrun, hadvances, ?_⟩
    intro type c' h
    obtain ⟨ht', hpast, -⟩ := hruns type c' h
    have hle := le_tokenStart passage.text c.pos
    have hstop' := ht'.stop_le
    exact ⟨ht', by omega, by omega⟩

/-- A whole run. The rest of the text is cut off where the last token ends, which moves nothing. -/
theorem records_parsed (passage : Passage) (fuel : Nat) :
    Records passage (fun _ => True) (parsed fuel) (parsed fuel) fun _ _ => True := by
  have htype : Records passage (fun _ => True) (type fuel [] true) (type fuel [] true)
      fun _ _ => True :=
    (records_type passage fuel [] true 0 0).weaken (fun _ _ => ⟨Nat.zero_le _, Nat.zero_le _⟩)
      fun _ _ _ => trivial
  refine htype.bind fun type => ?_
  refine records_step (S := fun c _ c' => c' = c)
    (fun c _ => moves_get (moves_read ((moves_cut c _ _).bind ?_))) ?_
  · rintro _ _ ⟨rfl, -⟩
    exact moves_pure rfl
  · rintro c _ _ hstop - rfl
    exact ⟨hstop, trivial⟩

/-- A run and its trace, from the front of the text and with nothing written down. -/
theorem parse_eq_runFrom (fuel : Nat) (location text : Text) :
    parse fuel location text =
      ((runFrom (parsed fuel) ⟨location, text⟩ ⟨0, 0⟩ {}).1.map Prod.fst,
        (runFrom (parsed fuel) ⟨location, text⟩ ⟨0, 0⟩ {}).2) := by
  simp only [parse, StateT.run'_eq, ExceptT.run_map, StateT.run_map, runFrom]
  rfl

/-- The reader of types only advances. A run that leaves a trace ends as one that leaves none, and
whatever the fuel and the text are, what it writes down up to its end says that it advanced. So the
recursion ends: with more fuel than text, the run has the result of `TypeExpr.parse`. -/
theorem parse_advances (location text : Text) :
    (∀ fuel, (parse fuel location text).1 = CursorM.parse fuel location text ∧
      (parse fuel location text).2.Advances) ∧
    ∀ fuel, text.length < fuel →
      (parse fuel location text).1 = (TypeExpr.parse location text).mapError .failed := by
  have hrecords (fuel : Nat) : (parse fuel location text).1 = CursorM.parse fuel location text ∧
      (parse fuel location text).2.Advances := by
    have hstart : Trace.Reaches {} ⟨0, 0⟩ :=
      ⟨⟨.nil, nofun, nofun, nofun⟩, Nat.le_refl _, nofun⟩
    obtain ⟨t, hrun, hadvances, -⟩ := records_parsed ⟨location, text⟩ fuel ⟨0, 0⟩ {} hstart trivial
    rw [parse_eq_runFrom, hrun]
    exact ⟨rfl, hadvances⟩
  refine ⟨hrecords, fun fuel hfuel => (hrecords fuel).1.trans ?_⟩
  exact CursorM.parse_eq location text hfuel

/-- The angle bracket is never closed. Up to there `b` was read, the union that it qualifies, and
the last branch of that union. -/
theorem parse_advances_unclosed :
    let text := "a<b c|d".toList
    let run := parse 8 "@var".toList text
    run.1 = .error (.failed ⟨.expected .closeAngle, 7, "@var".toList, "<eol>".toList⟩) ∧
      run.2.Advances ∧ run.2.calls = [(4, 6), (0, 4), (0, 2)] ∧ run.2.rounds = [(6, 7)] ∧
      run.2.results = [(3, 7), (6, 7), (2, 3)] := by
  intro text run
  obtain ⟨hrecords, hends⟩ := parse_advances "@var".toList text
  have hparsed : TypeExpr.parse "@var".toList text =
      .error ⟨.expected .closeAngle, 7, "@var".toList, "<eol>".toList⟩ := by
    with_unfolding_all rfl
  refine ⟨(hends 8 (by decide)).trans (congrArg _ hparsed), (hrecords 8).2, ?_⟩
  decide +kernel

end TracedM

end Docblock
