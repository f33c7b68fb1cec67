import Docblock.Proofs.TypeExpr.CursorTokens
import Docblock.Proofs.TypeExpr.Stepwise

/-!
# Reading with a cursor is safe

A run with a cursor does what `TypeExpr.read` does (`follows_type`): rule by rule, given that the
readers of the types inside do, and then by induction on the fuel. So it never goes astray, it ends,
and an error points into the text (`parse_safe`).

Each rule is compared for all texts that are left and all places where the cursor may stand before
them (`Follows`), and the readers of the types inside are any two that agree (`Agree`): so the lemma
of one rule does not change with another rule. The rows, whose length is up to the text, are by
induction on the text that is left. Each member shortens it, so more fuel than text is enough for
the row, and for the types inside as well.

With less fuel a run may end as `Halt.exhausted`, and nothing is claimed here of what it did before.
That it only advanced is proved in `Docblock.Proofs.TypeExpr.Advancing`, for any fuel. What the tree
is that is read, and which texts can be read at all, is not asked here either: that is known of
`TypeExpr.read`.
-/

namespace Docblock

open Text

namespace CursorM

open Stepwise

/-- Two readers of the types inside a type: what the one does with a cursor, the other does with the
text that is left. -/
def Agree {n : Nat} (passage : Passage) (nested : Rule → (whole : Bool) → CursorM TypeExpr)
    (reader : Nested n) : Prop :=
  ∀ rule whole r (h : r.length < n),
    Follows passage valueAndRest r (nested rule whole) (reader rule whole r h)

section
variable {n : Nat} {passage : Passage} {nested : Rule → (whole : Bool) → CursorM TypeExpr}
  {reader : Nested n} {path : List Rule}

/-- Pairs of square brackets. The fuel lasts, since each pair shortens the text. -/
theorem follows_brackets (type : TypeExpr) (s : Text) {fuel : Nat} (hfuel : s.length < fuel) :
    Follows passage valueAndRest s (brackets path fuel type)
      (TypeExpr.readBrackets path type s) := by
  obtain ⟨fuel, rfl⟩ := Nat.exists_eq_add_one_of_ne_zero (Nat.ne_zero_of_lt hfuel)
  rw [brackets, TypeExpr.readBrackets]
  rcases hopen : Token.mark? .openBracket s with _ | ⟨r₁, h₁⟩
  · exact .after (takes_eat_none hopen) (.pure rfl)
  refine .after (takes_eat hopen) ?_
  refine (follows_expect path .closeBracket r₁).bind fun ⟨r₂, h₂⟩ _ => ?_
  exact (follows_brackets (.arrayOf type) r₂ (by omega)).passedOn fun ⟨_, _, _⟩ => ⟨_, rfl, rfl⟩
termination_by s.length

/-- An entry of a shape, with a key or without one. -/
theorem follows_entry (hn : Agree passage nested reader) (s : Text) (hs : s.length < n) :
    Follows passage valueAndRest s (entry nested path) (TypeExpr.readEntry reader path s hs) := by
  unfold entry TypeExpr.readEntry
  refine (hn .entry true s hs).bind fun ⟨first, r₁, h₁⟩ _ => ?_
  dsimp only [valueAndRest]
  rcases hquestion : Token.mark? .question r₁ with _ | ⟨r₂, h₂⟩
  · refine .after (takes_eat_none hquestion) (.after (takes_peek .colon) ?_)
    rcases hcolon : Token.mark? .colon r₁ with _ | ⟨r₂, h₂⟩
    · exact .pure rfl
    refine .after (takes_expect hcolon) ?_
    refine (hn .entryValue true r₂ _).bind fun ⟨value, r₃, h₃⟩ _ => ?_
    exact .pure rfl
  · refine .after (takes_eat hquestion) (.after (takes_pure true) ?_)
    refine (follows_expect path .colon r₂).bind fun ⟨r₃, h₃⟩ _ => ?_
    refine (hn .entryValue true r₃ _).bind fun ⟨value, r₄, h₄⟩ _ => ?_
    exact .pure rfl

/-- The entries of a shape, by induction on the text that is left. -/
theorem follows_entries (hn : Agree passage nested reader) (s : Text) (hs : s.length < n)
    {fuel : Nat} (hfuel : s.length < fuel) :
    Follows passage valueAndRest s (entries nested path fuel)
      (TypeExpr.readEntries reader path s hs) := by
  obtain ⟨fuel, rfl⟩ := Nat.exists_eq_add_one_of_ne_zero (Nat.ne_zero_of_lt hfuel)
  rw [entries, TypeExpr.readEntries]
  rcases hclose : Token.mark? .closeBrace s with _ | ⟨r, h⟩
  · refine .after (takes_eat_none hclose) ?_
    refine (follows_entry hn s hs).bind fun ⟨first, r₁, h₁⟩ _ => ?_
    dsimp only [valueAndRest]
    rcases hcomma : Token.mark? .comma r₁ with _ | ⟨r₂, h₂⟩
    · refine .after (takes_eat_none hcomma) ?_
      refine (follows_expect path .closeBrace r₁).bind fun ⟨r₂, h₂⟩ _ => ?_
      exact .pure rfl
    refine .after (takes_eat hcomma) ?_
    refine .after (takes_pure ()) ?_
    refine (follows_entries hn r₂ _ (by omega)).bind fun ⟨others, r₃, h₃⟩ _ => ?_
    exact .pure rfl
  · exact .after (takes_eat hclose) (.pure rfl)
termination_by s.length

/-- The item of an array, or its key and its value. -/
theorem follows_arrayArguments (hn : Agree passage nested reader) (s : Text) (hs : s.length < n) :
    Follows passage valueAndRest s (arrayArguments nested path)
      (TypeExpr.readArrayArguments reader path s hs) := by
  unfold arrayArguments TypeExpr.readArrayArguments
  refine (hn .arrayArgument true s hs).bind fun ⟨first, r₁, h₁⟩ _ => ?_
  dsimp only [valueAndRest]
  rcases hcomma : Token.mark? .comma r₁ with _ | ⟨r₂, h₂⟩
  · refine .after (takes_eat_none hcomma) ?_
    refine (follows_expect path .closeAngle r₁).bind fun ⟨r₂, h₂⟩ _ => ?_
    exact .pure rfl
  refine .after (takes_eat hcomma) ?_
  refine (hn .arrayValue true r₂ _).bind fun ⟨value, r₃, h₃⟩ _ => ?_
  refine (follows_expect path .closeAngle r₃).bind fun ⟨r₄, h₄⟩ _ => ?_
  exact .pure rfl

/-- The end of an argument is looked for and left there. -/
theorem takes_endsArgument (s : Text) :
    Takes passage s endsArgument (TypeExpr.endsArgument s) s := by
  intro c t hat
  obtain ⟨c₁, t₁, hat₁, hcomma⟩ := takes_peek .comma c t hat
  rw [TypeExpr.endsArgument]
  cases h : (Token.mark? .comma s).isSome with
  | true =>
    rw [h] at hcomma
    exact ⟨c₁, t₁, hat₁, hcomma.bind (runs_pure true)⟩
  | false =>
    rw [h] at hcomma
    obtain ⟨c₂, t₂, hat₂, hclose⟩ := takes_peek .closeAngle c₁ t₁ hat₁
    exact ⟨c₂, t₂, hat₂, hcomma.bind hclose⟩

/-- An argument, or a name and the type it qualifies. -/
theorem follows_argument (hn : Agree passage nested reader) (s : Text) (hs : s.length < n) :
    Follows passage valueAndRest s (argument nested) (TypeExpr.readArgument reader s hs) := by
  unfold argument TypeExpr.readArgument
  refine (hn .argument true s hs).bind fun ⟨first, r₁, h₁⟩ _ => ?_
  dsimp only [valueAndRest]
  cases first with
  | named name =>
    refine .after (takes_endsArgument r₁) ?_
    dsimp only
    split
    · exact .pure rfl
    · refine (hn .argument true r₁ _).bind fun ⟨target, r₂, h₂⟩ _ => ?_
      exact .pure rfl
  | _ => exact .pure rfl

/-- The arguments of a generic type, by induction on the text that is left. -/
theorem follows_arguments (hn : Agree passage nested reader) (s : Text) (hs : s.length < n)
    {fuel : Nat} (hfuel : s.length < fuel) :
    Follows passage valueAndRest s (arguments nested path fuel)
      (TypeExpr.readArguments reader path s hs) := by
  obtain ⟨fuel, rfl⟩ := Nat.exists_eq_add_one_of_ne_zero (Nat.ne_zero_of_lt hfuel)
  rw [arguments, TypeExpr.readArguments]
  refine (follows_argument hn s hs).bind fun ⟨first, r₁, h₁⟩ _ => ?_
  dsimp only [valueAndRest]
  rcases hcomma : Token.mark? .comma r₁ with _ | ⟨r₂, h₂⟩
  · refine .after (takes_eat_none hcomma) ?_
    refine (follows_expect path .closeAngle r₁).bind fun ⟨r₂, h₂⟩ _ => ?_
    exact .pure rfl
  refine .after (takes_eat hcomma) ?_
  dsimp only
  rcases hclose : Token.mark? .closeAngle r₂ with _ | ⟨r₃, h₃⟩
  · refine .after (takes_eat_none hclose) ?_
    refine .after (takes_pure ()) ?_
    refine (follows_arguments hn r₂ _ (by omega)).bind fun ⟨others, r₃, h₃⟩ _ => ?_
    exact .pure rfl
  · exact .after (takes_eat hclose) (.pure rfl)
termination_by s.length

/-- A parameter, named or not. -/
theorem follows_parameter (hn : Agree passage nested reader) (s : Text) (hs : s.length < n) :
    Follows passage valueAndRest s (parameter nested) (TypeExpr.readParameter reader s hs) := by
  unfold parameter TypeExpr.readParameter
  refine (hn .parameter true s hs).bind fun ⟨type, r₁, h₁⟩ _ => ?_
  dsimp only [valueAndRest]
  rcases hname : Token.parameterName? r₁ with _ | ⟨name, r₂, h₂⟩
  · exact .after (takes_parameterName_none hname) (.pure rfl)
  · exact .after (takes_parameterName hname) (.pure rfl)

/-- The parameters of a callable, by induction on the text that is left. -/
theorem follows_parameters (hn : Agree passage nested reader) (s : Text) (hs : s.length < n)
    {fuel : Nat} (hfuel : s.length < fuel) :
    Follows passage valueAndRest s (parameters nested path fuel)
      (TypeExpr.readParameters reader path s hs) := by
  obtain ⟨fuel, rfl⟩ := Nat.exists_eq_add_one_of_ne_zero (Nat.ne_zero_of_lt hfuel)
  rw [parameters, TypeExpr.readParameters]
  rcases hclose : Token.mark? .closeParen s with _ | ⟨r, h⟩
  · refine .after (takes_eat_none hclose) ?_
    refine (follows_parameter hn s hs).bind fun ⟨first, r₁, h₁⟩ _ => ?_
    dsimp only [valueAndRest]
    rcases hcomma : Token.mark? .comma r₁ with _ | ⟨r₂, h₂⟩
    · refine .after (takes_eat_none hcomma) ?_
      refine (follows_expect path .closeParen r₁).bind fun ⟨r₂, h₂⟩ _ => ?_
      exact .pure rfl
    refine .after (takes_eat hcomma) ?_
    refine .after (takes_pure ()) ?_
    refine (follows_parameters hn r₂ _ (by omega)).bind fun ⟨others, r₃, h₃⟩ _ => ?_
    exact .pure rfl
  · exact .after (takes_eat hclose) (.pure rfl)
termination_by s.length

/-- The parameters and the result of a callable, if there are any. -/
theorem follows_call (hn : Agree passage nested reader) (whole : Bool) (callee : TypeExpr)
    (s : Text) (hs : s.length < n) {fuel : Nat} (hfuel : s.length < fuel) :
    Follows passage valueAndRest s (call nested path fuel whole callee)
      (TypeExpr.readCall reader path whole callee s hs) := by
  unfold call TypeExpr.readCall
  rcases hopen : Token.mark? .openParen s with _ | ⟨r₁, h₁⟩
  · exact .after (takes_eat_none hopen) (.pure rfl)
  refine .after (takes_eat hopen) ?_
  refine (follows_parameters hn r₁ _ (by omega)).bind fun ⟨parameters, r₂, h₂⟩ _ => ?_
  refine (follows_expect path .colon r₂).bind fun ⟨r₃, h₃⟩ _ => ?_
  refine (hn .result whole r₃ _).bind fun ⟨result, r₄, h₄⟩ _ => ?_
  exact .pure rfl

/-- A name with its arguments, if there are any. -/
theorem follows_generic (hn : Agree passage nested reader) (name : Text) (s : Text)
    (hs : s.length < n) {fuel : Nat} (hfuel : s.length < fuel) :
    Follows passage valueAndRest s (generic nested path fuel name)
      (TypeExpr.readGeneric reader path name s hs) := by
  unfold generic TypeExpr.readGeneric
  rcases hopen : Token.mark? .openAngle s with _ | ⟨r₁, h₁⟩
  · exact .after (takes_eat_none hopen) (.pure rfl)
  refine .after (takes_eat hopen) ?_
  refine (follows_arguments hn r₁ _ (by omega)).bind fun ⟨arguments, r₂, h₂⟩ _ => ?_
  exact .pure rfl

/-- A name without a rule of its own, with what may follow it. -/
theorem follows_nameTail (hn : Agree passage nested reader) (name : Text) (s : Text)
    (hs : s.length < n) {fuel : Nat} (hfuel : s.length < fuel) :
    Follows passage valueAndRest s (nameTail nested path fuel name)
      (TypeExpr.readNameTail reader path name s hs) := by
  unfold nameTail TypeExpr.readNameTail
  refine (follows_generic hn name s hs hfuel).bind fun ⟨base, r₁, h₁⟩ _ => ?_
  dsimp only [valueAndRest]
  rcases hcolons : Token.mark? .doubleColon r₁ with _ | ⟨r₂, h₂⟩
  · exact .after (takes_eat_none hcolons) (.pure rfl)
  refine .after (takes_eat hcolons) ?_
  refine (hn .member false r₂ _).bind fun ⟨member, r₃, h₃⟩ _ => ?_
  exact .pure rfl

/-- A name, by the rule that its word has. -/
theorem follows_named (hn : Agree passage nested reader) (name : Text) (s : Text)
    (hs : s.length < n) {fuel : Nat} (hfuel : s.length < fuel) :
    Follows passage valueAndRest s (named nested path fuel name)
      (TypeExpr.readNamed reader path name s hs) := by
  unfold named TypeExpr.readNamed
  split
  · rcases hbrace : Token.mark? .openBrace s with _ | ⟨r₁, h₁⟩
    · refine .after (takes_eat_none hbrace) ?_
      dsimp only
      rcases hangle : Token.mark? .openAngle s with _ | ⟨r₁, h₁⟩
      · exact .after (takes_eat_none hangle) (follows_nameTail hn name s hs hfuel)
      refine .after (takes_eat hangle) ?_
      exact (follows_arrayArguments hn r₁ _).passedOn fun ⟨_, _, _⟩ => ⟨_, rfl, rfl⟩
    refine .after (takes_eat hbrace) ?_
    refine (follows_entries hn r₁ _ (by omega)).bind fun ⟨entries, r₂, h₂⟩ _ => ?_
    exact .pure rfl
  split
  · rcases hangle : Token.mark? .openAngle s with _ | ⟨r₁, h₁⟩
    · exact .after (takes_eat_none hangle) (follows_nameTail hn name s hs hfuel)
    refine .after (takes_eat hangle) ?_
    refine (hn .listItem true r₁ _).bind fun ⟨item, r₂, h₂⟩ _ => ?_
    refine (follows_expect path .closeAngle r₂).bind fun ⟨r₃, h₃⟩ _ => ?_
    exact .pure rfl
  · exact follows_nameTail hn name s hs hfuel

/-- A type without what may follow it. If none begins here, both fail here. -/
theorem follows_primary (hn : Agree passage nested reader) (s : Text) (hs : s.length ≤ n)
    {fuel : Nat} (hfuel : s.length < fuel) :
    Follows passage valueAndRest s (primary nested path fuel)
      (TypeExpr.readPrimary reader path s hs) := by
  unfold primary TypeExpr.readPrimary
  rcases hellipsis : Token.mark? .ellipsis s with _ | ⟨r, h⟩
  on_goal 2 => exact .after (takes_eat hellipsis) (.pure rfl)
  refine .after (takes_eat_none hellipsis) ?_
  dsimp only
  rcases hparen : Token.mark? .openParen s with _ | ⟨r₁, h₁⟩
  on_goal 2 =>
    refine .after (takes_eat hparen) ?_
    refine (hn .group true r₁ _).bind fun ⟨inner, r₂, h₂⟩ _ => ?_
    refine (follows_expect path .closeParen r₂).bind fun ⟨r₃, h₃⟩ _ => ?_
    exact .pure rfl
  refine .after (takes_eat_none hparen) ?_
  dsimp only
  rcases hquote : Token.quote? s with _ | quote
  on_goal 2 =>
    cases quote with
    | single => exact follows_literal hquote
    | double => exact .after (takes_peek_quote_none hquote (by decide)) (follows_literal hquote)
  refine .after (takes_peek_quote_none hquote (by simp)) ?_
  refine .after (takes_peek_quote_none hquote (by simp)) ?_
  rcases hname : Token.name? s with _ | ⟨name, r₁, h₁⟩
  · exact .error (stops_name path hname)
  refine .after (takes_name hname) ?_
  exact (follows_named hn name r₁ _ (by omega)).passedOn fun ⟨_, _, _⟩ => ⟨_, rfl, rfl⟩

/-- A branch of a union. -/
theorem follows_branch (hn : Agree passage nested reader) (whole : Bool) (s : Text)
    (hs : s.length ≤ n) {fuel : Nat} (hfuel : s.length < fuel) :
    Follows passage valueAndRest s (branch nested path fuel whole)
      (TypeExpr.readBranch reader path whole s hs) := by
  unfold branch TypeExpr.readBranch
  rcases hquestion : Token.mark? .question s with _ | ⟨r₁, h₁⟩
  · refine .after (takes_eat_none hquestion) ?_
    refine (follows_primary hn s hs hfuel).bind fun ⟨callee, r₁, h₁⟩ _ => ?_
    refine (follows_call hn whole callee r₁ _ (by omega)).bind fun ⟨called, r₂, h₂⟩ _ => ?_
    exact (follows_brackets called r₂ (by omega)).passedOn fun ⟨_, _, _⟩ => ⟨_, rfl, rfl⟩
  refine .after (takes_eat hquestion) ?_
  refine (hn .nullable false r₁ _).bind fun ⟨inner, r₂, h₂⟩ _ => ?_
  exact .pure rfl

/-- The branches behind the first one, by induction on the text that is left. -/
theorem follows_branches (hn : Agree passage nested reader) (s : Text) (hs : s.length < n)
    {fuel : Nat} (hfuel : s.length < fuel) :
    Follows passage valueAndRest s (branches nested fuel) (TypeExpr.readBranches reader s hs) := by
  obtain ⟨fuel, rfl⟩ := Nat.exists_eq_add_one_of_ne_zero (Nat.ne_zero_of_lt hfuel)
  rw [branches, TypeExpr.readBranches]
  rcases hbar : Token.mark? .bar s with _ | ⟨r₁, h₁⟩
  · exact .after (takes_eat_none hbar) (.pure rfl)
  refine .after (takes_eat hbar) ?_
  refine (hn .branch false r₁ _).bind fun ⟨branch, r₂, h₂⟩ _ => ?_
  refine .after (takes_pure ()) ?_
  refine (follows_branches hn r₂ _ (by omega)).bind fun ⟨others, r₃, h₃⟩ _ => ?_
  exact .pure rfl
termination_by s.length

/-- The clauses of a conditional type, if they may stand here and do. -/
theorem follows_clauses (hn : Agree passage nested reader) (subject : TypeExpr) (s : Text)
    (hs : s.length < n) :
    Follows passage valueAndRest s (clauses nested path subject)
      (TypeExpr.readClauses reader path subject s hs) := by
  unfold clauses TypeExpr.readClauses
  split
  · exact .pure rfl
  rcases his : Token.is? s with _ | ⟨r₁, h₁⟩
  · exact .after (takes_is_none his) (.pure rfl)
  refine .after (takes_is his) ?_
  refine (hn .bound true r₁ _).bind fun ⟨bound, r₂, h₂⟩ _ => ?_
  refine (follows_expect path .question r₂).bind fun ⟨r₃, h₃⟩ _ => ?_
  refine (hn .consequent true r₃ _).bind fun ⟨consequent, r₄, h₄⟩ _ => ?_
  refine (follows_expect path .colon r₄).bind fun ⟨r₅, h₅⟩ _ => ?_
  refine (hn .alternative true r₅ _).bind fun ⟨alternative, r₆, h₆⟩ _ => ?_
  exact .pure rfl

/-- A bar begins one more branch at least. -/
theorem ne_nil_of_readBranches {s : Text} {hs : s.length < n} {r : Shorter s}
    (hbar : Token.mark? .bar s = some r) {branches : List TypeExpr} {rest : NoLonger s}
    (h : TypeExpr.readBranches reader s hs = .ok (branches, rest)) : branches ≠ [] := by
  rw [TypeExpr.readBranches, hbar] at h
  obtain ⟨⟨branch, r₁, h₁⟩, -, h⟩ := bind_eq_ok.1 h
  obtain ⟨⟨others, r₂, h₂⟩, -, h⟩ := bind_eq_ok.1 h
  cases h
  exact List.cons_ne_nil _ _

/-- A type, given that the readers of the types inside agree. -/
theorem follows_typeWith (hn : Agree passage nested reader) (whole : Bool) (s : Text)
    (hs : s.length ≤ n) {fuel : Nat} (hfuel : s.length < fuel) :
    Follows passage valueAndRest s (typeWith nested path fuel whole)
      (TypeExpr.readWith reader path whole s hs) := by
  unfold typeWith TypeExpr.readWith
  refine (follows_branch hn whole s hs hfuel).bind fun ⟨first, r₁, h₁⟩ _ => ?_
  cases whole with
  | false => exact .pure rfl
  | true =>
    have hr₁ : r₁.length < n := by omega
    have hfuel₁ : r₁.length < fuel := by omega
    refine .after (takes_peek .bar) ?_
    dsimp only [valueAndRest]
    rcases hbar : Token.mark? .bar r₁ with _ | r
    · have hnone : TypeExpr.readBranches reader r₁ hr₁ = .ok ([], ⟨r₁, Nat.le_refl _⟩) := by
        rw [TypeExpr.readBranches, hbar]
        rfl
      rw [if_pos rfl, hnone, ok_bind]
      exact (follows_clauses hn first r₁ _).passedOn fun ⟨_, _, _⟩ => ⟨_, rfl, rfl⟩
    · refine (follows_branches hn r₁ hr₁ hfuel₁).bind fun ⟨others, r₂, h₂⟩ hothers => ?_
      obtain ⟨other, others, rfl⟩ :=
        List.exists_cons_of_ne_nil (ne_nil_of_readBranches hbar hothers)
      exact (follows_clauses hn _ r₂ _).passedOn fun ⟨_, _, _⟩ => ⟨_, rfl, rfl⟩

end

/-- A type is read with a cursor as it is read off the text that is left, if there is more fuel than
text. -/
theorem follows_type (passage : Passage) (path : List Rule) (whole : Bool) (s : Text) {fuel : Nat}
    (hfuel : s.length < fuel) :
    Follows passage valueAndRest s (type fuel path whole) (TypeExpr.read path whole s) := by
  induction fuel generalizing path whole s with
  | zero => exact absurd hfuel (Nat.not_lt_zero _)
  | succ fuel ih =>
    rw [type, TypeExpr.read]
    exact follows_typeWith (fun rule whole r hr => ih _ whole r (by omega)) whole s _ hfuel

/-- A run with a cursor ends as `TypeExpr.parse` does. -/
theorem parse_eq (location text : Text) {fuel : Nat} (hfuel : text.length < fuel) :
    parse fuel location text = (TypeExpr.parse location text).mapError .failed := by
  have hat := Cursor.at_start location text
  have hfollows := follows_type ⟨location, text⟩ [] true text hfuel
  -- The rest begins where the last token ends, not where the cursor stands, so it is cut off at the
  -- end of the type as the reader saw it.
  rw [parse, StateT.run'_eq, TypeExpr.parse]
  cases hread : TypeExpr.read [] true text with
  | ok b =>
    obtain ⟨type, r, h⟩ := b
    obtain ⟨c, t, hat', hrun⟩ := hfollows.takes _ hread _ _ hat
    obtain ⟨before, htext, hstop⟩ := hat'.exists_stop
    have hparsed : Runs ⟨location, text⟩ ⟨0, 0⟩ (parsed fuel)
        ⟨type, r.dropWhile fun c => c == ' ' || c == '\t'⟩ c := by
      refine hrun.bind (runs_get.bind (runs_read.bind ?_))
      dsimp only [valueAndRest] at htext ⊢
      rw [htext, hstop]
      exact (runs_cut before r).bind (runs_pure _)
    rw [hparsed]
    rfl
  | error f =>
    obtain ⟨-, hfails⟩ := hfollows.stops f hread _ _ hat
    have hparsed : Fails ⟨location, text⟩ ⟨0, 0⟩ (parsed fuel) (f.report location text) :=
      hfails.bind
    rw [hparsed]
    rfl

end CursorM

/-! ## Errors -/

/-- An error at the border of two parts of a text. -/
structure ParseError.PointsAt (location before rest : Text) (e : ParseError) : Prop where
  offset : e.offset = byteSize before
  skipped : ∀ c ∈ rest.head?, Token.isLayout c = false
  excerpt : e.excerpt = if rest = [] then "<eol>".toList else rest.take 25
  path : ∃ rules : List Rule, e.path = ['.'].intercalate (location :: rules.map Rule.label)
  quoted : e.cause = .unterminated → ∃ quote : Quote, rest.head? = some quote.char

/-- The excerpt of an error as its cases. -/
theorem ParseError.excerptOf_eq (t : Text) :
    excerptOf t = if t = [] then "<eol>".toList else t.take 25 := by
  cases t with
  | nil => rfl
  | cons c t => rfl

/-- A failure in a text is reported as an error that points into the text. -/
theorem ParseFailure.IsIn.report {text : Text} {f : ParseFailure} (h : f.IsIn text)
    (location : Text) :
    ∃ before rest, text = before ++ rest ∧
      (f.report location text).PointsAt location before rest := by
  obtain ⟨before, htext⟩ := h.suffix
  refine ⟨before, f.rest, htext.symm, ?_, ?_, ?_, ⟨f.path, rfl⟩, h.quoted⟩
  · rw [ParseFailure.report, ← htext, byteSize_append, Nat.add_sub_cancel]
  · intro c hc
    have hhead := List.head?_dropWhile_not Token.isLayout f.rest
    rw [show f.rest.dropWhile Token.isLayout = f.rest from h.skipped, Option.mem_def.1 hc] at hhead
    simpa using hhead
  · exact ParseError.excerptOf_eq f.rest

namespace TypeExpr

/-- Reading a type is safe, and its errors point into the text. With a cursor in the text, where
every slice and every move of the cursor has to be between characters, the run ends, and it gives
what `parse` gives. -/
theorem parse_safe (location text : Text) :
    (∀ fuel, text.length < fuel →
      CursorM.parse fuel location text = (parse location text).mapError .failed) ∧
    ∀ e, parse location text = .error e →
      ∃ before rest, text = before ++ rest ∧ e.PointsAt location before rest := by
  refine ⟨fun fuel hfuel => CursorM.parse_eq location text hfuel, fun e he => ?_⟩
  rw [parse] at he
  split at he
  · exact nomatch he
  · next f hread =>
    cases he
    have hat := Cursor.at_start location text
    have hfollows := CursorM.follows_type ⟨location, text⟩ [] true text (Nat.lt_succ_self _)
    exact (hfollows.stops f hread _ _ hat).1.report location

/-- The quote that is never closed stands behind a character of two bytes and a bar. -/
theorem parse_safe_unterminated :
    let text := "é|'x".toList
    let e : ParseError := ⟨.unterminated, 3, "@var.union".toList, "'x".toList⟩
    parse "@var".toList text = .error e ∧
      CursorM.parse 5 "@var".toList text = .error (.failed e) ∧
      ∃ before rest, text = before ++ rest ∧ e.PointsAt "@var".toList before rest := by
  intro text e
  have hparsed : parse "@var".toList text = .error e := by
    with_unfolding_all rfl
  obtain ⟨hruns, hpoints⟩ := parse_safe "@var".toList text
  exact ⟨hparsed, (hruns 5 (by decide)).trans (congrArg _ hparsed), hpoints e hparsed⟩

end TypeExpr

end Docblock
