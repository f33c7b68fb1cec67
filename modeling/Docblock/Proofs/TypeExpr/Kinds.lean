import Docblock.Proofs.TypeExpr.Shape

/-!
# The kinds of trees that stand in a tree that was read

A tree that was read never shows some kinds of trees at some places: no union is a branch of a
union, no conditional is the type of a tag, only an argument of a generic type has a modifier, and
so on. `TypeExpr.Regular` says for one node what stands directly in it, and `TypeExpr.Avoids` what a
type and the results of callables that end it may be.

The law is `parse_regular`: every node of a tree that was read is regular, at every depth. It
follows from the trees alone (`WellFormed`), node by node, since what stands in a well-formed tree
is well-formed again, or an argument with a modifier (`TypeExpr.Sound`).

Square brackets are where one may expect too much: the member of a constant takes those that follow
it, and then parentheses find the constant itself for their callee (`parse_constant_callee`).

The law says what cannot be there; that everything else can is not claimed. It is about trees that
were read, before they are arranged: expansion makes unions of one branch and unions in unions,
which are no readings of any text.
-/

namespace Docblock

/-- Whether an entry is marked as one that may be missing. -/
def ShapeEntry.isOptional : ShapeEntry → Bool
  | .positional _ => false
  | .keyed _ isOptional _ => isOptional

/-- The types of an entry: its key, if it has one, and its value. -/
def ShapeEntry.types (e : ShapeEntry) : List TypeExpr := e.key?.toList ++ [e.value]

namespace TypeExpr

/-! ## Kinds and nodes -/

/-- The kinds of trees, one for each way to build one. -/
inductive Kind where
  | nullable
  | named
  | generic
  | constant
  | shape
  | record
  | sequence
  | arrayOf
  | union
  | callable
  | literal
  | group
  | conditional
  | ellipsis
  | qualified
deriving DecidableEq

/-- The kind of a tree. -/
def kind : TypeExpr → Kind
  | .nullable _ => .nullable
  | .named _ => .named
  | .generic .. => .generic
  | .constant .. => .constant
  | .shape _ => .shape
  | .record .. => .record
  | .sequence .. => .sequence
  | .arrayOf _ => .arrayOf
  | .union _ => .union
  | .callable .. => .callable
  | .literal .. => .literal
  | .group _ => .group
  | .conditional .. => .conditional
  | .ellipsis => .ellipsis
  | .qualified .. => .qualified

/-- The arguments of a generic type. -/
def arguments : TypeExpr → List TypeExpr
  | .generic _ arguments => arguments
  | _ => []

/-- The trees that stand directly in a tree, other than as the argument of a generic type. -/
def operands : TypeExpr → List TypeExpr
  | .nullable inner => [inner]
  | .named _ => []
  | .generic base _ => [base]
  | .constant owner member => [owner, member]
  | .shape entries => entries.flatMap ShapeEntry.types
  | .record key value => [key, value]
  | .sequence _ item => [item]
  | .arrayOf item => [item]
  | .union branches => branches
  | .callable callee parameters result => [callee] ++ parameters.map Parameter.type ++ [result]
  | .literal _ _ => []
  | .group inner => [inner]
  | .conditional subject bound consequent alternative => [subject, bound, consequent, alternative]
  | .ellipsis => []
  | .qualified modifier target => [modifier, target]

/-- The first tree stands in the second, at some depth. -/
inductive Within : TypeExpr → TypeExpr → Prop
  | self (t : TypeExpr) : Within t t
  | operand {u c t : TypeExpr} : c ∈ t.operands → Within u c → Within u t
  | argument {u a t : TypeExpr} : a ∈ t.arguments → Within u a → Within u t

/-- Neither a tree nor a type that is reached from it through the results of callables alone is of
one of the kinds. -/
def Avoids (kinds : List Kind) : TypeExpr → Prop
  | .callable _ _ result => Kind.callable ∉ kinds ∧ Avoids kinds result
  | t => t.kind ∉ kinds

/-- Whether square brackets stand at the right end of a type, behind the last branch that was read.
-/
def endsInBrackets : TypeExpr → Bool
  | .arrayOf _ => true
  | .nullable inner => endsInBrackets inner
  | .callable _ _ result => endsInBrackets result
  | _ => false

/-- What may stand directly in a node, by the kind of the node. -/
def Regular : TypeExpr → Prop
  | .nullable inner => Avoids [.union, .conditional, .qualified] inner
  | .constant _ member => Avoids [.union, .conditional, .qualified] member
  | .union branches =>
    2 ≤ branches.length ∧ (∀ b ∈ branches, Avoids [.union, .conditional, .qualified] b) ∧
      ∀ b ∈ branches.head?, b.kind ≠ .callable
  | .arrayOf item =>
    item.kind ∉ [.nullable, .union, .conditional, .callable, .constant, .qualified]
  | .callable callee _ _ =>
    callee.kind ∉ [.nullable, .union, .conditional, .callable, .arrayOf, .qualified] ∧
      ∀ owner member, callee = .constant owner member → member.endsInBrackets = true
  | .generic base arguments =>
    (∃ name, base = .named name ∧ name ≠ SequenceKind.array.word ∧ name ≠ SequenceKind.list.word) ∧
      arguments ≠ []
  | .qualified modifier _ => modifier.kind = .named
  | .shape entries => ∀ e ∈ entries, e.isOptional = true → e.isKeyed = true
  | _ => True

/-! ## Well-formed trees -/

/-- Only an entry with a key can be optional. -/
theorem isKeyed_of_isOptional {e : ShapeEntry} (h : e.isOptional = true) : e.isKeyed = true := by
  cases e with
  | positional => exact Bool.noConfusion h
  | keyed => rfl

/-- A tree that is no callable is not of that kind. -/
theorem kind_ne_callable {t : TypeExpr} (h : t.isCallable = false) : t.kind ≠ .callable := by
  cases t with
  | callable => exact Bool.noConfusion h
  | _ => exact Kind.noConfusion

/-- Square brackets follow what ends as a primary does. -/
theorem kind_of_takesBrackets {t : TypeExpr} (h : t.takesBrackets = true) :
    t.kind ∉ [.nullable, .union, .conditional, .callable, .constant, .qualified] := by
  cases t with
  | nullable | constant | union | callable | conditional | qualified => exact Bool.noConfusion h
  | _ => simp [kind]

/-- A primary is of none of the kinds that are built around one. -/
theorem kind_of_isPrimary {t : TypeExpr} (h : t.isPrimary = true) :
    t.kind ∉ [.nullable, .union, .conditional, .callable, .arrayOf, .qualified] := by
  cases t with
  | nullable | arrayOf | union | callable | conditional | qualified => exact Bool.noConfusion h
  | _ => simp [kind]

end TypeExpr

open TypeExpr

variable {place : TypePlace} {t : TypeExpr}

/-- A type that was read has no modifier. -/
theorem WellFormed.kind_ne_qualified (h : WellFormed place t) : t.kind ≠ .qualified := by
  cases h <;> exact Kind.noConfusion

/-- A type that is no branch may be a union, and one behind which clauses are read a conditional. -/
theorem WellFormed.avoids {kinds : List Kind} (h : WellFormed place t)
    (hkinds : kinds ⊆ [.union, .conditional, .qualified])
    (hunion : .union ∈ kinds → place = .branch) (hconditional : place ≠ .inner) :
    Avoids kinds t := by
  have hother (k : Kind) (hk : k ∉ [.union, .conditional, .qualified]) : k ∉ kinds :=
    fun hmem => hk (hkinds hmem)
  induction h with
  | union hplace => exact fun hmem => hplace (hunion hmem)
  | callable _ _ _ _ _ _ _ _ ih => exact ⟨hother _ (by simp), ih hunion hconditional⟩
  | conditional => exact absurd rfl hconditional
  | _ => exact hother _ (by simp [kind])

/-- A branch is no union, no conditional and has no modifier, and neither is what its result ends
with. -/
theorem WellFormed.avoids_of_branch (h : WellFormed .branch t) :
    Avoids [.union, .conditional, .qualified] t :=
  h.avoids (List.Subset.refl _) (fun _ => rfl) TypePlace.noConfusion

/-- Only square brackets keep a branch from taking the parentheses that follow it. -/
theorem WellFormed.endsInBrackets (h : WellFormed .branch t) (hopen : .openParen ∉ t.openMarks) :
    t.endsInBrackets = true := by
  generalize hplace : TypePlace.branch = place at h
  induction h with
  | arrayOf => rfl
  | nullable _ ih => exact ih hopen rfl
  | callable _ _ _ _ _ _ _ _ ih => exact ih hopen hplace
  | union hne => exact absurd hplace.symm hne
  | conditional => exact TypePlace.noConfusion hplace
  | _ => exact absurd (by simp [openMarks]) hopen

/-- In a well-formed tree the root is regular. -/
theorem WellFormed.regular (h : WellFormed place t) : t.Regular := by
  cases h with
  | nullable hinner => exact hinner.avoids_of_branch
  | constant _ _ hmember => exact hmember.avoids_of_branch
  | union _ hlength hbranches hfirst =>
    exact ⟨hlength, fun b hb => (hbranches b hb).avoids_of_branch,
      fun b hb => kind_ne_callable (hfirst b hb)⟩
  | arrayOf htakes => exact kind_of_takesBrackets htakes
  | callable hprimary hopen hcallee =>
    refine ⟨kind_of_isPrimary hprimary, ?_⟩
    rintro owner member rfl
    cases hcallee with
    | constant _ _ hmember => exact hmember.endsInBrackets hopen
  | generic _ harray hlist hne => exact ⟨⟨_, rfl, harray, hlist⟩, hne⟩
  | shape => exact fun e _ he => isKeyed_of_isOptional he
  | _ => trivial

/-- What stands directly in a well-formed tree is well-formed at some place. -/
theorem WellFormed.operands (h : WellFormed place t) :
    ∀ c ∈ t.operands, ∃ place', WellFormed place' c := by
  cases h with
  | nullable hinner => exact List.forall_mem_singleton.2 ⟨_, hinner⟩
  | named => exact List.forall_mem_nil _
  | generic hname => exact List.forall_mem_singleton.2 ⟨.inner, .named hname⟩
  | constant _ howner hmember =>
    exact List.forall_mem_cons.2 ⟨⟨_, howner⟩, List.forall_mem_singleton.2 ⟨_, hmember⟩⟩
  | shape hvalue hkey =>
    intro c hc
    obtain ⟨e, he, hc⟩ := List.mem_flatMap.1 hc
    rcases List.mem_append.1 hc with hc | hc
    · exact ⟨_, hkey e he c (Option.mem_toList.1 hc)⟩
    · exact ⟨_, List.mem_singleton.1 hc ▸ hvalue e he⟩
  | record hkey hvalue =>
    exact List.forall_mem_cons.2 ⟨⟨_, hkey⟩, List.forall_mem_singleton.2 ⟨_, hvalue⟩⟩
  | sequence hitem => exact List.forall_mem_singleton.2 ⟨_, hitem⟩
  | arrayOf _ hitem => exact List.forall_mem_singleton.2 ⟨_, hitem⟩
  | union _ _ hbranches => exact fun b hb => ⟨_, hbranches b hb⟩
  | callable _ _ hcallee htypes _ hresult =>
    unfold TypeExpr.operands
    rw [List.forall_mem_append, List.forall_mem_append, List.forall_mem_singleton,
      List.forall_mem_singleton, List.forall_mem_map]
    exact ⟨⟨⟨_, hcallee⟩, fun p hp => ⟨_, htypes p hp⟩⟩, _, hresult⟩
  | literal => exact List.forall_mem_nil _
  | group hinner => exact List.forall_mem_singleton.2 ⟨_, hinner⟩
  | conditional _ _ hsubject hbound hconsequent halternative =>
    unfold TypeExpr.operands
    simp only [List.forall_mem_cons]
    exact ⟨⟨_, hsubject⟩, ⟨_, hbound⟩, ⟨_, hconsequent⟩, ⟨_, halternative⟩, List.forall_mem_nil _⟩
  | ellipsis => exact List.forall_mem_nil _

/-! ## Every node -/

/-- A tree that was read somewhere: a well-formed one, perhaps behind a modifier. -/
structure TypeExpr.Sound (t : TypeExpr) : Prop where
  wellFormed : ∃ place, WellFormed place t.target
  qualifiesWell : t.QualifiesWell

/-- A well-formed tree is sound. -/
theorem WellFormed.sound (h : WellFormed place t) : t.Sound := by
  obtain ⟨htarget, hqualifies⟩ := h.target_eq
  exact ⟨⟨place, htarget.symm ▸ h⟩, hqualifies⟩

namespace TypeExpr

/-- A sound tree is well-formed or has a modifier. -/
theorem Sound.cases (h : t.Sound) : (∃ place, WellFormed place t) ∨
    ∃ name target, t = .qualified (.named name) target ∧ Token.IsName name ∧
      ∃ place, WellFormed place target := by
  cases t with
  | qualified modifier target =>
    obtain ⟨⟨name, rfl, hname⟩, -⟩ := h.qualifiesWell
    exact .inr ⟨name, target, rfl, hname, h.wellFormed⟩
  | _ => exact .inl h.wellFormed

/-- In a sound tree the root is regular. -/
theorem Sound.regular (h : t.Sound) : t.Regular := by
  obtain ⟨place, h⟩ | ⟨name, target, rfl, -, -⟩ := h.cases
  · exact h.regular
  · rfl

/-- What stands directly in a sound tree is sound, and no modifier is left in it. -/
theorem Sound.operands (h : t.Sound) : ∀ c ∈ t.operands, c.Sound ∧ c.kind ≠ .qualified := by
  have hwf : ∀ c ∈ t.operands, ∃ place, WellFormed place c := by
    obtain ⟨place, h⟩ | ⟨name, target, rfl, hname, htarget⟩ := h.cases
    · exact h.operands
    · exact List.forall_mem_cons.2 ⟨⟨.inner, .named hname⟩, List.forall_mem_singleton.2 htarget⟩
  intro c hc
  obtain ⟨place, h⟩ := hwf c hc
  exact ⟨h.sound, h.kind_ne_qualified⟩

/-- The arguments of a sound tree are sound, with their modifiers. -/
theorem Sound.arguments (h : t.Sound) : ∀ a ∈ t.arguments, a.Sound := by
  obtain ⟨place, h⟩ | ⟨name, target, rfl, -, -⟩ := h.cases
  · cases h with
    | generic _ _ _ _ hwf hqualifies => exact fun a ha => ⟨⟨_, hwf a ha⟩, hqualifies a ha⟩
    | _ => exact List.forall_mem_nil _
  · exact List.forall_mem_nil _

/-- What stands in a sound tree is sound. -/
theorem Sound.within {u : TypeExpr} (hwithin : Within u t) (h : t.Sound) : u.Sound := by
  induction hwithin with
  | self => exact h
  | operand hc _ ih => exact ih (h.operands _ hc).1
  | argument ha _ ih => exact ih (h.arguments _ ha)

end TypeExpr

/-- A type that was read is not a conditional and does not end in one through the results of
callables; and each node in it, at every depth, is regular and holds a tree with a modifier at most
among the arguments of a generic type. -/
theorem parse_regular {location text rest : Text} {t : TypeExpr}
    (h : parse location text = .ok ⟨t, rest⟩) :
    Avoids [.conditional, .qualified] t ∧
      ∀ u, Within u t → u.Regular ∧ ∀ c ∈ u.operands, c.kind ≠ .qualified := by
  obtain ⟨r, hreads, -⟩ := parse_eq_ok_iff.1 h
  have hwf : WellFormed .top t := hreads.shaped.1
  refine ⟨hwf.avoids (List.subset_cons_self _ _) (fun hmem => ?_) TypePlace.noConfusion, ?_⟩
  · simp at hmem
  · intro u hu
    have hsound : u.Sound := hwf.sound.within hu
    exact ⟨hsound.regular, fun c hc => (hsound.operands c hc).2⟩

/-- A union of a nullable type, a callable whose callee is a constant, and a shape. -/
theorem parse_regular_union :
    let qualified : TypeExpr := .qualified (.named "covariant".toList) (.named "B".toList)
    let generic : TypeExpr := .generic (.named "A".toList) [qualified]
    let callee : TypeExpr := .constant (.named "C".toList) (.arrayOf (.named "D".toList))
    let call : TypeExpr := .callable callee [] (.named "int".toList)
    let shape : TypeExpr := .shape [.keyed (.named "e".toList) true (.named "F".toList)]
    let t : TypeExpr := .union [.nullable generic, call, shape]
    parse [] "?A<covariant B>|C::D[](): int|array\x7be?: F\x7d".toList = .ok ⟨t, []⟩ ∧
      Avoids [.conditional, .qualified] t ∧
      ∀ u, Within u t → u.Regular ∧ ∀ c ∈ u.operands, c.kind ≠ .qualified := by
  intro qualified generic callee call shape t
  have hparsed : parse [] "?A<covariant B>|C::D[](): int|array\x7be?: F\x7d".toList =
      .ok ⟨t, []⟩ := by with_unfolding_all rfl
  exact ⟨hparsed, parse_regular hparsed⟩

/-- The member of a constant takes the square brackets, so the parentheses behind them follow the
constant. -/
theorem parse_constant_callee :
    let callee : TypeExpr := .constant (.named "A".toList) (.arrayOf (.named "B".toList))
    parse [] "A::B[](): int".toList = .ok ⟨.callable callee [] (.named "int".toList), []⟩ ∧
      callee.kind = .constant := by
  intro callee
  have hparsed : parse [] "A::B[](): int".toList =
      .ok ⟨.callable callee [] (.named "int".toList), []⟩ := by with_unfolding_all rfl
  exact ⟨hparsed, rfl⟩

end Docblock
