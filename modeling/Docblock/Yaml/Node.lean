import Docblock.Text.Shorter
import Docblock.Yaml.Token

/-!
# Nodes

A document is a tree of scalars, sequences and mappings. The tree is read off the tokens. A node may
be left out where the grammar can see it: then it is a plain scalar without text.

As in the reading of types, no rule calls another in a circle: each takes the reader of a node as an
argument, which may be applied to fewer tokens than the enclosing node began with, and `Node.read?`
closes the circle.
-/

namespace Docblock.Yaml

/-- A node of a document. -/
inductive Node where
  | scalar (style : ScalarStyle) (tag : Option Text) (text : Text)
  | sequence (items : List Node)
  | mapping (entries : List (Node × Node))
  /-- A node with a number to refer to it. -/
  | anchored (number : Nat) (node : Node)
  /-- The node with a number, again. -/
  | reference (number : Nat)

namespace Node

/-- The node that stands where nothing is written. -/
def empty : Node := .scalar .plain none []

mutual

/-- The nodes inside a node that have a number, in their order. -/
def numbered : Node → List (Nat × Node)
  | .scalar .. => []
  | .reference _ => []
  | .anchored number node => (number, node) :: numbered node
  | .sequence items => numberedItems items
  | .mapping entries => numberedEntries entries

/-- The numbered nodes of several nodes. -/
def numberedItems : List Node → List (Nat × Node)
  | [] => []
  | item :: items => numbered item ++ numberedItems items

/-- The numbered nodes of the entries of a mapping. -/
def numberedEntries : List (Node × Node) → List (Nat × Node)
  | [] => []
  | (key, value) :: entries => numbered key ++ numbered value ++ numberedEntries entries

end

/-! ## Reading -/

/-- Reads a node off fewer than `n` tokens. In a `block` it may stand in lines; `indentless` says
that the items of a sequence may stand in the column of the key before them. -/
abbrev Reader (n : Nat) :=
  (block indentless : Bool) → (ts : List Token) → ts.length < n → Option (Node × Shorter ts)

/-- A node, unless one of certain tokens comes next: then it is left out. -/
def readUnless? {n : Nat} (node : Reader n) (stops : List Token) (block indentless : Bool)
    (ts : List Token) (h : ts.length < n) : Option (Node × NoLonger ts) :=
  if ts.head?.any stops.contains then some (empty, ⟨ts, Nat.le_refl _⟩)
  else do
    let ⟨value, r, hr⟩ ← node block indentless ts h
    return (value, ⟨r, Nat.le_of_lt hr⟩)

/-- The value after a key, unless there is none. -/
def readValue? {n : Nat} (node : Reader n) (stops : List Token) (block : Bool) (ts : List Token)
    (h : ts.length < n) : Option (Node × NoLonger ts) :=
  match ts with
  | .value :: r => do
    let ⟨value, r', hr⟩ ← readUnless? node stops block block r (Nat.lt_of_succ_lt h)
    return (value, ⟨r', Nat.le_succ_of_le hr⟩)
  | rest => some (empty, ⟨rest, Nat.le_refl _⟩)

/-- The items of a sequence in lines, with its end. -/
def blockItems? {n : Nat} (node : Reader n) (ts : List Token) (h : ts.length < n) :
    Option (List Node × Shorter ts) :=
  match ts with
  | .blockEntry :: r => do
    let ⟨item, r₁, h₁⟩ ←
      readUnless? node [.blockEntry, .blockEnd] true false r (Nat.lt_of_succ_lt h)
    have : r₁.length < n ∧ r₁.length < (Token.blockEntry :: r).length :=
      ⟨Nat.lt_of_le_of_lt h₁ (Nat.lt_of_succ_lt h), Nat.lt_succ_of_le h₁⟩
    let ⟨items, r₂, h₂⟩ ← blockItems? node r₁ this.1
    return (item :: items, ⟨r₂, Nat.lt_trans h₂ this.2⟩)
  | .blockEnd :: r => some ([], ⟨r, Nat.lt_succ_self _⟩)
  | _ => none
termination_by ts.length
decreasing_by exact this.2

/-- The items of a sequence in the column of the key before it; nothing marks its end. -/
def indentlessItems? {n : Nat} (node : Reader n) (ts : List Token) (h : ts.length < n) :
    Option (List Node × NoLonger ts) :=
  match ts with
  | .blockEntry :: r => do
    let ⟨item, r₁, h₁⟩ ←
      readUnless? node [.blockEntry, .key, .value, .blockEnd] true false r (Nat.lt_of_succ_lt h)
    have : r₁.length < n ∧ r₁.length < (Token.blockEntry :: r).length :=
      ⟨Nat.lt_of_le_of_lt h₁ (Nat.lt_of_succ_lt h), Nat.lt_succ_of_le h₁⟩
    let ⟨items, r₂, h₂⟩ ← indentlessItems? node r₁ this.1
    return (item :: items, ⟨r₂, Nat.le_of_lt (Nat.lt_of_le_of_lt h₂ this.2)⟩)
  | rest => some ([], ⟨rest, Nat.le_refl _⟩)
termination_by ts.length
decreasing_by exact this.2

/-- The entries of a mapping in lines, with its end. -/
def blockEntries? {n : Nat} (node : Reader n) (ts : List Token) (h : ts.length < n) :
    Option (List (Node × Node) × Shorter ts) :=
  match ts with
  | .key :: r => do
    let stops : List Token := [.key, .value, .blockEnd]
    let ⟨key, r₁, h₁⟩ ← readUnless? node stops true true r (Nat.lt_of_succ_lt h)
    have : r₁.length < n ∧ r₁.length < (Token.key :: r).length := by
      simp only [List.length_cons] at h ⊢
      omega
    let ⟨value, r₂, h₂⟩ ← readValue? node stops true r₁ this.1
    have : r₂.length < n ∧ r₂.length < (Token.key :: r).length := by omega
    let ⟨entries, r₃, h₃⟩ ← blockEntries? node r₂ this.1
    return ((key, value) :: entries, ⟨r₃, Nat.lt_trans h₃ this.2⟩)
  | .blockEnd :: r => some ([], ⟨r, Nat.lt_succ_self _⟩)
  | _ => none
termination_by ts.length

/-- A key with its value as an item between square brackets, after the token that says so. A key
that is left out takes the token with it that shows it. -/
def readPair? {n : Nat} (node : Reader n) (ts : List Token) (h : ts.length < n) :
    Option (Node × NoLonger ts) := do
  let stops : List Token := [.comma, .closing .square]
  let ⟨key, r₁, h₁⟩ : Node × NoLonger ts ←
    if ts.head?.any (.value :: stops).contains then
      some (empty, ⟨ts.drop 1, (List.drop_suffix 1 ts).length_le⟩)
    else readUnless? node [] false false ts h
  let ⟨value, r₂, h₂⟩ ← readValue? node stops false r₁ (Nat.lt_of_le_of_lt h₁ h)
  return (.mapping [(key, value)], ⟨r₂, Nat.le_trans h₂ h₁⟩)

/-- What follows an item between brackets: the closing bracket, or a comma with more items. -/
inductive After (bracket : Bracket) (ts : List Token) where
  | closed (rest : Shorter ts)
  | more (rest : Shorter ts)

/-- What follows an item between brackets. -/
def after? (bracket : Bracket) : (ts : List Token) → Option (After bracket ts)
  | .comma :: r => some (.more ⟨r, Nat.lt_succ_self _⟩)
  | .closing b :: r => if b = bracket then some (.closed ⟨r, Nat.lt_succ_self _⟩) else none
  | _ => none

/-- The items between square brackets, with the closing one. -/
def flowItems? {n : Nat} (node : Reader n) (ts : List Token) (h : ts.length < n) :
    Option (List Node × Shorter ts) :=
  match ts with
  | .closing .square :: r => some ([], ⟨r, Nat.lt_succ_self _⟩)
  | t :: r => do
    let ⟨item, r₁, h₁⟩ : Node × NoLonger (t :: r) ←
      if t = .key then do
        let ⟨pair, r₁, h₁⟩ ← readPair? node r (Nat.lt_of_succ_lt h)
        some (pair, ⟨r₁, Nat.le_succ_of_le h₁⟩)
      else readUnless? node [] false false (t :: r) h
    match ← after? .square r₁ with
    | .closed ⟨r₂, h₂⟩ => return ([item], ⟨r₂, Nat.lt_of_lt_of_le h₂ h₁⟩)
    | .more ⟨r₂, h₂⟩ =>
      have : r₂.length < (t :: r).length := Nat.lt_of_lt_of_le h₂ h₁
      let ⟨items, r₃, h₃⟩ ← flowItems? node r₂ (Nat.lt_trans this h)
      return (item :: items, ⟨r₃, Nat.lt_trans h₃ this⟩)
  | [] => none
termination_by ts.length
decreasing_by exact this

/-- The entries between braces, with the closing one. A node that is not marked as a key is one
without a value. -/
def flowEntries? {n : Nat} (node : Reader n) (ts : List Token) (h : ts.length < n) :
    Option (List (Node × Node) × Shorter ts) :=
  match ts with
  | .closing .brace :: r => some ([], ⟨r, Nat.lt_succ_self _⟩)
  | t :: r => do
    let ⟨entry, r₁, h₁⟩ : (Node × Node) × NoLonger (t :: r) ←
      if t = .key then do
        let stops : List Token := [.comma, .closing .brace]
        let ⟨key, r₁, h₁⟩ ←
          readUnless? node (.value :: stops) false false r (Nat.lt_of_succ_lt h)
        have hlt : r₁.length < n := Nat.lt_of_le_of_lt h₁ (Nat.lt_of_succ_lt h)
        let ⟨value, r₂, h₂⟩ ← readValue? node stops false r₁ hlt
        some ((key, value), ⟨r₂, Nat.le_succ_of_le (Nat.le_trans h₂ h₁)⟩)
      else do
        let ⟨key, r₁, h₁⟩ ← readUnless? node [] false false (t :: r) h
        some ((key, empty), ⟨r₁, h₁⟩)
    match ← after? .brace r₁ with
    | .closed ⟨r₂, h₂⟩ => return ([entry], ⟨r₂, Nat.lt_of_lt_of_le h₂ h₁⟩)
    | .more ⟨r₂, h₂⟩ =>
      have : r₂.length < (t :: r).length := Nat.lt_of_lt_of_le h₂ h₁
      let ⟨entries, r₃, h₃⟩ ← flowEntries? node r₂ (Nat.lt_trans this h)
      return (entry :: entries, ⟨r₃, Nat.lt_trans h₃ this⟩)
  | [] => none
termination_by ts.length
decreasing_by exact this

/-- The number and the tag of a node. -/
structure Properties where
  number : Option Nat := none
  tag : Option Text := none

/-- The properties in front of a node, in either order, and the tokens after them. -/
def properties (ts : List Token) : Properties × NoLonger ts :=
  match ts with
  | .anchor number :: .tag tag :: r =>
    (⟨some number, some tag⟩, ⟨r, Nat.le_succ_of_le (Nat.le_succ _)⟩)
  | .tag tag :: .anchor number :: r =>
    (⟨some number, some tag⟩, ⟨r, Nat.le_succ_of_le (Nat.le_succ _)⟩)
  | .anchor number :: r => (⟨some number, none⟩, ⟨r, Nat.le_succ _⟩)
  | .tag tag :: r => (⟨none, some tag⟩, ⟨r, Nat.le_succ _⟩)
  | rest => ({}, ⟨rest, Nat.le_refl _⟩)

/-- The tag of a scalar that has content: a bare exclamation mark is none. -/
def contentTag (tag : Option Text) : Option Text := tag.filter (· != ['!'])

/-- The content of a node after its properties, which comes next. -/
def content? {n : Nat} (node : Reader n) (block indentless : Bool) (tag : Option Text)
    (ts : List Token) (h : ts.length ≤ n) : Option (Node × Shorter ts) :=
  match ts with
  | .scalar style text :: r => some (.scalar style (contentTag tag) text, ⟨r, Nat.lt_succ_self _⟩)
  | .opening .square :: r => do
    let ⟨items, r₁, h₁⟩ ← flowItems? node r h
    return (.sequence items, ⟨r₁, Nat.lt_succ_of_lt h₁⟩)
  | .opening .brace :: r => do
    let ⟨entries, r₁, h₁⟩ ← flowEntries? node r h
    return (.mapping entries, ⟨r₁, Nat.lt_succ_of_lt h₁⟩)
  | .blockSequence :: r =>
    if block then do
      let ⟨items, r₁, h₁⟩ ← blockItems? node r h
      return (.sequence items, ⟨r₁, Nat.lt_succ_of_lt h₁⟩)
    else none
  | .blockMapping :: r =>
    if block then do
      let ⟨entries, r₁, h₁⟩ ← blockEntries? node r h
      return (.mapping entries, ⟨r₁, Nat.lt_succ_of_lt h₁⟩)
    else none
  | .blockEntry :: r =>
    if indentless then do
      let ⟨item, r₁, h₁⟩ ← readUnless? node [.blockEntry, .key, .value, .blockEnd] true false r h
      let ⟨items, r₂, h₂⟩ ← indentlessItems? node r₁ (Nat.lt_of_le_of_lt h₁ h)
      return (.sequence (item :: items), ⟨r₂, Nat.lt_succ_of_le (Nat.le_trans h₂ h₁)⟩)
    else none
  | _ => none

/-- A node with the number it has. -/
def withNumber (number : Option Nat) (node : Node) : Node :=
  match number with
  | some number => .anchored number node
  | none => node

/-- Whether the content of a node comes next. -/
def beginsContent (block indentless : Bool) (ts : List Token) : Bool :=
  match ts with
  | .scalar .. :: _ => true
  | .opening _ :: _ => true
  | .blockSequence :: _ => block
  | .blockMapping :: _ => block
  | .blockEntry :: _ => indentless
  | _ => false

/-- A node that is no reference, with the reader of the nodes inside it. Where properties stand the
content may be left out. -/
def readProper? {n : Nat} (node : Reader n) (block indentless : Bool) (ts : List Token)
    (h : ts.length ≤ n) : Option (Node × Shorter ts) :=
  let (⟨number, tag⟩, ⟨r, hr⟩) := properties ts
  if beginsContent block indentless r then do
    let ⟨value, r₁, h₁⟩ ← content? node block indentless tag r (Nat.le_trans hr h)
    return (withNumber number value, ⟨r₁, Nat.lt_of_lt_of_le h₁ hr⟩)
  else if hlt : r.length < ts.length then
    some (withNumber number (.scalar .plain tag []), ⟨r, hlt⟩)
  else none

/-- A node, with the reader of the nodes inside it. -/
def readWith? {n : Nat} (node : Reader n) (block indentless : Bool) (ts : List Token)
    (h : ts.length ≤ n) : Option (Node × Shorter ts) :=
  match ts with
  | .reference number :: r => some (.reference number, ⟨r, Nat.lt_succ_self _⟩)
  | rest => readProper? node block indentless rest h

/-- Reads a node off the front of the tokens. -/
def read? (block indentless : Bool) (ts : List Token) : Option (Node × Shorter ts) :=
  readWith? (n := ts.length) (fun block indentless r _ => read? block indentless r) block indentless
    ts (Nat.le_refl _)
termination_by ts.length

end Node

end Docblock.Yaml
