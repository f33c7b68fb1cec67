import Docblock.Yaml.Node
import Docblock.Yaml.TokenRow

/-!
# Documents

A text with one document: directives and a mark may stand before its node, and marks after it. A
text without a node is a document as well; its node is left out.
-/

namespace Docblock.Yaml

/-- Whether a token stands between documents. -/
def isBetween : Token → Bool
  | .directive => true
  | .documentStart => true
  | .documentEnd => true
  | _ => false

/-- The node of a document after the mark at its front, and the tokens after it. -/
def contentAfterMark? (ts : List Token) : Option (Node × List Token) :=
  if ts.head?.all isBetween then some (.empty, ts)
  else (Node.read? true false ts).map fun (node, rest) => (node, rest.1)

/-- The node of the first document, and the tokens after it. -/
def firstNode? (ts : List Token) : Option (Node × List Token) :=
  match ts with
  | [] => some (.empty, [])
  | .documentStart :: r => contentAfterMark? r
  | .directive :: r =>
    match r.dropWhile (· = .directive) with
    | .documentStart :: rest => contentAfterMark? rest
    | _ => none
  | _ => (Node.read? true false ts).map fun (node, rest) => (node, rest.1)

/-- A document: its node, and its nodes that have a number. -/
structure Document where
  root : Node
  numbered : List (Nat × Node)

namespace Document

/-- The document that a text holds. -/
def parse? (text : Text) : Option Document := do
  let (root, rest) ← firstNode? (← tokens? text)
  if rest.all (· = .documentEnd) then some ⟨root, root.numbered⟩ else none

/-- A node as it is: for a reference the last node with its number, and without its own number. -/
def resolve (d : Document) : Node → Node
  | .reference number =>
    match d.numbered.reverse.lookup number with
    | some node => node
    | none => .reference number
  | .anchored _ node => node
  | node => node

end Document

end Docblock.Yaml
