/-
Arena-allocated trees. Nodes are stored in a flat array and addressed by their position. A node has a kind, a source
range, child slots under field names and scalar attributes; kinds and names are symbols of the tree's name list. Which
slots are visited, and in which order, is decided by a schema and not by the tree.

A tree is plain data, and reading it with an id or a symbol that it does not have is a fault.
-/
import Arbor.Lookup
import Arbor.Names
import Arbor.Number.Decimal
import Arbor.Span
import Arbor.Text.Style

namespace Arbor

/-- position of a node in its arena -/
abbrev NodeId := Nat

/-- the children under one field name -/
inductive Slot where
  /-- exactly one child -/
  | node (id : NodeId)
  /-- one child or none -/
  | optional (id : Option NodeId)
  /-- children in order; a hole is a place without a child -/
  | sequence (items : List (Option NodeId))
  deriving DecidableEq, Repr, Inhabited

namespace Slot

/-- the children that are there, each with its place if the slot is a sequence; holes count as places -/
def children : Slot → List (Option Nat × NodeId)
  | .node id => [(none, id)]
  | .optional id => id.toList.map fun id => (none, id)
  | .sequence items => items.zipIdx.filterMap fun (item, i) => item.map fun id => (some i, id)

/-- the slot holds a sequence -/
def isSequence : Slot → Bool
  | .sequence _ => true
  | _ => false

end Slot

/-- an attribute value -/
inductive Scalar where
  | null
  | bool (b : Bool)
  | number (x : Binary64)
  | string (s : String)
  deriving DecidableEq, Repr, Inhabited

namespace Scalar

/-- the value as it is printed; strings are quoted -/
def text : Scalar → String
  | .null => "null"
  | .bool b => if b then "true" else "false"
  | .number x => x.text
  | .string s => Text.quoted s

/-- the text of a string -/
def asString? : Scalar → Option String
  | .string s => some s
  | _ => none

end Scalar

/-- what the arena stores of a node -/
structure Node where
  kind : Symbol
  span : Span
  slots : Keyed Symbol Slot
  attrs : Keyed Symbol Scalar
  deriving DecidableEq, Repr, Inhabited

/-- a finished tree; without a root it is a tree in which nothing is visited -/
structure Tree where
  names : Names
  nodes : Array Node
  root : Option NodeId
  deriving DecidableEq, Repr, Inhabited

/-- a node as readers of the tree see it: its id, the text of its kind and what the arena stores of it -/
structure NodeRef where
  id : NodeId
  kind : String
  node : Node
  deriving DecidableEq, Repr, Inhabited

instance : HasSpan NodeRef := ⟨fun ref => ref.node.span⟩

/-- how an id is printed -/
def idText (id : NodeId) : String := s!"#{id}"

/-- how a node is printed, `Identifier#3@4..5` -/
def NodeRef.text (ref : NodeRef) : String := s!"{ref.kind}{idText ref.id}@{ref.node.span.text}"

namespace Tree

/-- number of nodes in the arena, whether they are visited or not -/
def size (t : Tree) : Nat := t.nodes.size

/-- the arena has no node -/
def isEmpty (t : Tree) : Bool := t.nodes.isEmpty

/-- the id is one of the arena's -/
def has (t : Tree) (id : NodeId) : Bool := id < t.nodes.size

/-- every id of the arena, in order of allocation -/
def ids (t : Tree) : List NodeId := List.range t.nodes.size

/-- what the arena stores under an id -/
def node (t : Tree) (id : NodeId) : Except Fault Node :=
  match t.nodes[id]? with
  | some n => .ok n
  | none => .error (.missingNode id t.nodes.size)

/-- the node of an id with the text of its kind -/
def ref (t : Tree) (id : NodeId) : Except Fault NodeRef := do
  let n ← t.node id
  let kind ← t.names.resolve n.kind
  return ⟨id, kind, n⟩

/-- the kind of a node -/
def kind (t : Tree) (id : NodeId) : Except Fault String := do
  let n ← t.node id
  t.names.resolve n.kind

/-- the source range of a node -/
def span (t : Tree) (id : NodeId) : Except Fault Span := do
  let n ← t.node id
  return n.span

/-- the slot that a node has under a field name -/
def slotOf? (t : Tree) (n : Node) (field : String) : Option Slot :=
  (t.names.find? field).bind fun symbol => n.slots.get? symbol

/-- the attribute that a node has under a name -/
def attrOf? (t : Tree) (n : Node) (name : String) : Option Scalar :=
  (t.names.find? name).bind fun symbol => n.attrs.get? symbol

/-- the slot of a node under a field name, if it has one -/
def slot (t : Tree) (id : NodeId) (field : String) : Except Fault (Option Slot) := do
  let n ← t.node id
  return t.slotOf? n field

/-- the attribute of a node under a name, if it has one -/
def attr (t : Tree) (id : NodeId) (name : String) : Except Fault (Option Scalar) := do
  let n ← t.node id
  return t.attrOf? n name

/-- entries with the texts of their names -/
def named {ν : Type} (t : Tree) : Keyed Symbol ν → Except Fault (List (String × ν))
  | [] => .ok []
  | (symbol, v) :: rest => do
    let name ← t.names.resolve symbol
    let rest ← t.named rest
    return (name, v) :: rest

/-- all slots of a node, in order of first write -/
def slots (t : Tree) (id : NodeId) : Except Fault (List (String × Slot)) := do
  let n ← t.node id
  t.named n.slots

/-- all attributes of a node, in order of first write -/
def attrs (t : Tree) (id : NodeId) : Except Fault (List (String × Scalar)) := do
  let n ← t.node id
  t.named n.attrs

end Tree

end Arbor
