/-
Building a tree node by node. Nodes are allocated first and put into slots of their parents afterwards, so trees can be
built from the top or from the bottom. Nobody checks that a node sits in one slot only.

An operation that names a node which is not allocated is a fault. The children are looked at first, then the field or
attribute name is interned, and only then the node itself is looked at; so a fault leaves every node as it was, but the
name may have been interned.
-/
import Arbor.Tree.Basic

namespace Arbor

/-- a tree in the making -/
structure Builder where
  names : Names
  nodes : Array Node
  deriving DecidableEq, Repr, Inhabited

namespace Builder

/-- nothing allocated yet -/
def empty : Builder := ⟨.empty, #[]⟩

/-- number of nodes so far -/
def size (b : Builder) : Nat := b.nodes.size

/-- there is no node yet -/
def isEmpty (b : Builder) : Bool := b.nodes.isEmpty

/-- allocate a node without slots or attributes -/
def node (b : Builder) (kind : String) (span : Span) : Builder × NodeId :=
  let id := b.nodes.size
  let (names, symbol) := b.names.intern kind
  (⟨names, b.nodes.push ⟨symbol, span, [], []⟩⟩, id)

/-- the fault for an id that was not handed out -/
def unallocated (b : Builder) (id : NodeId) : Fault := .unallocatedNode id b.nodes.size

/-- the first of the ids that was not handed out -/
def firstUnallocated? (b : Builder) (ids : List NodeId) : Option NodeId := ids.find? fun id => b.nodes.size ≤ id

/-- intern a name, then change the node that an entry of that name belongs to -/
def amend (b : Builder) (id : NodeId) (name : String) (change : Symbol → Node → Node) : Builder × Except Fault Unit :=
  let (names, symbol) := b.names.intern name
  if id < b.nodes.size then (⟨names, b.nodes.modify id (change symbol)⟩, .ok ())
  else (⟨names, b.nodes⟩, .error (b.unallocated id))

/-- intern a name and change a node, provided that the children to be put there are allocated -/
def amendWith (b : Builder) (children : List NodeId) (id : NodeId) (name : String) (change : Symbol → Node → Node) :
    Builder × Except Fault Unit :=
  match b.firstUnallocated? children with
  | some child => (b, .error (b.unallocated child))
  | none => b.amend id name change

/-- write a slot, whatever was there -/
def setSlot (b : Builder) (parent : NodeId) (field : String) (slot : Slot) : Builder × Except Fault Unit :=
  b.amendWith (slot.children.map Prod.snd) parent field fun symbol n => { n with slots := n.slots.put symbol slot }

/-- write a slot with exactly one child -/
def setChild (b : Builder) (parent : NodeId) (field : String) (child : NodeId) : Builder × Except Fault Unit :=
  b.setSlot parent field (.node child)

/-- write a slot with one child or none -/
def setOptional (b : Builder) (parent : NodeId) (field : String) (child : Option NodeId) :
    Builder × Except Fault Unit :=
  b.setSlot parent field (.optional child)

/-- write a slot with a sequence of children and holes -/
def setSequence (b : Builder) (parent : NodeId) (field : String) (items : List (Option NodeId)) :
    Builder × Except Fault Unit :=
  b.setSlot parent field (.sequence items)

/-- the slot after a child or a hole was added to it: a sequence grows, anything else becomes a sequence of one -/
def grown (child : Option NodeId) : Option Slot → Slot
  | some (.sequence items) => .sequence (items ++ [child])
  | _ => .sequence [child]

/-- add a child or a hole at the end of a sequence slot -/
def pushChild (b : Builder) (parent : NodeId) (field : String) (child : Option NodeId) : Builder × Except Fault Unit :=
  b.amendWith child.toList parent field fun symbol n => { n with slots := n.slots.alter symbol (grown child) }

/-- write an attribute, whatever was there -/
def setAttr (b : Builder) (id : NodeId) (name : String) (value : Scalar) : Builder × Except Fault Unit :=
  b.amend id name fun symbol n => { n with attrs := n.attrs.put symbol value }

/-- the tree with the given root -/
def finish (b : Builder) (root : NodeId) : Except Fault Tree :=
  if root < b.nodes.size then .ok ⟨b.names, b.nodes, some root⟩ else .error (b.unallocated root)

/-- the tree without a root -/
def finishEmpty (b : Builder) : Tree := ⟨b.names, b.nodes, none⟩

/-! ## Whole runs -/

/-- an operation on a builder -/
inductive Op where
  | node (kind : String) (span : Span)
  | setChild (parent : NodeId) (field : String) (child : NodeId)
  | setOptional (parent : NodeId) (field : String) (child : Option NodeId)
  | setSequence (parent : NodeId) (field : String) (items : List (Option NodeId))
  | pushChild (parent : NodeId) (field : String) (child : Option NodeId)
  | setAttr (id : NodeId) (name : String) (value : Scalar)
  deriving DecidableEq, Repr

/-- one operation: the builder after it, also after a fault -/
def step (b : Builder) : Op → Builder × Except Fault Unit
  | .node kind span => ((b.node kind span).1, .ok ())
  | .setChild parent field child => b.setChild parent field child
  | .setOptional parent field child => b.setOptional parent field child
  | .setSequence parent field items => b.setSequence parent field items
  | .pushChild parent field child => b.pushChild parent field child
  | .setAttr id name value => b.setAttr id name value

/-- the builder after a list of operations -/
def run (b : Builder) (ops : List Op) : Builder := ops.foldl (fun b op => (b.step op).1) b

end Builder

end Arbor
