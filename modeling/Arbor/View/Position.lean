/-
Where nodes are, in the tree and in the text.

The first half says where a node sits below a root: its parent, the nodes around it, its neighbours in a sequence. Each
question is answered by one walk that ends at the node; the first place where the walk meets the node counts. The second half
finds the nodes at a position or in a range of the text. Both of its walks leave out subtrees that cannot hold a hit as long as
children lie within the ranges of their parents.
-/
import Arbor.View.Search

namespace Arbor

/-! ## In the tree -/

/-- the other nodes of the sequence that a parent holds in a field -/
def Tree.neighbours (t : Tree) (parent : NodeId) (field : String) (target : NodeId) : List NodeId :=
  match t.nodes[parent]?.bind fun n => t.slotOf? n field with
  | some (.sequence items) => items.reduceOption.filter fun id => id != target
  | _ => []

namespace View

/-- the place where the walk first meets the target -/
def locate (v : View) (root : Option NodeId) (target : NodeId) : Except Fault (Option Context) :=
  v.walkPath root (fun ref ctx found => if ref.id = target then (.stop, some ctx) else (.descend, found)) none

/-- the parent of a node; none for the root and for a node that is not below it -/
def parentOf (v : View) (root : Option NodeId) (target : NodeId) : Except Fault (Option NodeId) := do
  let place ← v.locate root target
  return place.bind Context.parent?

/-- the nodes around a node, the root first; none for the root and for a node that is not below it -/
def ancestorsOf (v : View) (root : Option NodeId) (target : NodeId) : Except Fault (List NodeId) := do
  let place ← v.locate root target
  return (place.map fun ctx => ctx.ancestors.toList).getD []

/-- the other children in the sequence that holds a node; none if no sequence holds it -/
def siblingsOf (v : View) (root : Option NodeId) (target : NodeId) : Except Fault (List NodeId) := do
  match ← v.locate root target with
  | none => return []
  | some ctx =>
    match ctx.parent?, ctx.field, ctx.index with
    | some parent, some field, some _ => return v.tree.neighbours parent field target
    | _, _, _ => return []

/-- the node is the root or lies below it -/
def contains (v : View) (root : Option NodeId) (target : NodeId) : Except Fault Bool := do
  let found ← v.findFirst root fun ref => ref.id == target
  return found.isSome

/-- number of levels between the root and a node; none for a node that is not below it -/
def depth (v : View) (root : Option NodeId) (target : NodeId) : Except Fault (Option Nat) := do
  let place ← v.locate root target
  return place.map Context.depth

/-! ## In the text -/

/-- the last visited node that covers the position, which is the innermost one where ranges nest -/
def deepestAt (v : View) (root : Option NodeId) (pos : Nat) : Except Fault (Option NodeId) :=
  v.walk root (fun ref deepest =>
    if pos < ref.node.span.start then (.skip, deepest)
    else (.descend, if ref.node.span.covers pos then some ref.id else deepest)) none

/-- every node that overlaps the range between two positions and is reached through nodes that do so -/
def overlapping (v : View) (root : Option NodeId) (start stop : Nat) : Except Fault (List NodeId) := do
  let range := Span.of start stop
  let found ← v.walk root (fun ref (found : Array NodeId) =>
    if ref.node.span.overlaps range then (.descend, found.push ref.id) else (.skip, found)) #[]
  return found.toList

end View

end Arbor
