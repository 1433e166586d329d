/-
A side table of parents. The tree stores no way up; the index records for every node that is reached from one root the
slot that holds it, and answers the questions about where a node sits without walking again. A node that is reached more
than once is recorded where it was reached last.
-/
import Arbor.View.Position

namespace Arbor

/-- the slot that holds a node -/
structure Link where
  parent : NodeId
  field : String
  index : Option Nat
  deriving DecidableEq, Repr, Inhabited

/-- what the index records of a node -/
structure IndexEntry where
  link : Option Link
  depth : Nat
  deriving DecidableEq, Repr, Inhabited

/-- where the nodes below one root sit -/
structure ParentIndex where
  tree : Tree
  root : Option NodeId
  /-- one place for each node of the arena, empty for nodes that are not reached -/
  entries : Array (Option IndexEntry)
  /-- number of nodes that are reached -/
  size : Nat
  deriving DecidableEq, Repr

namespace ParentIndex

/-- the link of a node that was visited in the given context -/
def linkOf (ctx : Context) : Option Link :=
  match ctx.parent?, ctx.field with
  | some parent, some field => some ⟨parent, field, ctx.index⟩
  | _, _ => none

/-- record a visit -/
def record (index : ParentIndex) (id : NodeId) (ctx : Context) : ParentIndex :=
  { index with
    entries := index.entries.setIfInBounds id (some ⟨linkOf ctx, ctx.depth⟩)
    size := if (index.entries[id]?.getD none).isNone then index.size + 1 else index.size }

/-- no node is reached -/
def isEmpty (index : ParentIndex) : Bool := index.size == 0

/-- what is recorded of a node -/
def entry? (index : ParentIndex) (id : NodeId) : Option IndexEntry := index.entries[id]?.getD none

/-- the node is reached -/
def contains (index : ParentIndex) (id : NodeId) : Bool := (index.entry? id).isSome

/-- the slot that holds a node -/
def link? (index : ParentIndex) (id : NodeId) : Option Link := (index.entry? id).bind IndexEntry.link

/-- the parent of a node -/
def parent? (index : ParentIndex) (id : NodeId) : Option NodeId := (index.link? id).map Link.parent

/-- number of levels above a node -/
def depth? (index : ParentIndex) (id : NodeId) : Option Nat := (index.entry? id).map IndexEntry.depth

/-- go up from a node, at most `fuel` levels, and put what is found before `below` -/
def climb (index : ParentIndex) : Nat → Option NodeId → List NodeId → List NodeId
  | _, none, below => below
  | 0, some _, below => below
  | fuel + 1, some id, below => index.climb fuel (index.parent? id) (id :: below)

/-- the nodes around a node, the root first; no way up is longer than the arena -/
def ancestors (index : ParentIndex) (id : NodeId) : List NodeId :=
  index.climb index.entries.size (index.parent? id) []

/-- the other children in the sequence that holds a node -/
def siblings (index : ParentIndex) (id : NodeId) : List NodeId :=
  match index.link? id with
  | some ⟨parent, field, some _⟩ => index.tree.neighbours parent field id
  | _ => []

end ParentIndex

/-- the index of everything below the root -/
def View.parentIndex (v : View) (root : Option NodeId) : Except Fault ParentIndex :=
  v.walkPath root (fun ref ctx index => (.descend, ParentIndex.record index ref.id ctx))
    ⟨v.tree, root, Array.replicate v.tree.size none, 0⟩

end Arbor
