/-
Searching the nodes below a root in the order of the walk.
-/
import Arbor.View.Walk

namespace Arbor

/-- outcome of a search: the first hit and how many nodes were tried -/
structure Search where
  found : Option NodeId
  tried : Nat
  deriving DecidableEq, Repr, Inhabited

namespace View

/-- look for the first node that satisfies `p`; the walk ends there -/
def search (v : View) (root : Option NodeId) (p : NodeRef → Bool) : Except Fault Search :=
  v.walk root (fun ref s =>
    if p ref then (.stop, ⟨some ref.id, s.tried + 1⟩) else (.descend, { s with tried := s.tried + 1 })) ⟨none, 0⟩

/-- the first node that satisfies `p` -/
def findFirst (v : View) (root : Option NodeId) (p : NodeRef → Bool) : Except Fault (Option NodeId) := do
  let s ← v.search root p
  return s.found

/-- every node that satisfies `p` -/
def findAll (v : View) (root : Option NodeId) (p : NodeRef → Bool) : Except Fault (List NodeId) := do
  let found ← v.walk root (fun ref (found : Array NodeId) =>
    (.descend, if p ref then found.push ref.id else found)) #[]
  return found.toList

/-- every node of a kind; a kind that is not among the names has none -/
def findByKind (v : View) (root : Option NodeId) (kind : String) : Except Fault (List NodeId) :=
  match v.tree.names.find? kind with
  | none => .ok []
  | some symbol => v.findAll root fun ref => ref.node.kind == symbol

/-- number of visits below the root, the root included -/
def countNodes (v : View) (root : Option NodeId) : Except Fault Nat := v.walk root (fun _ n => (.descend, n + 1)) 0

/-- the visited nodes in order -/
def nodes (v : View) (root : Option NodeId) : Except Fault (List NodeRef) := do
  let all ← v.walk root (fun ref (all : Array NodeRef) => (.descend, all.push ref)) #[]
  return all.toList

end View

end Arbor
