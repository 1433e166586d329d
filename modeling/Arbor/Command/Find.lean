/-
Finding nodes by kind or position. Each node found is listed with its id, kind and range, and with the slot that holds
it.
-/
import Arbor.Text.Style
import Arbor.View.ParentIndex

namespace Arbor.Command

/-- which nodes to find -/
inductive Query where
  | kind (name : String)
  | at (pos : Nat)
  | overlapping (range : Span)
  deriving DecidableEq, Repr

/-- the nodes that a query asks for -/
def Query.search (v : View) : Query → Except Fault (List NodeId)
  | .kind name => v.findByKind v.tree.root name
  | .at pos => do
    let found ← v.deepestAt v.tree.root pos
    return found.toList
  | .overlapping range => v.overlapping v.tree.root range.start range.stop

/-- a node on a line, `#3 Identifier [0..1] in BinaryExpression.left` -/
def describe (t : Tree) (index : ParentIndex) (p : Palette) (id : NodeId) : Except Fault String := do
  let ref ← t.ref id
  let node := idText id ++ " " ++ p.kind ++ ref.kind ++ p.reset ++ " " ++ p.dim ++ s!"[{ref.node.span.text}]" ++ p.reset
  match index.link? id with
  | none => return node
  | some link =>
    let parent ← t.kind link.parent
    let place := (link.index.map fun i => s!"[{i}]").getD ""
    return node ++ s!" in {parent}.{link.field}{place}"

/-- the lines of the nodes found -/
def findLines (v : View) (query : Query) (p : Palette) : Except Fault (List String) := do
  let found ← query.search v
  if found.isEmpty then return []
  let index ← v.parentIndex v.tree.root
  found.mapM (describe v.tree index p)

end Arbor.Command
