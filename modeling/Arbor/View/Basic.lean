/-
A tree read through a schema. The schema says which slots of a node hold children to visit and in which order; the
slot says how they are held. Absent children and holes are passed over, but holes keep the places of their neighbours.
-/
import Arbor.Schema.Field
import Arbor.Tree.Basic

namespace Arbor

/-- a tree with the schema through which it is read -/
structure View where
  tree : Tree
  schema : Schema

/-- a child that is there, with the field that holds it and its place if the field is a sequence -/
structure ChildSlot where
  field : String
  index : Option Nat
  node : NodeId
  deriving DecidableEq, Repr, Inhabited

namespace View

/-- the children that a node holds in the given fields, field after field; fields that the node lacks hold none -/
def childrenIn (v : View) (n : Node) : List Field → List ChildSlot
  | [] => []
  | f :: rest =>
    match v.tree.slotOf? n f.name with
    | none => v.childrenIn n rest
    | some slot => slot.children.map (fun (index, id) => ⟨f.name, index, id⟩) ++ v.childrenIn n rest

/-- the children of a node in the order in which they are visited -/
def childrenOf (v : View) (ref : NodeRef) : List ChildSlot := v.childrenIn ref.node (v.schema.fieldsOf ref.kind)

end View

end Arbor
