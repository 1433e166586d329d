/-
Attachments grouped by node, in order of first attachment, and by relation, in order of attachment.
-/
import Arbor.Comment.Attach
import Arbor.Lookup

namespace Arbor

/-- the comments of one node -/
structure NodeComments (γ : Type) where
  leading : List γ
  inner : List γ
  trailing : List γ
  deriving DecidableEq, Repr

namespace NodeComments

variable {γ : Type}

/-- no comments -/
def empty : NodeComments γ := ⟨[], [], []⟩

/-- number of comments -/
def size (c : NodeComments γ) : Nat := c.leading.length + c.inner.length + c.trailing.length

/-- there are no comments -/
def isEmpty (c : NodeComments γ) : Bool := c.size == 0

/-- add a comment at the end of its group -/
def add (c : NodeComments γ) (comment : γ) : Relation → NodeComments γ
  | .leading => { c with leading := c.leading ++ [comment] }
  | .inner => { c with inner := c.inner ++ [comment] }
  | .trailing => { c with trailing := c.trailing ++ [comment] }

end NodeComments

/-- nodes with their comments -/
structure CommentMap (γ : Type) where
  entries : Keyed NodeId (NodeComments γ)
  deriving DecidableEq, Repr

namespace CommentMap

variable {γ : Type}

/-- no attachments -/
def empty : CommentMap γ := ⟨[]⟩

/-- add an attachment -/
def insert (m : CommentMap γ) (a : Attachment γ) : CommentMap γ :=
  ⟨m.entries.alter a.node fun old => (old.getD .empty).add a.comment a.relation⟩

/-- the map of a list of attachments -/
def ofList (attachments : List (Attachment γ)) : CommentMap γ := attachments.foldl insert empty

/-- the comments of a node -/
def get? (m : CommentMap γ) (id : NodeId) : Option (NodeComments γ) := m.entries.get? id

/-- the comments of a node, none of them for a node without an entry -/
def getD (m : CommentMap γ) (id : NodeId) : NodeComments γ := (m.get? id).getD .empty

/-- number of nodes with comments -/
def size (m : CommentMap γ) : Nat := m.entries.length

/-- no node has comments -/
def isEmpty (m : CommentMap γ) : Bool := m.entries.isEmpty

end CommentMap

end Arbor
