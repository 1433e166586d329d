/-
Attaching comments to nodes in one sweep. Comments and nodes are both put in order of their starts and swept together;
the nodes whose ranges enclose the place of the sweep are open, the innermost on top.

Before a node, the open nodes that do not contain it are closed, innermost first; a node that closes takes the next
comments inside it as inner comments. At the node, comments that end at or before its start lead it. A comment across
its start goes inside the innermost open node that contains the comment, or leads the node if there is none. After the
last node the open nodes are closed in the same way, and whatever is left trails the last node.

So a comment between two children leads the second, a comment after the last child is inside the parent, and a comment
inside a leaf is inside that leaf, unless an empty node stands right where the parent or the leaf ends: its range lies in
theirs, so they are still open, and the comment leads it. Comments are anything with a range.
-/
import Arbor.Comment.Basic
import Arbor.View.Search

namespace Arbor

/-- a comment with the node it belongs to -/
structure Attachment (γ : Type) where
  comment : γ
  node : NodeId
  relation : Relation
  deriving DecidableEq, Repr

/-- a node with its range, as the sweep needs it -/
structure Extent where
  id : NodeId
  span : Span
  deriving DecidableEq, Repr, Inhabited

/-- the state of the sweep: comments still to attach, open nodes with the innermost first, attachments so far -/
structure Sweep (γ : Type) where
  pending : List γ
  opened : List Extent
  attached : Array (Attachment γ)

/-- put things in order of their starts; equal starts keep their order -/
def byStart {α : Type} [HasSpan α] (xs : List α) : List α :=
  xs.mergeSort fun a b => (HasSpan.span a).start ≤ (HasSpan.span b).start

instance : HasSpan Extent := ⟨Extent.span⟩

namespace Sweep

variable {γ : Type} [HasSpan γ]

/-- attach the given comments to a node -/
def attach (out : Array (Attachment γ)) (comments : List γ) (id : NodeId) (relation : Relation) :
    Array (Attachment γ) :=
  comments.foldl (fun out c => out.push ⟨c, id, relation⟩) out

/-- the next comments as long as they lie inside a node become its inner comments -/
def takeInner (s : Sweep γ) (node : Extent) : Sweep γ :=
  let inside := s.pending.takeWhile fun c => node.span.contains (HasSpan.span c)
  { s with
    pending := s.pending.dropWhile fun c => node.span.contains (HasSpan.span c)
    attached := attach s.attached inside node.id .inner }

/-- close the given open nodes as long as they do not contain the range, innermost first -/
def closeUntil (s : Sweep γ) (range : Span) : List Extent → Sweep γ
  | [] => { s with opened := [] }
  | node :: outer =>
    if node.span.contains range then { s with opened := node :: outer }
    else closeUntil (s.takeInner node) range outer

/-- close all the given open nodes, innermost first -/
def closeAll (s : Sweep γ) : List Extent → Sweep γ
  | [] => { s with opened := [] }
  | node :: outer => closeAll (s.takeInner node) outer

/-- attach the given pending comments that end by the start of a node or lie across it -/
def lead (s : Sweep γ) (node : Extent) : List γ → Sweep γ
  | [] => { s with pending := [] }
  | c :: rest =>
    let range := HasSpan.span c
    if range.stop ≤ node.span.start then
      lead { s with attached := s.attached.push ⟨c, node.id, .leading⟩ } node rest
    else if range.start < node.span.start then
      match s.opened.find? fun around => around.span.contains range with
      | some around => lead { s with attached := s.attached.push ⟨c, around.id, .inner⟩ } node rest
      | none => lead { s with attached := s.attached.push ⟨c, node.id, .leading⟩ } node rest
    else { s with pending := c :: rest }

/-- go on to the next node -/
def step (s : Sweep γ) (node : Extent) : Sweep γ :=
  let s := s.closeUntil node.span s.opened
  let s := s.lead node s.pending
  { s with opened := node :: s.opened }

/-- sweep over the nodes and close what is open at the end -/
def run (comments : List γ) (nodes : List Extent) : Sweep γ :=
  let s := nodes.foldl step ⟨comments, [], #[]⟩
  s.closeAll s.opened

end Sweep

/-- attach every comment to one of the nodes, both in order of their starts -/
def attachSorted {γ : Type} [HasSpan γ] (comments : List γ) (nodes : List Extent) : List (Attachment γ) :=
  let s := Sweep.run comments nodes
  match nodes.getLast? with
  | none => s.attached.toList
  | some last => (Sweep.attach s.attached s.pending last.id .trailing).toList

/-- attach every comment to a node below the root; the attachments are in order of the comments' starts -/
def View.attachComments {γ : Type} [HasSpan γ] (v : View) (root : Option NodeId) (comments : List γ) :
    Except Fault (List (Attachment γ)) :=
  if root.isNone || comments.isEmpty then .ok []
  else do
    let nodes ← v.nodes root
    return attachSorted (byStart comments) (byStart (nodes.map fun ref => ⟨ref.id, ref.node.span⟩))

end Arbor
