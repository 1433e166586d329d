/-
Visiting the nodes below a root, parents before children and children in the order of the schema. The visitor carries a
state and says after each node whether to go on below it, to leave out what is below it, or to end the walk.

Both walks keep a stack of nodes still to visit rather than calling themselves for each child. The stack also says how
many levels a node may have below it: as many as the arena has nodes, less the levels above it. No chain of different
nodes is longer than that, so the bound cuts nothing off where no node lies below itself, and every walk ends.
-/
import Arbor.View.Cursor

namespace Arbor

/-- what a walk does after a visit -/
inductive Visit where
  /-- go on with the children of the node -/
  | descend
  /-- leave out everything below the node -/
  | skip
  /-- end the walk -/
  | stop
  deriving DecidableEq, Repr, Inhabited

/-- descend if so, else leave out what is below -/
def Visit.ofBool (descend : Bool) : Visit := if descend then .descend else .skip

/-- where a visited node sits below the root of the walk -/
structure Context where
  /-- the nodes around it, the root of the walk first and the parent last -/
  ancestors : Array NodeId
  /-- the parent's field that holds it -/
  field : Option String
  /-- its place, if that field is a sequence -/
  index : Option Nat
  deriving DecidableEq, Repr, Inhabited

namespace Context

/-- number of nodes around it -/
def depth (ctx : Context) : Nat := ctx.ancestors.size

/-- the parent; the root of the walk has none -/
def parent? (ctx : Context) : Option NodeId := ctx.ancestors.back?

/-- it is the root of the walk -/
def isRoot (ctx : Context) : Bool := ctx.parent?.isNone

end Context

namespace View

/-! ## Length of a walk -/

/-- the visits from a node on that nobody cuts short, with at most `room` levels below it -/
def visits (v : View) : Nat → NodeId → List NodeId
  | 0, id => [id]
  | room + 1, id =>
    match v.children id with
    | .error _ => [id]
    | .ok children => id :: children.flatMap fun c => v.visits room c.node

theorem visits_succ {v : View} {id : NodeId} {ref : NodeRef} (h : v.tree.ref id = .ok ref) (room : Nat) :
    v.visits (room + 1) id = id :: (v.childrenOf ref).flatMap fun c => v.visits room c.node := by
  simp [visits, children_eq_ok h]

theorem length_visits_pos (v : View) (room : Nat) (id : NodeId) : 0 < (v.visits room id).length := by
  cases room with
  | zero => simp [visits]
  | succ room =>
    simp only [visits]
    split <;> simp

/-! ## Walking -/

/-- visit the nodes of the stack and what is below them; each may have `room` levels below it -/
def walkFrom {σ : Type} (v : View) (visit : NodeRef → σ → Visit × σ) (stack : List (NodeId × Nat)) (s : σ) :
    Except Fault σ :=
  match stack with
  | [] => .ok s
  | (id, room) :: rest =>
    match h : v.tree.ref id with
    | .error f => .error f
    | .ok ref =>
      match visit ref s with
      | (.stop, s) => .ok s
      | (.skip, s) => v.walkFrom visit rest s
      | (.descend, s) =>
        match room with
        | 0 => v.walkFrom visit rest s
        | room + 1 =>
          have hvisits := visits_succ h room
          v.walkFrom visit ((v.childrenOf ref).map (fun c => (c.node, room)) ++ rest) s
termination_by (stack.flatMap fun (id, room) => v.visits room id).length
decreasing_by
  · have := v.length_visits_pos room id
    simp only [List.flatMap_cons, List.length_append]
    omega
  · have := v.length_visits_pos 0 id
    simp only [List.flatMap_cons, List.length_append]
    omega
  · simp only [List.flatMap_cons, List.flatMap_append, List.flatMap_map, List.length_append, Nat.succ_eq_add_one, hvisits,
      List.length_cons]
    omega

/-- visit the root and what is below it; without a root there is nothing to visit -/
def walk {σ : Type} (v : View) (root : Option NodeId) (visit : NodeRef → σ → Visit × σ) (s : σ) : Except Fault σ :=
  match root with
  | none => .ok s
  | some root => v.walkFrom visit [(root, v.tree.size)] s

/-! ## Walking with contexts -/

/-- a node still to visit, with what is needed to say where it sits -/
structure Frame where
  node : NodeId
  room : Nat
  depth : Nat
  field : Option String
  index : Option Nat

/-- the frames of a node's children -/
def framesBelow (v : View) (ref : NodeRef) (room depth : Nat) : List Frame :=
  (v.childrenOf ref).map fun c => ⟨c.node, room, depth, some c.field, c.index⟩

/-- visit the frames of the stack and what is below them; `path` is the way to the node visited last, and its first
`depth` nodes are the way to a frame of that depth -/
def walkPathFrom {σ : Type} (v : View) (visit : NodeRef → Context → σ → Visit × σ) (stack : List Frame)
    (path : Array NodeId) (s : σ) : Except Fault σ :=
  match stack with
  | [] => .ok s
  | ⟨id, room, depth, field, index⟩ :: rest =>
    match h : v.tree.ref id with
    | .error f => .error f
    | .ok ref =>
      let path := path.shrink depth
      match visit ref ⟨path, field, index⟩ s with
      | (.stop, s) => .ok s
      | (.skip, s) => v.walkPathFrom visit rest path s
      | (.descend, s) =>
        match room with
        | 0 => v.walkPathFrom visit rest path s
        | room + 1 =>
          have hvisits := visits_succ h room
          let path := path.push id
          v.walkPathFrom visit (v.framesBelow ref room path.size ++ rest) path s
termination_by (stack.flatMap fun frame => v.visits frame.room frame.node).length
decreasing_by
  · have := v.length_visits_pos room id
    simp only [List.flatMap_cons, List.length_append]
    omega
  · have := v.length_visits_pos 0 id
    simp only [List.flatMap_cons, List.length_append]
    omega
  · simp only [List.flatMap_cons, List.flatMap_append, framesBelow, List.flatMap_map, List.length_append,
      Nat.succ_eq_add_one, hvisits, List.length_cons]
    omega

/-- visit the root and what is below it, saying of each node where it sits -/
def walkPath {σ : Type} (v : View) (root : Option NodeId) (visit : NodeRef → Context → σ → Visit × σ) (s : σ) :
    Except Fault σ :=
  match root with
  | none => .ok s
  | some root => v.walkPathFrom visit [⟨root, v.tree.size, 0, none, none⟩] #[] s

end View

end Arbor
