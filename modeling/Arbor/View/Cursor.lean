/-
Reading the children of a node one by one. A cursor keeps what is left of the slot that it opened last and the fields that
it has not opened yet. A slot with nothing left makes way for the next field, and so does a field that the node lacks; the
reading ends when there is no field left to open.
-/
import Arbor.View.Basic

namespace Arbor

/-- what is left to read of a slot -/
inductive SlotCursor where
  /-- one child, unless it is absent or was read -/
  | single (id : Option NodeId)
  /-- the items of a sequence from a place on -/
  | many (place : Nat) (items : List (Option NodeId))
  deriving DecidableEq, Repr, Inhabited

namespace SlotCursor

/-- before the first child of the slot -/
def ofSlot : Slot → SlotCursor
  | .node id => .single (some id)
  | .optional id => .single id
  | .sequence items => .many 0 items

/-- the first of the items that is no hole, with its place, and the cursor behind it -/
def nextItem (place : Nat) : List (Option NodeId) → Option (Option Nat × NodeId) × SlotCursor
  | [] => (none, .many place [])
  | none :: rest => nextItem (place + 1) rest
  | some id :: rest => (some (some place, id), .many (place + 1) rest)

/-- the next child that is there, with its place in a sequence, and the cursor behind it -/
def next : SlotCursor → Option (Option Nat × NodeId) × SlotCursor
  | .single id => (id.map fun id => (none, id), .single none)
  | .many place items => nextItem place items

/-- the children that are left -/
def left : SlotCursor → List (Option Nat × NodeId)
  | .single id => id.toList.map fun id => (none, id)
  | .many place items => (items.zipIdx place).filterMap fun (item, i) => item.map fun id => (some i, id)

theorem left_ofSlot (slot : Slot) : (ofSlot slot).left = slot.children := by
  cases slot <;> rfl

theorem nextItem_eq (place : Nat) (items : List (Option NodeId)) :
    (nextItem place items).1 = (many place items).left.head? ∧
      (nextItem place items).2.left = (many place items).left.tail := by
  induction items generalizing place with
  | nil => exact ⟨rfl, rfl⟩
  | cons item rest ih =>
    cases item with
    | none => exact ih (place + 1)
    | some id => exact ⟨rfl, rfl⟩

/-- a call takes the first of the children that are left -/
theorem next_eq (c : SlotCursor) : c.next.1 = c.left.head? ∧ c.next.2.left = c.left.tail := by
  cases c with
  | single id => cases id <;> exact ⟨rfl, rfl⟩
  | many place items => exact nextItem_eq place items

end SlotCursor

/-- what is left to read of a node's children: of the slot opened last, under the name of its field, and of the fields after
it -/
structure ChildCursor where
  opened : Option (String × SlotCursor)
  fields : List Field
  deriving DecidableEq, Repr, Inhabited

namespace View

/-- before the first child of the node -/
def cursor (v : View) (ref : NodeRef) : ChildCursor := ⟨none, v.schema.fieldsOf ref.kind⟩

/-- the slot of the node under a field name, before its first child; a node that lacks the field has nothing to open -/
def openField (v : View) (n : Node) (name : String) : Option (String × SlotCursor) :=
  (v.tree.slotOf? n name).map fun slot => (name, .ofSlot slot)

/-- the next child of the opened slot, and what is left of this slot -/
def nextOpened : Option (String × SlotCursor) → Option ChildSlot × Option (String × SlotCursor)
  | none => (none, none)
  | some (field, slot) => (slot.next.1.map fun (index, id) => ⟨field, index, id⟩, some (field, slot.next.2))

/-- the next child of the opened slot, or else of the first field after it that has one -/
def nextIn (v : View) (n : Node) (opened : Option (String × SlotCursor)) (fields : List Field) :
    Option ChildSlot × ChildCursor :=
  match nextOpened opened with
  | (some child, opened) => (some child, ⟨opened, fields⟩)
  | (none, opened) =>
    match fields with
    | [] => (none, ⟨opened, []⟩)
    | f :: rest => v.nextIn n (v.openField n f.name) rest

/-- the next child of the node, if there is one, and the cursor behind it -/
def next (v : View) (n : Node) (c : ChildCursor) : Option ChildSlot × ChildCursor := v.nextIn n c.opened c.fields

/-! ## What is left -/

/-- the children that are left of the opened slot -/
def leftOpened : Option (String × SlotCursor) → List ChildSlot
  | none => []
  | some (field, slot) => slot.left.map fun (index, id) => ⟨field, index, id⟩

/-- the children that are left -/
def left (v : View) (n : Node) (c : ChildCursor) : List ChildSlot := leftOpened c.opened ++ v.childrenIn n c.fields

theorem left_cursor (v : View) (ref : NodeRef) : v.left ref.node (v.cursor ref) = v.childrenOf ref := rfl

theorem childrenIn_cons (v : View) (n : Node) (f : Field) (rest : List Field) :
    v.childrenIn n (f :: rest) = leftOpened (v.openField n f.name) ++ v.childrenIn n rest := by
  rw [childrenIn, openField]
  cases v.tree.slotOf? n f.name with
  | none => rfl
  | some slot => simp only [Option.map_some, leftOpened, SlotCursor.left_ofSlot]

theorem nextOpened_eq (opened : Option (String × SlotCursor)) :
    (nextOpened opened).1 = (leftOpened opened).head? ∧ leftOpened (nextOpened opened).2 = (leftOpened opened).tail := by
  cases opened with
  | none => exact ⟨rfl, rfl⟩
  | some slot =>
    obtain ⟨hfirst, hrest⟩ := slot.2.next_eq
    simp only [nextOpened, leftOpened, hfirst, hrest, List.head?_map, List.map_tail, and_self]

theorem leftOpened_of_some {opened behind : Option (String × SlotCursor)} {child : ChildSlot}
    (h : nextOpened opened = (some child, behind)) : leftOpened opened = child :: leftOpened behind := by
  obtain ⟨hfirst, hrest⟩ := nextOpened_eq opened
  rw [h] at hfirst hrest
  obtain ⟨after, hafter⟩ := List.head?_eq_some_iff.1 hfirst.symm
  rw [hrest, hafter, List.tail_cons]

theorem leftOpened_of_none {opened behind : Option (String × SlotCursor)} (h : nextOpened opened = (none, behind)) :
    leftOpened opened = [] ∧ leftOpened behind = [] := by
  obtain ⟨hfirst, hrest⟩ := nextOpened_eq opened
  rw [h] at hfirst hrest
  have hempty : leftOpened opened = [] := List.head?_eq_none_iff.1 hfirst.symm
  exact ⟨hempty, by rw [hrest, hempty, List.tail_nil]⟩

theorem nextIn_eq (v : View) (n : Node) (opened : Option (String × SlotCursor)) (fields : List Field) :
    (v.nextIn n opened fields).1 = (v.left n ⟨opened, fields⟩).head? ∧
      v.left n (v.nextIn n opened fields).2 = (v.left n ⟨opened, fields⟩).tail := by
  induction fields generalizing opened with
  | nil =>
    rw [nextIn]
    split
    · rename_i child behind hnext
      simp only [left, leftOpened_of_some hnext, List.cons_append, List.head?_cons, List.tail_cons, and_self]
    · rename_i behind hnext
      obtain ⟨hempty, hbehind⟩ := leftOpened_of_none hnext
      simp only [left, hempty, hbehind, childrenIn, List.append_nil, List.head?_nil, List.tail_nil, and_self]
  | cons f rest ih =>
    rw [nextIn]
    split
    · rename_i child behind hnext
      simp only [left, leftOpened_of_some hnext, List.cons_append, List.head?_cons, List.tail_cons, and_self]
    · rename_i behind hnext
      -- nothing is left of the opened slot, so the next field decides
      have hleft : v.left n ⟨opened, f :: rest⟩ = v.left n ⟨v.openField n f.name, rest⟩ := by
        rw [left, (leftOpened_of_none hnext).1, List.nil_append, childrenIn_cons, left]
      rw [hleft]
      exact ih _

/-- **A call takes the first of the children that are left**, and ends the reading only if there is none. -/
theorem next_eq (v : View) (n : Node) (c : ChildCursor) :
    (v.next n c).1 = (v.left n c).head? ∧ v.left n (v.next n c).2 = (v.left n c).tail :=
  v.nextIn_eq n c.opened c.fields

theorem left_of_next {v : View} {n : Node} {c behind : ChildCursor} {child : ChildSlot}
    (h : v.next n c = (some child, behind)) : v.left n c = child :: v.left n behind := by
  obtain ⟨hfirst, hrest⟩ := v.next_eq n c
  rw [h] at hfirst hrest
  obtain ⟨after, hafter⟩ := List.head?_eq_some_iff.1 hfirst.symm
  rw [hrest, hafter, List.tail_cons]

/-! ## Reading to the end -/

/-- all children that are left, call after call until there is none -/
def drain (v : View) (n : Node) (c : ChildCursor) : List ChildSlot :=
  match hnext : v.next n c with
  | (none, _) => []
  | (some child, behind) =>
    have := left_of_next hnext
    child :: v.drain n behind
termination_by (v.left n c).length
decreasing_by
  rw [this, List.length_cons]
  exact Nat.lt_succ_self _

theorem drain_eq (v : View) (n : Node) (c : ChildCursor) : v.drain n c = v.left n c := by
  fun_induction drain v n c with
  | case1 c behind h =>
    have hfirst := (v.next_eq n c).1
    rw [h] at hfirst
    exact (List.head?_eq_none_iff.1 hfirst.symm).symm
  | case2 c child behind _ hleft ih => rw [hleft, ih]

/-- the children of the node with the given id -/
def children (v : View) (id : NodeId) : Except Fault (List ChildSlot) := do
  let ref ← v.tree.ref id
  return v.drain ref.node (v.cursor ref)

theorem children_eq_ok {v : View} {id : NodeId} {ref : NodeRef} (h : v.tree.ref id = .ok ref) :
    v.children id = .ok (v.childrenOf ref) := by
  simp [children, h, drain_eq, left_cursor, bind, Except.bind, pure, Except.pure]

end View

end Arbor
