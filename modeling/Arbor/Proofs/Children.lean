/-
The children of a node, said field by field. A field holds what the node's slot of its name holds: a single child, which has
no place, or those of a sequence, at the places where they stand. `Slot.listed` says this place by place and `Tree.listedIn`
field by field, without a cursor.

- `Slot.listed_eq`: what a slot lists is what a cursor reads of it.
- `left_afterCalls`: each call takes one child from the front of what is left, so the answers are the listing, child by child.
- `listed_eq_nil_iff`: the fields that contribute nothing.
- `children_listed`: reading the children of a node gives the listing, past fields that hold none, however many there are.
-/
import Mathlib.Data.List.Basic
import Mathlib.Data.List.Enum
import Mathlib.Data.List.Induction
import Arbor.View.Cursor

namespace Arbor

/-! ## The listing -/

/-- the children that the slot holds for a field: a single one has no place, one of a sequence has the place where it stands -/
def Slot.listed (field : String) : Slot → List ChildSlot
  | .node id => [⟨field, none, id⟩]
  | .optional none => []
  | .optional (some id) => [⟨field, none, id⟩]
  | .sequence items => (List.range items.length).filterMap fun i => items[i]?.join.map fun id => ⟨field, some i, id⟩

namespace Tree

/-- the children that the node holds in a field; a field that it lacks holds none -/
def listed (t : Tree) (n : Node) (field : String) : List ChildSlot :=
  match t.slotOf? n field with
  | none => []
  | some slot => slot.listed field

/-- the children that the node holds in the fields, field after field -/
def listedIn (t : Tree) (n : Node) (fields : List Field) : List ChildSlot := fields.flatMap fun f => t.listed n f.name

/-- no child to find in the field: the node lacks it, or its child is absent, or all items of its sequence are holes -/
def Silent (t : Tree) (n : Node) (field : String) : Prop :=
  t.slotOf? n field = none ∨ t.slotOf? n field = some (.optional none) ∨
    ∃ items, t.slotOf? n field = some (.sequence items) ∧ ∀ item ∈ items, item = none

end Tree

/-- a slot lists what a cursor reads of it -/
theorem Slot.listed_eq (field : String) (slot : Slot) :
    slot.listed field = slot.children.map fun (index, id) => ⟨field, index, id⟩ := by
  cases slot with
  | node id => rfl
  | optional id => cases id <;> rfl
  | sequence items =>
    induction items using List.reverseRecOn with
    | nil => rfl
    | append_singleton items item ih =>
      -- the places before the last item hold what they held without it
      have hbefore : ((List.range items.length).filterMap fun i => (items ++ [item])[i]?.join.map fun id =>
          (⟨field, some i, id⟩ : ChildSlot)) = Slot.listed field (.sequence items) := by
        refine List.filterMap_congr fun i hi => ?_
        rw [List.getElem?_append_left (List.mem_range.1 hi)]
      rw [listed, List.length_append, List.length_singleton, List.range_succ, List.filterMap_append, hbefore, ih]
      cases item <;> simp [children, List.zipIdx_append]

namespace View

theorem leftOpened_openField (v : View) (n : Node) (name : String) :
    leftOpened (v.openField n name) = v.tree.listed n name := by
  rw [openField, Tree.listed]
  cases v.tree.slotOf? n name with
  | none => rfl
  | some slot => simp only [Option.map_some, leftOpened, SlotCursor.left_ofSlot, Slot.listed_eq]

theorem childrenIn_eq (v : View) (n : Node) (fields : List Field) : v.childrenIn n fields = v.tree.listedIn n fields := by
  induction fields with
  | nil => rfl
  | cons f rest ih => rw [childrenIn_cons, leftOpened_openField, ih, Tree.listedIn, Tree.listedIn, List.flatMap_cons]

/-! ## Call after call -/

/-- the cursor after a number of calls -/
def afterCalls (v : View) (n : Node) (c : ChildCursor) : Nat → ChildCursor
  | 0 => c
  | calls + 1 => (v.next n (v.afterCalls n c calls)).2

/-- **Each call takes one child**, as long as there is one. -/
theorem left_afterCalls (v : View) (n : Node) (c : ChildCursor) (calls : Nat) :
    v.left n (v.afterCalls n c calls) = (v.left n c).drop calls := by
  induction calls with
  | zero => rfl
  | succ calls ih => rw [afterCalls, (v.next_eq n _).2, ih, List.tail_drop]

theorem answer_eq (v : View) (n : Node) (c : ChildCursor) (calls : Nat) :
    (v.next n (v.afterCalls n c calls)).1 = (v.left n c)[calls]? := by
  rw [(v.next_eq n _).1, left_afterCalls, List.head?_drop]

end View

/-! ## Fields without children -/

namespace Tree

theorem listed_sequence_eq_nil_iff (field : String) (items : List (Option NodeId)) :
    Slot.listed field (.sequence items) = [] ↔ ∀ item ∈ items, item = none := by
  rw [Slot.listed_eq, List.map_eq_nil_iff, Slot.children, List.filterMap_eq_nil_iff, List.forall_mem_zipIdx',
    List.forall_mem_iff_getElem]
  simp only [Option.map_eq_none_iff]

theorem listed_eq_nil_iff (t : Tree) (n : Node) (field : String) : t.listed n field = [] ↔ t.Silent n field := by
  rw [listed, Silent]
  cases t.slotOf? n field with
  | none => simp
  | some slot =>
    cases slot with
    | node id => simp [Slot.listed]
    | optional id => cases id <;> simp [Slot.listed]
    | sequence items => simp [listed_sequence_eq_nil_iff]

/-- a run of silent fields between others adds nothing -/
theorem listedIn_silent (t : Tree) (n : Node) (front silent back : List Field) (h : ∀ f ∈ silent, t.Silent n f.name) :
    t.listedIn n (front ++ silent ++ back) = t.listedIn n front ++ t.listedIn n back := by
  have hsilent : t.listedIn n silent = [] := List.flatMap_eq_nil_iff.2 fun f hf => (t.listed_eq_nil_iff n f.name).2 (h f hf)
  simp only [listedIn, List.flatMap_append] at hsilent ⊢
  rw [hsilent, List.append_nil]

end Tree

/-! ## Main result -/

namespace View

/-- **The children of a node are listed field by field.** For every tree, every schema, which may name a field more than once,
and every node of the tree:
- reading the children to the end gives, for each field of the node's kind in the order of the schema, what the slot of this
  name holds: a single child without a place, the children of a sequence in their order and with the places where they stand;
  this is also the row that the walks go through;
- the calls answer these children one after the other, and there is no child to answer only when all were answered;
- a field contributes nothing if and only if the node lacks it, its child is absent, or its sequence is empty or all holes;
- a run of such fields, of any length and in any place, leaves out nothing of what stands before and after it;
- a node of an unknown kind has no children. -/
theorem children_listed (v : View) (id : NodeId) (ref : NodeRef) (hr : v.tree.ref id = .ok ref) :
    let listing := v.tree.listedIn ref.node (v.schema.fieldsOf ref.kind)
    v.children id = .ok listing ∧ v.childrenOf ref = listing ∧
    (∀ calls, (v.next ref.node (v.afterCalls ref.node (v.cursor ref) calls)).1 = listing[calls]?) ∧
    (∀ name, v.tree.listed ref.node name = [] ↔ v.tree.Silent ref.node name) ∧
    (∀ front silent back, v.schema.fieldsOf ref.kind = front ++ silent ++ back →
      (∀ f ∈ silent, v.tree.Silent ref.node f.name) →
      v.children id = .ok (v.tree.listedIn ref.node front ++ v.tree.listedIn ref.node back)) ∧
    (v.schema.fields ref.kind = none → v.children id = .ok []) := by
  intro listing
  have hrow : v.childrenOf ref = listing := v.childrenIn_eq ref.node _
  have hchildren : v.children id = .ok listing := by rw [children_eq_ok hr, hrow]
  refine ⟨hchildren, hrow, fun calls => ?_, v.tree.listed_eq_nil_iff ref.node, ?_, fun hunknown => ?_⟩
  · rw [answer_eq, left_cursor, hrow]
  · intro front silent back hfields hsilent
    rw [hchildren, ← v.tree.listedIn_silent ref.node front silent back hsilent, ← hfields]
  · have hnone : v.schema.fieldsOf ref.kind = [] := by rw [Schema.fieldsOf, hunknown, Option.getD_none]
    rw [hchildren]
    exact congrArg (fun fields => Except.ok (v.tree.listedIn ref.node fields)) hnone

/-- a list with an absent head, no first items, holes for second ones, tails between holes, and a last item -/
def gappedList : Node :=
  ⟨0, ⟨0, 9⟩, [(5, .node 3), (4, .sequence [none, some 2, none, some 1]), (3, .sequence [none, none]), (2, .sequence []),
    (1, .optional none)], []⟩

/-- the list through a schema that names its tails twice and between them a field that it lacks -/
def gappedView : View where
  tree :=
    { names := ⟨#["List", "head", "first", "second", "tails", "last", "Name"]⟩
      nodes := #[gappedList, ⟨6, ⟨1, 2⟩, [], []⟩, ⟨6, ⟨3, 4⟩, [], []⟩, ⟨6, ⟨5, 6⟩, [], []⟩]
      root := some 0 }
  schema := ⟨fun kind => if kind = "List" then some [⟨"head", .optional⟩, ⟨"tails", .many⟩, ⟨"first", .many⟩,
    ⟨"second", .many⟩, ⟨"other", .single⟩, ⟨"tails", .single⟩, ⟨"last", .single⟩] else none⟩

/-- The tails are read twice, with their places, and then the last item; the sixth call has no child left to answer. The kind of
the names is unknown. -/
theorem children_listed_gapped :
    let v := gappedView
    let answer := fun calls => (v.next gappedList (v.afterCalls gappedList (v.cursor ⟨0, "List", gappedList⟩) calls)).1
    v.tree.ref 0 = .ok ⟨0, "List", gappedList⟩ ∧ v.tree.ref 1 = .ok ⟨1, "Name", ⟨6, ⟨1, 2⟩, [], []⟩⟩ ∧
      v.children 0 = .ok [⟨"tails", some 1, 2⟩, ⟨"tails", some 3, 1⟩, ⟨"tails", some 1, 2⟩, ⟨"tails", some 3, 1⟩,
        ⟨"last", none, 3⟩] ∧
      answer 2 = some ⟨"tails", some 1, 2⟩ ∧ answer 4 = some ⟨"last", none, 3⟩ ∧ answer 5 = none ∧
      v.tree.Silent gappedList "second" ∧ v.children 1 = .ok [] := by
  intro v answer
  have hlist : v.tree.ref 0 = .ok ⟨0, "List", gappedList⟩ := rfl
  have hname : v.tree.ref 1 = .ok ⟨1, "Name", ⟨6, ⟨1, 2⟩, [], []⟩⟩ := rfl
  obtain ⟨hchildren, -, hcalls, hsilent, -, -⟩ := children_listed v 0 _ hlist
  obtain ⟨-, -, -, -, -, hunknown⟩ := children_listed v 1 _ hname
  refine ⟨hlist, hname, hchildren.trans (congrArg Except.ok ?_), (hcalls 2).trans ?_, (hcalls 4).trans ?_,
    (hcalls 5).trans ?_, (hsilent "second").1 ?_, hunknown ?_⟩
  · decide +kernel
  · decide +kernel
  · decide +kernel
  · decide +kernel
  · decide +kernel
  · decide

end View

end Arbor
