/-
The parent index against the queries that walk again. The index is filled by one walk over all spots and then climbed from
link to link; a query walks until it meets its node and reads the context of that spot. Where no node is visited twice, a
node has one spot, and both read it.

- `entry?_recordAll`: what the index holds of a node is the entry of its last spot.
- `climb_eq`: climbing from the node of a spot gives the ancestors in its context, since each spot hangs below another one
  whose ancestors are the same but for the last.
- `parentIndex_agrees`: the index answers as the queries do, and each link names the slot that holds the node.
-/
import Arbor.Proofs.Children
import Arbor.Proofs.Spots
import Arbor.Proofs.Strict
import Arbor.View.ParentIndex

namespace Arbor

/-! ## Slots -/

/-- the slot holds the id at the index: at this place of a sequence, or as its only child if there is no index -/
def Slot.Holds : Slot → Option Nat → NodeId → Prop
  | .node child, none, id => child = id
  | .optional child, none, id => child = some id
  | .sequence items, some i, id => items[i]? = some (some id)
  | _, _, _ => False

theorem Slot.mem_children_iff {slot : Slot} {index : Option Nat} {id : NodeId} :
    (index, id) ∈ slot.children ↔ slot.Holds index id := by
  cases slot with
  | node child => cases index <;> simp [children, Holds, eq_comm]
  | optional child => cases index <;> cases child <;> simp [children, Holds, eq_comm]
  | sequence items =>
    simp only [children, List.mem_filterMap, Prod.exists, List.mem_zipIdx_iff_getElem?]
    cases index with
    | none => simp [Holds]
    | some i =>
      simp only [Holds, Option.map_eq_some_iff, Prod.mk.injEq, Option.some.injEq]
      constructor
      · rintro ⟨item, place, hitem, child, rfl, rfl, rfl⟩
        exact hitem
      · intro hitem
        exact ⟨some id, i, hitem, id, rfl, rfl, rfl⟩

theorem Tree.mem_listed_iff {t : Tree} {n : Node} {field : String} {child : ChildSlot} :
    child ∈ t.listed n field ↔ child.field = field ∧
      ∃ slot, t.slotOf? n child.field = some slot ∧ slot.Holds child.index child.node := by
  obtain ⟨name, index, id⟩ := child
  rw [listed]
  constructor
  · intro hchild
    cases hslot : t.slotOf? n field with
    | none => simp [hslot] at hchild
    | some slot =>
      simp only [hslot, Slot.listed_eq, List.mem_map] at hchild
      obtain ⟨_, hheld, rfl, rfl, rfl⟩ := hchild
      exact ⟨rfl, slot, hslot, Slot.mem_children_iff.1 hheld⟩
  · rintro ⟨rfl, slot, hslot, hholds⟩
    simp only [hslot, Slot.listed_eq, List.mem_map]
    exact ⟨(index, id), Slot.mem_children_iff.2 hholds, rfl⟩

namespace View

variable {v : View}

/-- a child in the given fields is what a slot under one of their names holds -/
theorem mem_childrenIn {n : Node} {fields : List Field} {child : ChildSlot} :
    child ∈ v.childrenIn n fields ↔ child.field ∈ fields.map Field.name ∧
      ∃ slot, v.tree.slotOf? n child.field = some slot ∧ slot.Holds child.index child.node := by
  rw [childrenIn_eq, Tree.listedIn, List.mem_flatMap, List.mem_map]
  constructor
  · rintro ⟨f, hf, hchild⟩
    obtain ⟨hname, hholds⟩ := Tree.mem_listed_iff.1 hchild
    exact ⟨⟨f, hf, hname.symm⟩, hholds⟩
  · rintro ⟨⟨f, hf, hname⟩, hholds⟩
    exact ⟨f, hf, Tree.mem_listed_iff.2 ⟨hname.symm, hholds⟩⟩

/-- the field of a child names the slot that holds it -/
theorem slot_of_mem_childrenOf {id : NodeId} {ref : NodeRef} (hr : v.tree.ref id = .ok ref) {child : ChildSlot}
    (h : child ∈ v.childrenOf ref) :
    ∃ slot, v.tree.slot id child.field = .ok (some slot) ∧ slot.Holds child.index child.node := by
  obtain ⟨-, slot, hslot, hholds⟩ := mem_childrenIn.1 h
  refine ⟨slot, ?_, hholds⟩
  simp [Tree.slot, Tree.node, node_of_ref hr, hslot, bind, Except.bind, pure, Except.pure]

/-- a spot that hangs below another one has it as its parent, and a field -/
theorem Hangs.linkOf {y x : Spot} (h : v.Hangs y x) :
    ∃ slot ∈ v.childrenOf y.ref, x.ref.id = slot.node ∧ x.context.parent? = some y.ref.id ∧
      ParentIndex.linkOf x.context = some ⟨y.ref.id, slot.field, slot.index⟩ := by
  obtain ⟨slot, hslot, hid, hctx⟩ := h
  refine ⟨slot, hslot, hid, ?_, ?_⟩
  · rw [hctx]; simp [Context.parent?]
  · rw [hctx]; simp [ParentIndex.linkOf, Context.parent?]

/-- the parent in the link of a spot is the parent in its context -/
theorem map_parent_linkOf {root : Option NodeId} (h : v.Ends root) {x : Spot} (hx : x ∈ v.spots root) :
    (ParentIndex.linkOf x.context).map Link.parent = x.context.parent? := by
  rcases spots_cases h hx with ⟨-, hctx⟩ | ⟨y, -, hhang⟩
  · rw [hctx]; rfl
  · obtain ⟨slot, -, -, hparent, hlink⟩ := hhang.linkOf
    rw [hlink, hparent]; rfl

end View

/-! ## Filling the index -/

/-- what the index records at a spot -/
def Spot.entry (x : Spot) : IndexEntry := ⟨ParentIndex.linkOf x.context, x.context.depth⟩

namespace ParentIndex

/-- record spots one after the other -/
def recordAll (index : ParentIndex) (spots : List Spot) : ParentIndex :=
  spots.foldl (fun index x => index.record x.ref.id x.context) index

@[simp] theorem recordAll_cons (index : ParentIndex) (x : Spot) (rest : List Spot) :
    index.recordAll (x :: rest) = (index.record x.ref.id x.context).recordAll rest := rfl

@[simp] theorem length_entries_record (index : ParentIndex) (id : NodeId) (ctx : Context) :
    (index.record id ctx).entries.size = index.entries.size := by simp [record]

theorem entry?_record {index : ParentIndex} {x : Spot} (h : x.ref.id < index.entries.size) (n : NodeId) :
    ParentIndex.entry? (index.record x.ref.id x.context) n = if x.ref.id = n then some x.entry else index.entry? n := by
  simp only [ entry?, record, Array.getElem?_setIfInBounds, h, if_true, Spot.entry]
  split_ifs <;> rfl

theorem size_record_of_new {index : ParentIndex} {id : NodeId} (h : index.entry? id = none) (ctx : Context) :
    (index.record id ctx).size = index.size + 1 := by
  have hnone : (index.entries[id]?.getD none).isNone = true := Option.isNone_iff_eq_none.2 h
  simp only [record]
  rw [if_pos hnone]

theorem recordAll_fixed (spots : List Spot) : ∀ index : ParentIndex,
    (index.recordAll spots).tree = index.tree ∧ (index.recordAll spots).entries.size = index.entries.size := by
  induction spots with
  | nil => intro index; exact ⟨rfl, rfl⟩
  | cons x rest ih =>
    intro index
    obtain ⟨htree, hsize⟩ := ih (index.record x.ref.id x.context)
    exact ⟨htree, by rw [recordAll_cons, hsize, length_entries_record]⟩

/-- **The last visit counts.** After all spots were recorded, a node has the entry of its last spot. -/
theorem entry?_recordAll (spots : List Spot) : ∀ index : ParentIndex, (∀ x ∈ spots, x.ref.id < index.entries.size) →
    ∀ n, ParentIndex.entry? (index.recordAll spots) n =
      ((spots.reverse.find? fun x => x.ref.id == n).map Spot.entry).or (index.entry? n) := by
  induction spots with
  | nil => intro index _ n; rfl
  | cons x rest ih =>
    intro index hin n
    have hrest : ∀ y ∈ rest, y.ref.id < (index.record x.ref.id x.context).entries.size := by
      intro y hy
      rw [length_entries_record]
      exact hin y (List.mem_cons_of_mem x hy)
    rw [recordAll_cons, ih _ hrest, entry?_record (hin x List.mem_cons_self), List.reverse_cons, List.find?_append]
    cases hfind : rest.reverse.find? fun x => x.ref.id == n with
    | some y => simp
    | none => by_cases hid : x.ref.id = n <;> simp [hid]

/-- spots of different nodes, none of them recorded yet, add one each to the size -/
theorem size_recordAll (spots : List Spot) : ∀ index : ParentIndex, (∀ x ∈ spots, x.ref.id < index.entries.size) →
    (∀ x ∈ spots, index.entry? x.ref.id = none) → (spots.map fun x => x.ref.id).Nodup →
    (index.recordAll spots).size = index.size + spots.length := by
  induction spots with
  | nil => intro index _ _ _; rfl
  | cons x rest ih =>
    intro index hin hnew hnodup
    obtain ⟨hx, hrest⟩ := List.nodup_cons.1 hnodup
    have hlt := hin x List.mem_cons_self
    have hnew' : ∀ y ∈ rest, ParentIndex.entry? (index.record x.ref.id x.context) y.ref.id = none := by
      intro y hy
      have hne : x.ref.id ≠ y.ref.id := fun heq => hx (List.mem_map.2 ⟨y, hy, heq.symm⟩)
      rw [entry?_record hlt, if_neg hne]
      exact hnew y (List.mem_cons_of_mem x hy)
    have hin' : ∀ y ∈ rest, y.ref.id < (index.record x.ref.id x.context).entries.size := by
      intro y hy
      rw [length_entries_record]
      exact hin y (List.mem_cons_of_mem x hy)
    rw [recordAll_cons, ih _ hin' hnew' hrest, size_record_of_new (hnew x List.mem_cons_self), List.length_cons]
    omega

end ParentIndex

namespace View

variable {v : View} {root : Option NodeId}

/-- the index before any visit -/
def blankIndex (v : View) (root : Option NodeId) : ParentIndex := ⟨v.tree, root, Array.replicate v.tree.size none, 0⟩

/-- the index after all visits -/
def filledIndex (v : View) (root : Option NodeId) : ParentIndex := (v.blankIndex root).recordAll (v.spots root)

theorem entry?_blankIndex (v : View) (root : Option NodeId) (n : NodeId) :
    ParentIndex.entry? (v.blankIndex root) n = none := by
  simp only [blankIndex, ParentIndex.entry?, Array.getElem?_replicate]
  split_ifs <;> rfl

theorem parentIndex_eq (h : v.Ends root) : v.parentIndex root = .ok (v.filledIndex root) :=
  walkPath_descend h (fun x (index : ParentIndex) => index.record x.ref.id x.context) (v.blankIndex root)

theorem lt_blankIndex (h : v.Ends root) {x : Spot} (hx : x ∈ v.spots root) :
    x.ref.id < (v.blankIndex root).entries.size := by
  rw [blankIndex, Array.size_replicate]
  exact Tree.lt_size_of_ref (ref_of_spot h hx)

theorem size_entries_filledIndex (v : View) (root : Option NodeId) :
    (v.filledIndex root).entries.size = v.tree.size := by
  rw [filledIndex, (ParentIndex.recordAll_fixed _ _).2, blankIndex, Array.size_replicate]

/-! ## Nodes that are visited once -/

/-- of spots of different nodes, the first with an id is the only one -/
theorem find?_spot_of_nodup {spots : List Spot} (h : (spots.map fun x => x.ref.id).Nodup) {x : Spot} (hx : x ∈ spots) :
    spots.find? (fun y => y.ref.id == x.ref.id) = some x := by
  cases hfind : spots.find? (fun y => y.ref.id == x.ref.id) with
  | none =>
    have hnot := List.find?_eq_none.1 hfind x hx
    simp at hnot
  | some y =>
    have hid : y.ref.id = x.ref.id := by simpa using List.find?_some hfind
    exact congrArg some (List.inj_on_of_nodup_map h (List.mem_of_find?_eq_some hfind) hx hid)

theorem find?_reverse_of_nodup {spots : List Spot} (h : (spots.map fun x => x.ref.id).Nodup) (n : NodeId) :
    spots.reverse.find? (fun x => x.ref.id == n) = spots.find? fun x => x.ref.id == n := by
  cases hfind : spots.find? fun x => x.ref.id == n with
  | none =>
    rw [List.find?_eq_none] at hfind ⊢
    exact fun x hx => hfind x (List.mem_reverse.1 hx)
  | some x =>
    have hid : x.ref.id = n := by simpa using List.find?_some hfind
    subst hid
    refine find?_spot_of_nodup ?_ (List.mem_reverse.2 (List.mem_of_find?_eq_some hfind))
    rw [List.map_reverse]
    exact List.nodup_reverse.2 h

namespace VisitsOnce

variable (h : v.VisitsOnce root)
include h

theorem spot?_eq {x : Spot} (hx : x ∈ v.spots root) : v.spot? root x.ref.id = some x :=
  find?_spot_of_nodup h.nodup hx

theorem size_filledIndex : (v.filledIndex root).size = (v.spots root).length := by
  rw [filledIndex, ParentIndex.size_recordAll _ _ (fun x hx => lt_blankIndex h.ends hx)
    (fun x _ => entry?_blankIndex v root x.ref.id) h.nodup]
  simp [blankIndex]

/-- the entry of a node is that of its spot -/
theorem entry?_filledIndex (n : NodeId) :
    ParentIndex.entry? (v.filledIndex root) n = (v.spot? root n).map Spot.entry := by
  rw [filledIndex, ParentIndex.entry?_recordAll _ _ (fun x hx => lt_blankIndex h.ends hx), entry?_blankIndex,
    Option.or_none, find?_reverse_of_nodup h.nodup]
  rfl

theorem link?_filledIndex (n : NodeId) :
    (v.filledIndex root).link? n = (v.spot? root n).bind fun x => ParentIndex.linkOf x.context := by
  rw [ParentIndex.link?, h.entry?_filledIndex]
  cases v.spot? root n <;> rfl

theorem parent?_filledIndex (n : NodeId) :
    (v.filledIndex root).parent? n = (v.spot? root n).bind fun x => x.context.parent? := by
  rw [ParentIndex.parent?, h.link?_filledIndex]
  cases hfind : v.spot? root n with
  | none => rfl
  | some x => exact map_parent_linkOf h.ends (List.mem_of_find?_eq_some hfind)

/-- **Climbing retraces the way of the walk.** With room for the ancestors of a spot, the climb from its node gives them and
ends. -/
theorem climb_spot (depth : Nat) :
    ∀ x ∈ v.spots root, x.context.depth = depth → ∀ (rounds : Nat) (below : List NodeId), depth ≤ rounds →
      (v.filledIndex root).climb rounds ((v.filledIndex root).parent? x.ref.id) below =
        x.context.ancestors.toList ++ below := by
  induction depth with
  | zero =>
    intro x hx hdepth rounds below _
    have hempty : x.context.ancestors = #[] := Array.eq_empty_of_size_eq_zero hdepth
    have hnone : (v.filledIndex root).parent? x.ref.id = none := by
      rw [h.parent?_filledIndex, h.spot?_eq hx]
      simp [Context.parent?, hempty]
    rw [hnone, ParentIndex.climb, hempty]
    rfl
  | succ depth ih =>
    intro x hx hdepth rounds below hrounds
    rcases spots_cases h.ends hx with ⟨-, hctx⟩ | ⟨y, hy, slot, -, -, hctx⟩
    · rw [hctx] at hdepth
      simp [Context.depth] at hdepth
    · obtain ⟨fewer, rfl⟩ : ∃ fewer, rounds = fewer + 1 := ⟨rounds - 1, by omega⟩
      have hup : (v.filledIndex root).parent? x.ref.id = some y.ref.id := by
        rw [h.parent?_filledIndex, h.spot?_eq hx]
        simp [Context.parent?, hctx]
      have hdepth' : y.context.depth = depth := by
        rw [hctx] at hdepth
        simpa [Context.depth] using hdepth
      rw [hup, ParentIndex.climb, ih y hy hdepth' fewer (y.ref.id :: below) (by omega), hctx]
      simp

/-- as many rounds as the arena has nodes are enough for every climb -/
theorem climb_eq (n : NodeId) {rounds : Nat} (hrounds : v.tree.size ≤ rounds) :
    (v.filledIndex root).climb rounds ((v.filledIndex root).parent? n) [] =
      ((v.spot? root n).map fun x => x.context.ancestors.toList).getD [] := by
  cases hfind : v.spot? root n with
  | none =>
    rw [h.parent?_filledIndex, hfind]
    simp [ParentIndex.climb]
  | some x =>
    have hx : x ∈ v.spots root := List.mem_of_find?_eq_some hfind
    have hid : x.ref.id = n := by simpa using List.find?_some hfind
    have hdepth := depth_le_size h.ends hx
    rw [← hid, h.climb_spot _ x hx rfl rounds [] (by omega)]
    simp

/-- a link names the slot that holds the node -/
theorem slot_of_link {n : NodeId} {link : Link} (hlink : (v.filledIndex root).link? n = some link) :
    ∃ slot, v.tree.slot link.parent link.field = .ok (some slot) ∧ slot.Holds link.index n := by
  rw [h.link?_filledIndex, Option.bind_eq_some_iff] at hlink
  obtain ⟨x, hfind, hlink⟩ := hlink
  have hx : x ∈ v.spots root := List.mem_of_find?_eq_some hfind
  have hid : x.ref.id = n := by simpa using List.find?_some hfind
  rcases spots_cases h.ends hx with ⟨-, hctx⟩ | ⟨y, hy, hhang⟩
  · rw [hctx] at hlink
    cases hlink
  · obtain ⟨slot, hslot, hnode, -, hlinkOf⟩ := hhang.linkOf
    rw [hlinkOf] at hlink
    cases hlink
    rw [← hid, hnode]
    exact slot_of_mem_childrenOf (ref_of_spot h.ends hy) hslot

end VisitsOnce

/-- the siblings of a node are read from the link of its first spot -/
theorem siblingsOf_eq (h : v.Ends root) (target : NodeId) :
    v.siblingsOf root target = .ok (match (v.spot? root target).bind fun x => ParentIndex.linkOf x.context with
      | some ⟨parent, field, some _⟩ => v.tree.neighbours parent field target
      | _ => []) := by
  rw [siblingsOf, locate_eq h]
  cases v.spot? root target with
  | none => rfl
  | some x =>
    simp only [Option.map_some, Option.bind_some, bind, Except.bind, ParentIndex.linkOf, pure, Except.pure]
    cases x.context.parent? <;> cases x.context.field <;> cases x.context.index <;> rfl

/-! ## Main result -/

/-- **The parent index agrees with the queries that walk again.** For every root, or none, from which the walk ends and
visits no node twice, the index can be built; its size is the number of nodes; and for every id, of the arena or not:
- it says of the node what the queries say: whether it is reached, its parent, its ancestors, its depth, its siblings;
- the climb through the links ends by itself: more rounds give the same ancestors;
- a link names a slot of the parent, and this slot holds the node at the index of the link. -/
theorem parentIndex_agrees (v : View) (root : Option NodeId) (h : v.VisitsOnce root) :
    ∃ index, v.parentIndex root = .ok index ∧ v.countNodes root = .ok index.size ∧ ∀ n : NodeId,
      v.contains root n = .ok (index.contains n) ∧
      v.parentOf root n = .ok (index.parent? n) ∧
      v.ancestorsOf root n = .ok (index.ancestors n) ∧
      (∀ rounds, index.entries.size ≤ rounds → index.climb rounds (index.parent? n) [] = index.ancestors n) ∧
      v.depth root n = .ok (index.depth? n) ∧
      v.siblingsOf root n = .ok (index.siblings n) ∧
      ∀ link, index.link? n = some link →
        ∃ slot, v.tree.slot link.parent link.field = .ok (some slot) ∧ slot.Holds link.index n := by
  have hends := h.ends
  have hsize := size_entries_filledIndex v root
  have htree : (v.filledIndex root).tree = v.tree := (ParentIndex.recordAll_fixed _ _).1
  refine ⟨v.filledIndex root, parentIndex_eq hends, ?_, fun n => ⟨?_, ?_, ?_, fun rounds hrounds => ?_, ?_, ?_, ?_⟩⟩
  · rw [countNodes_eq hends, h.size_filledIndex]
  · rw [contains_eq hends, ParentIndex.contains, h.entry?_filledIndex, Option.isSome_map]
  · rw [parentOf, locate_eq hends, h.parent?_filledIndex]
    cases v.spot? root n <;> rfl
  · rw [ancestorsOf, locate_eq hends, ParentIndex.ancestors, hsize, h.climb_eq n (Nat.le_refl _)]
    cases v.spot? root n <;> rfl
  · rw [ParentIndex.ancestors, hsize, h.climb_eq n (Nat.le_refl _), h.climb_eq n (hsize ▸ hrounds)]
  · rw [depth, locate_eq hends, ParentIndex.depth?, h.entry?_filledIndex]
    cases v.spot? root n <;> rfl
  · rw [ParentIndex.siblings, h.link?_filledIndex, htree]
    exact siblingsOf_eq hends n
  · exact fun link hlink => h.slot_of_link hlink

/-- a list that holds a name, nothing and a list, which again holds names; another name is held by nobody -/
def nestedTree : Tree where
  names := ⟨#["List", "items", "Name", "head"]⟩
  nodes := #[
    ⟨0, ⟨0, 20⟩, [(1, .sequence [some 1, none, some 2])], []⟩,
    ⟨2, ⟨1, 3⟩, [], []⟩,
    ⟨0, ⟨5, 15⟩, [(1, .sequence [some 3, some 4]), (3, .node 5)], []⟩,
    ⟨2, ⟨6, 7⟩, [], []⟩,
    ⟨2, ⟨8, 9⟩, [], []⟩,
    ⟨2, ⟨12, 14⟩, [], []⟩,
    ⟨2, ⟨30, 31⟩, [], []⟩]
  root := some 0

/-- The index of the whole tree: a way of two links, siblings beside a hole, a node that is not reached and an id that the
arena does not have. -/
theorem parentIndex_agrees_nested :
    let view : View := ⟨nestedTree, sharedView.schema⟩
    view.VisitsOnce (some 0) ∧
    ∃ index, view.parentIndex (some 0) = .ok index ∧ index.size = 6 ∧
      index.link? 2 = some ⟨0, "items", some 2⟩ ∧ index.link? 5 = some ⟨2, "head", none⟩ ∧
      index.ancestors 4 = [0, 2] ∧ view.ancestorsOf (some 0) 4 = .ok [0, 2] ∧
      index.siblings 1 = [2] ∧ view.siblingsOf (some 0) 1 = .ok [2] ∧
      view.contains (some 0) 6 = .ok false ∧ view.depth (some 0) 9 = .ok none := by
  intro view
  have honce : view.VisitsOnce (some 0) :=
    visitsOnce_of_nodup (acyclic_of_rising (by decide +kernel) 0) (by cbv) (by decide +kernel)
  obtain ⟨index, hindex, -, hagrees⟩ := parentIndex_agrees view (some 0) honce
  have hcomputed : index = view.filledIndex (some 0) := by
    rw [parentIndex_eq honce.ends] at hindex
    exact (Except.ok.inj hindex).symm
  obtain ⟨-, -, h4, -⟩ := hagrees 4
  obtain ⟨-, -, -, -, -, h1, -⟩ := hagrees 1
  obtain ⟨h6, -⟩ := hagrees 6
  obtain ⟨-, -, -, -, h9, -⟩ := hagrees 9
  subst hcomputed
  refine ⟨honce, _, hindex, by decide +kernel, by decide +kernel, by decide +kernel, by decide +kernel, ?_,
    by decide +kernel, ?_, ?_, ?_⟩
  · rw [h4]; decide +kernel
  · rw [h1]; decide +kernel
  · rw [h6]; decide +kernel
  · rw [h9]; decide +kernel

end View

end Arbor
