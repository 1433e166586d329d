/-
Siblings. The question walks to a node, takes the parent and the field from the context of the visit, and reads the slot of
that name again; two nodes of one sequence are found by two walks that end at different places. Where no node is visited twice
the context of a visit and the slot that holds the node are the same thing (`link_iff`), and all that is said about siblings
follows from there.

What the schema says a field holds plays no part: a sequence in a field for one child has siblings, and a single child in a
field for many has none.

- `Unfolds.hangs`: every child of a visited node is visited below it, in the field and at the index that hold it.
- `VisitsOnce.link_iff`: the link of a node names the one slot that holds it in view of the root.
- `VisitsOnce.place_unique`: that slot holds it at one place only, so leaving out the node leaves out this place.
- `siblings_rest_of_sequence`: the siblings of a node are the rest of its own sequence.
-/
import Arbor.Proofs.FirstSpots

namespace Arbor

/-- a symbol that was looked up stands for the string again -/
theorem Names.resolve?_of_find? {names : Names} {s : String} {symbol : Symbol} (h : names.find? s = some symbol) :
    names.resolve? symbol = some s := by
  obtain ⟨strings⟩ := names
  obtain ⟨strings⟩ := strings
  rw [find?, List.idxOf?_toArray, List.idxOf?_eq_some_iff] at h
  obtain ⟨hlt, hs, -⟩ := h
  rw [resolve?, List.getElem?_toArray, List.getElem?_eq_some_iff]
  exact ⟨hlt, hs⟩

namespace View

variable {v : View} {root : Option NodeId}

/-! ## Every child has a spot -/

theorem Unfolds.spot_of_seat {row : List Seat} {forest : Forest} (h : v.Unfolds row forest) (hu : forest.Unbroken)
    (path : List NodeId) :
    ∀ seat ∈ row, ∃ x ∈ forest.spots path, x.ref.id = seat.node ∧ x.context = ⟨path.toArray, seat.field, seat.index⟩ := by
  induction h with
  | nil => intro seat hseat; cases hseat
  | broken _ => exact absurd hu id
  | @cons first rest ref below next hr _ _ _ ihnext =>
    intro seat hseat
    rcases List.mem_cons.1 hseat with rfl | hseat
    · exact ⟨_, List.mem_cons_self, Tree.ref_id hr, rfl⟩
    · obtain ⟨x, hx, hid, hctx⟩ := ihnext hu.2 seat hseat
      exact ⟨x, List.mem_cons_of_mem _ (List.mem_append_right _ hx), hid, hctx⟩

/-- **Every child of a visited node is visited below it.** This is `Unfolds.spots_cases` the other way round. -/
theorem Unfolds.hangs {row : List Seat} {forest : Forest} (h : v.Unfolds row forest) (hu : forest.Unbroken) :
    ∀ (path : List NodeId), ∀ y ∈ forest.spots path, ∀ slot ∈ v.childrenOf y.ref, ∃ x ∈ forest.spots path,
      x.ref.id = slot.node ∧ x.context = ⟨y.context.ancestors.push y.ref.id, some slot.field, slot.index⟩ := by
  induction h with
  | nil => intro path y hy; simp [Forest.spots] at hy
  | broken _ => exact absurd hu id
  | @cons seat rest ref below next hr hbelow _ ihbelow ihnext =>
    intro path y hy slot hslot
    simp only [Forest.spots, List.mem_cons, List.mem_append] at hy ⊢
    rcases hy with rfl | hy | hy
    · -- the node itself: its children are the row below it
      obtain ⟨x, hx, hid, hctx⟩ := hbelow.spot_of_seat hu.1 (path ++ [ref.id]) (Seat.ofSlot slot) (mem_seats.2 ⟨slot, hslot, rfl⟩)
      exact ⟨x, .inr (.inl hx), hid, by simpa [Seat.ofSlot] using hctx⟩
    · obtain ⟨x, hx, hhang⟩ := ihbelow hu.1 (path ++ [ref.id]) y hy slot hslot
      exact ⟨x, .inr (.inl hx), hhang⟩
    · obtain ⟨x, hx, hhang⟩ := ihnext hu.2 path y hy slot hslot
      exact ⟨x, .inr (.inr hx), hhang⟩

section Ends

variable (h : v.Ends root)
include h

theorem exists_child_spot {y : Spot} (hy : y ∈ v.spots root) {slot : ChildSlot} (hslot : slot ∈ v.childrenOf y.ref) :
    ∃ x ∈ v.spots root, x.ref.id = slot.node ∧ ParentIndex.linkOf x.context = some ⟨y.ref.id, slot.field, slot.index⟩ := by
  cases root with
  | none => simp [spots] at hy
  | some top =>
    obtain ⟨x, hx, hid, hctx⟩ := (h top rfl).1.unfolds.hangs h.unbroken [] y hy slot hslot
    refine ⟨x, hx, hid, ?_⟩
    rw [hctx]
    simp [ParentIndex.linkOf, Context.parent?]

/-- the root is visited, and no field holds it there -/
theorem exists_root_spot {top : NodeId} (htop : root = some top) :
    ∃ x ∈ v.spots root, x.ref.id = top ∧ ParentIndex.linkOf x.context = none := by
  subst htop
  obtain ⟨x, hx, hid, hctx⟩ := (h top rfl).1.unfolds.spot_of_seat h.unbroken [] (Seat.top top) (by simp)
  refine ⟨x, hx, hid, ?_⟩
  rw [hctx]
  rfl

/-- the visited nodes are those that the root reaches -/
theorem reaches_iff_spot {n : NodeId} : (∃ top ∈ root, v.Reaches top n) ↔ ∃ x ∈ v.spots root, x.ref.id = n := by
  cases root with
  | none => simp [spots]
  | some top =>
    obtain ⟨hacyclic, hwhole⟩ := h top rfl
    have hmem := hacyclic.unfolds.mem_refs hwhole
    constructor
    · rintro ⟨other, hother, hreach⟩
      cases hother
      obtain ⟨ref, hr⟩ := hwhole n hreach
      have hid := Tree.ref_id hr
      subst hid
      have hm := (hmem ref).2 ⟨hreach, hr⟩
      rw [← Forest.map_ref_spots _ []] at hm
      obtain ⟨x, hx, rfl⟩ := List.mem_map.1 hm
      exact ⟨x, hx, rfl⟩
    · rintro ⟨x, hx, rfl⟩
      have hm : x.ref ∈ (v.unfolding top).refs := by
        rw [← Forest.map_ref_spots _ []]
        exact List.mem_map.2 ⟨x, hx, rfl⟩
      exact ⟨top, rfl, ((hmem x.ref).1 hm).1⟩

end Ends

/-! ## Slots in view -/

/-- the parent is reached from the root and has the slot under a name that the schema lists for its kind -/
def Shows (v : View) (root : Option NodeId) (parent : NodeId) (field : String) (slot : Slot) : Prop :=
  (∃ top ∈ root, v.Reaches top parent) ∧ ∃ ref, v.tree.ref parent = .ok ref ∧
    field ∈ (v.schema.fieldsOf ref.kind).map Field.name ∧ v.tree.slot parent field = .ok (some slot)

theorem slot_eq_ok_iff {t : Tree} {id : NodeId} {ref : NodeRef} (hr : t.ref id = .ok ref) {field : String} {slot : Slot} :
    t.slot id field = .ok (some slot) ↔ t.slotOf? ref.node field = some slot := by
  have hnode : t.nodes[id]? = some ref.node := node_of_ref (v := ⟨t, ⟨fun _ => none⟩⟩) hr
  simp [Tree.slot, Tree.node, hnode, bind, Except.bind, pure, Except.pure]

/-- the name of a slot in view is a name of the tree, and its symbol is read back as the same name -/
theorem Shows.field_resolves {parent : NodeId} {field : String} {slot : Slot} (h : v.Shows root parent field slot) :
    (v.tree.names.find? field).bind v.tree.names.resolve? = some field := by
  obtain ⟨-, ref, hr, -, hslot⟩ := h
  rw [slot_eq_ok_iff hr, Tree.slotOf?, Option.bind_eq_some_iff] at hslot
  obtain ⟨symbol, hfind, -⟩ := hslot
  rw [hfind]
  exact Names.resolve?_of_find? hfind

namespace VisitsOnce

variable (h : v.VisitsOnce root)
include h

theorem link_of_spot {x : Spot} (hx : x ∈ v.spots root) :
    ((v.spot? root x.ref.id).bind fun y => ParentIndex.linkOf y.context) = ParentIndex.linkOf x.context := by
  rw [h.spot?_eq hx]
  rfl

/-- **The link of a node names the slot that holds it**, and there is no other one in view. -/
theorem link_iff {m parent : NodeId} {field : String} {index : Option Nat} :
    ((v.spot? root m).bind fun x => ParentIndex.linkOf x.context) = some ⟨parent, field, index⟩ ↔
      ∃ slot, v.Shows root parent field slot ∧ slot.Holds index m := by
  constructor
  · intro hlink
    obtain ⟨x, hfind, hlink⟩ := Option.bind_eq_some_iff.1 hlink
    have hx : x ∈ v.spots root := List.mem_of_find?_eq_some hfind
    have hid : x.ref.id = m := by simpa using List.find?_some hfind
    rcases spots_cases h.ends hx with ⟨-, hctx⟩ | ⟨y, hy, hhang⟩
    · rw [hctx] at hlink
      cases hlink
    · obtain ⟨child, hchild, hnode, -, hlinkOf⟩ := hhang.linkOf
      rw [hlinkOf] at hlink
      cases hlink
      have hr := ref_of_spot h.ends hy
      obtain ⟨hname, slot, hslot, hholds⟩ := mem_childrenIn.1 hchild
      refine ⟨slot, ⟨(reaches_iff_spot h.ends).2 ⟨y, hy, rfl⟩, y.ref, hr, hname, (slot_eq_ok_iff hr).2 hslot⟩, ?_⟩
      rw [← hid, hnode]
      exact hholds
  · rintro ⟨slot, ⟨hreach, ref, hr, hname, hslot⟩, hholds⟩
    obtain ⟨y, hy, hid⟩ := (reaches_iff_spot h.ends).1 hreach
    have hsame : y.ref = ref := by
      have hr' := ref_of_spot h.ends hy
      rw [hid, hr] at hr'
      exact (Except.ok.inj hr').symm
    have hchild : ⟨field, index, m⟩ ∈ v.childrenOf y.ref := by
      rw [hsame]
      exact mem_childrenIn.2 ⟨hname, slot, (slot_eq_ok_iff hr).1 hslot, hholds⟩
    obtain ⟨x, hx, hxid, hlink⟩ := exists_child_spot h.ends hy hchild
    subst hxid
    rw [h.link_of_spot hx, hlink, hid]

/-- a sequence in view holds no node at two places -/
theorem place_unique {parent : NodeId} {field : String} {items : List (Option NodeId)}
    (hshows : v.Shows root parent field (.sequence items)) {i j : Nat} {m : NodeId} (hi : items[i]? = some (some m))
    (hj : items[j]? = some (some m)) : i = j := by
  have hleft := h.link_iff.2 ⟨_, hshows, (show (Slot.sequence items).Holds (some i) m from hi)⟩
  have hright := h.link_iff.2 ⟨_, hshows, (show (Slot.sequence items).Holds (some j) m from hj)⟩
  rw [hleft] at hright
  cases hright
  rfl

end VisitsOnce

/-! ## Siblings -/

/-- the siblings of a node as its first spot has them -/
def siblings (v : View) (root : Option NodeId) (m : NodeId) : List NodeId :=
  match (v.spot? root m).bind fun x => ParentIndex.linkOf x.context with
  | some ⟨parent, field, some _⟩ => v.tree.neighbours parent field m
  | _ => []

/-- a node whose link has no index, or that has no link, has no siblings -/
theorem siblings_eq_nil_of_link {m : NodeId}
    (hlink : ∀ parent field i, ((v.spot? root m).bind fun x => ParentIndex.linkOf x.context) ≠ some ⟨parent, field, some i⟩) :
    v.siblings root m = [] := by
  unfold siblings
  split
  · rename_i parent field i hsome
    exact absurd hsome (hlink parent field i)
  · rfl

namespace VisitsOnce

variable (h : v.VisitsOnce root)
include h

theorem siblings_of_shows {parent : NodeId} {field : String} {items : List (Option NodeId)}
    (hshows : v.Shows root parent field (.sequence items)) {m : NodeId} (hm : some m ∈ items) :
    v.siblings root m = items.reduceOption.filter fun id => id != m := by
  obtain ⟨i, hi⟩ := List.mem_iff_getElem?.1 hm
  have hlink := h.link_iff.2 ⟨_, hshows, (show (Slot.sequence items).Holds (some i) m from hi)⟩
  obtain ⟨-, ref, hr, -, hslot⟩ := hshows
  rw [slot_eq_ok_iff hr] at hslot
  rw [siblings, hlink]
  simp only [Tree.neighbours, node_of_ref hr, Option.bind_some, hslot]

/-- a node has a place in a sequence, or it has no siblings -/
theorem siblings_cases (m : NodeId) :
    (∃ parent field items, v.Shows root parent field (.sequence items) ∧ some m ∈ items) ∨ v.siblings root m = [] := by
  by_cases hlink : ∃ parent field i,
      ((v.spot? root m).bind fun x => ParentIndex.linkOf x.context) = some ⟨parent, field, some i⟩
  · obtain ⟨parent, field, i, hlink⟩ := hlink
    obtain ⟨slot, hshows, hholds⟩ := h.link_iff.1 hlink
    cases slot with
    | node child => cases hholds
    | optional child => cases hholds
    | sequence items => exact .inl ⟨parent, field, items, hshows, List.mem_of_getElem? hholds⟩
  · right
    apply siblings_eq_nil_of_link
    intro parent field i hsome
    exact hlink ⟨parent, field, i, hsome⟩

/-- what the siblings of a node are, wherever it is held -/
theorem mem_siblings_iff {m n : NodeId} :
    n ∈ v.siblings root m ↔ m ≠ n ∧ ∃ parent field items, v.Shows root parent field (.sequence items) ∧
      some m ∈ items ∧ some n ∈ items := by
  constructor
  · intro hn
    rcases h.siblings_cases m with ⟨parent, field, items, hshows, hm⟩ | hnil
    · rw [h.siblings_of_shows hshows hm, List.mem_filter, List.reduceOption_mem_iff, bne_iff_ne] at hn
      exact ⟨hn.2.symm, parent, field, items, hshows, hm, hn.1⟩
    · rw [hnil] at hn
      cases hn
  · rintro ⟨hne, parent, field, items, hshows, hm, hn⟩
    rw [h.siblings_of_shows hshows hm, List.mem_filter, List.reduceOption_mem_iff, bne_iff_ne]
    exact ⟨hn, hne.symm⟩

/-- the present elements of a sequence in view are different nodes -/
theorem nodup_items {parent : NodeId} {field : String} {items : List (Option NodeId)}
    (hshows : v.Shows root parent field (.sequence items)) : items.reduceOption.Nodup := by
  rw [List.reduceOption, List.Nodup, List.pairwise_filterMap, List.pairwise_iff_getElem]
  intro i j hi hj hij m hm n hn heq
  subst heq
  have hsame := h.place_unique hshows (List.getElem?_eq_some_iff.2 ⟨hi, hm⟩) (List.getElem?_eq_some_iff.2 ⟨hj, hn⟩)
  omega

theorem nodup_siblings (m : NodeId) : (v.siblings root m).Nodup := by
  rcases h.siblings_cases m with ⟨parent, field, items, hshows, hm⟩ | hnil
  · rw [h.siblings_of_shows hshows hm]
    exact (h.nodup_items hshows).filter _
  · rw [hnil]
    exact List.nodup_nil

/-- **The siblings are what stands before the node and what stands after it**, without the holes. -/
theorem siblings_of_place {parent : NodeId} {field : String} {items : List (Option NodeId)}
    (hshows : v.Shows root parent field (.sequence items)) {i : Nat} {m : NodeId} (hi : items[i]? = some (some m)) :
    v.siblings root m = (items.take i).reduceOption ++ (items.drop (i + 1)).reduceOption ∧
    items.reduceOption = (items.take i).reduceOption ++ m :: (items.drop (i + 1)).reduceOption := by
  obtain ⟨hlt, hget⟩ := List.getElem?_eq_some_iff.1 hi
  have hsplit : items.reduceOption = (items.take i).reduceOption ++ m :: (items.drop (i + 1)).reduceOption := by
    calc items.reduceOption
        = (items.take i ++ items.drop i).reduceOption := by rw [List.take_append_drop]
      _ = (items.take i ++ some m :: items.drop (i + 1)).reduceOption := by rw [List.drop_eq_getElem_cons hlt, hget]
      _ = (items.take i).reduceOption ++ m :: (items.drop (i + 1)).reduceOption := by
        rw [List.reduceOption_append, List.reduceOption_cons_of_some]
  have hnodup := h.nodup_items hshows
  have hbefore : m ∉ (items.take i).reduceOption := by
    rw [hsplit, List.nodup_middle, List.nodup_cons] at hnodup
    exact fun hm => hnodup.1 (List.mem_append_left _ hm)
  refine ⟨?_, hsplit⟩
  calc v.siblings root m
      = items.reduceOption.filter (fun id => id != m) := h.siblings_of_shows hshows (List.mem_of_getElem? hi)
    _ = items.reduceOption.erase m := (hnodup.erase_eq_filter m).symm
    _ = (items.take i).reduceOption ++ (items.drop (i + 1)).reduceOption := by
      rw [hsplit, List.erase_append_right _ hbefore, List.erase_cons_head]

end VisitsOnce

/-! ## Main result -/

/-- **The siblings of a node are the rest of its own sequence.** For every tree, schema and root, or none, from which the walk
ends and visits no node twice, every node, of the arena or not, has a list of siblings, and:
- two nodes are siblings of each other, or neither is one of the other's; they are if and only if they are different and one
  sequence holds both, in a node that the root reaches and under a name that the schema lists for its kind;
- no sibling is listed twice;
- for a node at a place of such a sequence the list is what stands before this place and what stands after it, in the order of
  the sequence and without its holes; with the node put between them it is all that the sequence holds;
- the root has none, a child that a slot holds alone has none, and a node that the root does not reach has none;
- the symbol of the name under which such a slot is looked up again reads back as this name. -/
theorem siblings_rest_of_sequence (v : View) (root : Option NodeId) (h : v.VisitsOnce root) :
    ∃ siblings : NodeId → List NodeId, (∀ m, v.siblingsOf root m = .ok (siblings m)) ∧
      (∀ m n, n ∈ siblings m ↔ m ∈ siblings n) ∧
      (∀ m n, n ∈ siblings m ↔ m ≠ n ∧ ∃ parent field items, v.Shows root parent field (.sequence items) ∧
        some m ∈ items ∧ some n ∈ items) ∧
      (∀ m, (siblings m).Nodup) ∧
      (∀ parent field items i m, v.Shows root parent field (.sequence items) → items[i]? = some (some m) →
        siblings m = (items.take i).reduceOption ++ (items.drop (i + 1)).reduceOption ∧
        items.reduceOption = (items.take i).reduceOption ++ m :: (items.drop (i + 1)).reduceOption) ∧
      (∀ m, root = some m → siblings m = []) ∧
      (∀ parent field slot m, v.Shows root parent field slot → slot.Holds none m → siblings m = []) ∧
      (∀ m, (¬ ∃ top ∈ root, v.Reaches top m) → siblings m = []) ∧
      ∀ parent field slot, v.Shows root parent field slot →
        (v.tree.names.find? field).bind v.tree.names.resolve? = some field := by
  refine ⟨v.siblings root, fun m => siblingsOf_eq h.ends m, ?_, fun m n => h.mem_siblings_iff, h.nodup_siblings, ?_, ?_, ?_, ?_,
    fun parent field slot => Shows.field_resolves⟩
  · intro m n
    rw [h.mem_siblings_iff, h.mem_siblings_iff]
    constructor
    · rintro ⟨hne, parent, field, items, hshows, hm, hn⟩
      exact ⟨hne.symm, parent, field, items, hshows, hn, hm⟩
    · rintro ⟨hne, parent, field, items, hshows, hn, hm⟩
      exact ⟨hne.symm, parent, field, items, hshows, hm, hn⟩
  · intro parent field items i m hshows hi
    exact h.siblings_of_place hshows hi
  · intro m hroot
    obtain ⟨x, hx, rfl, hnone⟩ := exists_root_spot h.ends hroot
    apply siblings_eq_nil_of_link
    intro parent field i hsome
    rw [h.link_of_spot hx, hnone] at hsome
    cases hsome
  · intro parent field slot m hshows hholds
    have hlink := h.link_iff.2 ⟨slot, hshows, hholds⟩
    apply siblings_eq_nil_of_link
    intro parent' field' i hsome
    rw [hlink] at hsome
    cases hsome
  · intro m hnot
    have hnone : v.spot? root m = none := by
      rw [spot?, List.find?_eq_none]
      intro x hx hid
      exact hnot ((reaches_iff_spot h.ends).2 ⟨x, hx, eq_of_beq hid⟩)
    apply siblings_eq_nil_of_link
    intro parent field i hsome
    rw [hnone] at hsome
    cases hsome

/-- the nested lists through a schema that expects one child among the items and many in the head -/
def crosswiseView : View :=
  ⟨nestedTree, ⟨fun kind => if kind = "List" then some [⟨"items", .optional⟩, ⟨"head", .many⟩] else none⟩⟩

/-- Between the nodes 1 and 2 of the first sequence there is a hole; the inner list holds two names in a sequence and a third one
alone. -/
theorem siblings_rest_of_sequence_nested :
    let view := crosswiseView
    view.VisitsOnce (some 0) ∧ view.Shows (some 0) 0 "items" (.sequence [some 1, none, some 2]) ∧
      view.siblingsOf (some 0) 1 = .ok [2] ∧ view.siblingsOf (some 0) 2 = .ok [1] ∧
      view.siblingsOf (some 0) 0 = .ok [] ∧ view.siblingsOf (some 0) 5 = .ok [] ∧ view.siblingsOf (some 0) 6 = .ok [] := by
  intro view
  have honce : view.VisitsOnce (some 0) :=
    visitsOnce_of_nodup (acyclic_of_rising (by decide +kernel) 0) (by cbv) (by decide +kernel)
  have hroot : ∃ top ∈ some 0, view.Reaches top 0 := ⟨0, rfl, .refl⟩
  have hinner : ∃ top ∈ some 0, view.Reaches top 2 :=
    (reaches_iff_spot honce.ends).2 (by decide +kernel)
  have hitems : view.Shows (some 0) 0 "items" (.sequence [some 1, none, some 2]) :=
    ⟨hroot, _, rfl, by decide +kernel, by decide +kernel⟩
  have hhead : view.Shows (some 0) 2 "head" (.node 5) := ⟨hinner, _, rfl, by decide +kernel, by decide +kernel⟩
  have hout : ¬ ∃ top ∈ some 0, view.Reaches top 6 := mt (reaches_iff_spot honce.ends).1 (by decide +kernel)
  obtain ⟨siblings, hsiblings, -, -, -, hplace, htop, hsingle, hunreached, -⟩ :=
    siblings_rest_of_sequence view (some 0) honce
  refine ⟨honce, hitems, ?_, ?_, ?_, ?_, ?_⟩
  · rw [hsiblings, (hplace _ _ _ 0 1 hitems rfl).1]
    rfl
  · rw [hsiblings, (hplace _ _ _ 2 2 hitems rfl).1]
    rfl
  · rw [hsiblings, htop 0 rfl]
  · rw [hsiblings, hsingle _ _ _ 5 hhead rfl]
  · rw [hsiblings, hunreached 6 hout]

end View

end Arbor
