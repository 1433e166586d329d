/-
Fewer fields, fewer nodes. A schema that lists for every kind only some of the fields of another one, in the same order, cuts
subtrees out of the walk, at any place and at any depth, and does nothing else: what is still visited is visited in the order
in which it was.

What the fields are said to hold does not matter; a walk reads the slots as they are.

- `Narrows.children`: the children through the narrower schema are some of the children, in their order.
- `PreOrder.sublist`: so are the pre-order lists. The induction is along the longer one: each node of it is either kept, and then
  its children are kept or dropped one by one, or dropped with all that is below it.
- `narrowing_only_removes`: counts, hits and nodes of a kind can only get fewer.
-/
import Mathlib.Data.List.Flatten
import Arbor.Proofs.Queries

namespace Arbor

/-- the first schema lists for every kind some of the fields that the second one lists, in the same order -/
def Schema.Narrows (narrow wide : Schema) : Prop :=
  ∀ kind, ((narrow.fieldsOf kind).map Field.name).Sublist ((wide.fieldsOf kind).map Field.name)

namespace Schema.Narrows

variable {narrow wide : Schema} {t : Tree}

theorem children (h : narrow.Narrows wide) (ref : NodeRef) :
    ((View.childrenOf ⟨t, narrow⟩ ref).map ChildSlot.node).Sublist
      ((View.childrenOf ⟨t, wide⟩ ref).map ChildSlot.node) := by
  rw [View.childrenOf, View.childrenOf, View.nodes_childrenIn, View.nodes_childrenIn]
  exact ((h ref.kind).filterMap _).flatMap _

theorem child (h : narrow.Narrows wide) {a b : NodeId} (hc : View.Child ⟨t, narrow⟩ a b) : View.Child ⟨t, wide⟩ a b := by
  obtain ⟨ref, hr, slot, hslot, rfl⟩ := hc
  obtain ⟨other, hother, hnode⟩ := List.mem_map.1 ((h.children ref).subset (List.mem_map.2 ⟨slot, hslot, rfl⟩))
  exact ⟨ref, hr, other, hother, hnode⟩

/-- whatever the narrower view reaches, the wider one reaches -/
theorem reaches (h : narrow.Narrows wide) {a b : NodeId} (hr : View.Reaches ⟨t, narrow⟩ a b) :
    View.Reaches ⟨t, wide⟩ a b :=
  Relation.ReflTransGen.mono (fun _ _ => h.child) a b hr

theorem ends (h : narrow.Narrows wide) {root : Option NodeId} (hends : View.Ends ⟨t, wide⟩ root) :
    View.Ends ⟨t, narrow⟩ root := by
  intro id hid
  obtain ⟨hacyclic, hwhole⟩ := hends id hid
  constructor
  · intro n hn hloop
    exact hacyclic n (h.reaches hn) (Relation.TransGen.mono (fun _ _ => h.child) n n hloop)
  · intro n hn
    exact hwhole n (h.reaches hn)

end Schema.Narrows

namespace View

/-- **Pre-order lists of a row and of a part of it.** -/
theorem PreOrder.sublist {narrow wide : Schema} (hn : narrow.Narrows wide) {t : Tree} {row : List NodeId}
    {all : List NodeRef} (h : PreOrder ⟨t, wide⟩ row all) :
    ∀ {kept : List NodeId} {few : List NodeRef}, kept.Sublist row → PreOrder ⟨t, narrow⟩ kept few → few.Sublist all := by
  induction h with
  | nil =>
    intro kept few hkept hfew
    rw [List.sublist_nil] at hkept
    subst hkept
    cases hfew
    exact List.Sublist.refl []
  | @cons id row ref below after hr _ _ ihbelow ihafter =>
    intro kept few hkept hfew
    cases hkept with
    | cons _ hrest =>
      -- the node is dropped, and all that is below it
      apply List.Sublist.cons
      exact (ihafter hrest hfew).trans (List.sublist_append_right below after)
    | cons_cons _ hrest =>
      cases hfew with
      | cons hr' hbelow hafter =>
        have hsame := Except.ok.inj (hr.symm.trans hr')
        subst hsame
        exact ((ihbelow (hn.children ref) hbelow).append (ihafter hrest hafter)).cons_cons ref

variable {t : Tree} {narrow wide : Schema} {root : Option NodeId}

/-- the visits through a narrower schema are some of the visits, in their order -/
theorem visits_sublist (hn : narrow.Narrows wide) (h : Ends ⟨t, wide⟩ root) :
    ((spots ⟨t, narrow⟩ root).map Spot.ref).Sublist ((spots ⟨t, wide⟩ root).map Spot.ref) := by
  have hfew := (preOrder_iff (hn.ends h) _).2 rfl
  have hall := (preOrder_iff h _).2 rfl
  exact hall.sublist hn (List.Sublist.refl _) hfew

theorem findAll_sublist (hn : narrow.Narrows wide) (h : Ends ⟨t, wide⟩ root) (p : NodeRef → Bool) :
    ∃ hits more, findAll ⟨t, narrow⟩ root p = .ok hits ∧ findAll ⟨t, wide⟩ root p = .ok more ∧ hits.Sublist more :=
  ⟨_, _, findAll_filter (hn.ends h) p, findAll_filter h p, ((visits_sublist hn h).filter p).map NodeRef.id⟩

/-- both views have the same names, so both give up or both search for the same symbol -/
theorem findByKind_sublist (hn : narrow.Narrows wide) (h : Ends ⟨t, wide⟩ root) (kind : String) :
    ∃ hits more, findByKind ⟨t, narrow⟩ root kind = .ok hits ∧ findByKind ⟨t, wide⟩ root kind = .ok more ∧
      hits.Sublist more := by
  unfold findByKind
  cases t.names.find? kind with
  | none => exact ⟨[], [], rfl, rfl, List.Sublist.refl []⟩
  | some symbol => exact findAll_sublist hn h _

/-- a walk below an acyclic root that met no fault has read all there is -/
theorem ends_of_nodes {v : View} {all : List NodeRef} (hacyclic : ∀ id ∈ root, v.Acyclic id)
    (hnodes : v.nodes root = .ok all) : v.Ends root := by
  cases root with
  | none => intro id hid; cases hid
  | some top =>
    have hloop := loop_walkFrom (fun ref (all : Array NodeRef) => (.descend, all.push ref)) [(top, v.tree.size)] #[]
      (by simpa using (hacyclic top rfl).fits)
    simp only [nodes, walk, bind, Except.bind, pure, Except.pure] at hnodes
    split at hnodes
    · cases hnodes
    · rename_i last hwalk
      rw [hwalk] at hloop
      exact hloop.ends.1

/-! ## Main result -/

/-- **Narrowing the schema only removes nodes.** For every tree, a schema that lists for every kind some of the fields of another
one in the same order, and every root, or none, below which no node lies below itself through the wider schema (shared nodes
allowed):
- the walk through the wider schema meets no fault if the tree was finished from a builder or loaded and the root is one of its
  nodes;
- if it meets none, the walk through the narrower schema meets none, and its pre-order list is a sublist of the other one; so are
  the hits of every search and the nodes of every kind, and the number of nodes is at most the other one. -/
theorem narrowing_only_removes (t : Tree) (narrow wide : Schema) (hn : narrow.Narrows wide) (root : Option NodeId)
    (hacyclic : ∀ id ∈ root, View.Acyclic ⟨t, wide⟩ id) :
    let less : View := ⟨t, narrow⟩
    let more : View := ⟨t, wide⟩
    (t.Built → (∀ id ∈ root, id < t.size) → ∃ all, more.nodes root = .ok all) ∧
    ∀ all, more.nodes root = .ok all → ∃ few, less.nodes root = .ok few ∧
      (∀ other, less.PreOrder root.toList other ↔ other = few) ∧ (∀ other, more.PreOrder root.toList other ↔ other = all) ∧
      few.Sublist all ∧
      less.countNodes root = .ok few.length ∧ more.countNodes root = .ok all.length ∧ few.length ≤ all.length ∧
      (∀ p : NodeRef → Bool, ∃ hits others, less.findAll root p = .ok hits ∧ more.findAll root p = .ok others ∧
        hits.Sublist others) ∧
      ∀ kind : String, ∃ hits others, less.findByKind root kind = .ok hits ∧ more.findByKind root kind = .ok others ∧
        hits.Sublist others := by
  intro less more
  constructor
  · intro ht hlt
    exact ⟨_, nodes_eq_spots (ht.ends wide fun id hid => ⟨hlt id hid, hacyclic id hid⟩)⟩
  · intro all hall
    have h : more.Ends root := ends_of_nodes hacyclic hall
    have hless : less.Ends root := hn.ends h
    have hsub := visits_sublist hn h
    cases Except.ok.inj (hall.symm.trans (nodes_eq_spots h))
    refine ⟨_, nodes_eq_spots hless, preOrder_iff hless, preOrder_iff h, hsub, ?_, ?_, hsub.length_le, findAll_sublist hn h,
      findByKind_sublist hn h⟩
    · rw [countNodes_eq hless, List.length_map]
    · rw [countNodes_eq h, List.length_map]

/-- lists with items only -/
def itemsOnly : Schema := ⟨fun kind => if kind = "List" then some [⟨"items", .optional⟩] else none⟩

/-- Without the heads, the name is met once instead of four times, between two visits of the list that holds it as its head. -/
theorem narrowing_only_removes_crossed :
    itemsOnly.Narrows sharedView.schema ∧ View.Acyclic ⟨crossedTree, sharedView.schema⟩ 0 ∧
    ∃ few all, View.nodes ⟨crossedTree, itemsOnly⟩ (some 0) = .ok few ∧
      View.nodes ⟨crossedTree, sharedView.schema⟩ (some 0) = .ok all ∧ few.Sublist all ∧
      few.map NodeRef.id = [0, 1, 3, 2, 4, 3] ∧ all.map NodeRef.id = [0, 1, 3, 4, 2, 4, 3, 4, 4] := by
  have hnarrows : itemsOnly.Narrows sharedView.schema := by
    intro kind
    by_cases hkind : kind = "List" <;> simp [Schema.fieldsOf, itemsOnly, sharedView, hkind]
  have hacyclic : View.Acyclic ⟨crossedTree, sharedView.schema⟩ 0 := acyclic_of_rising (by decide +kernel) 0
  have hends : View.Ends ⟨crossedTree, sharedView.schema⟩ (some 0) :=
    ends_some hacyclic (whole_of_closed (by decide +kernel) (by decide +kernel))
  obtain ⟨few, hfew, hlist, -, hsub, -⟩ :=
    (narrowing_only_removes crossedTree itemsOnly sharedView.schema hnarrows (some 0) fun id hid => by
      cases hid
      exact hacyclic).2 _ (nodes_eq_spots hends)
  have hvisits := (hlist _).1 ((preOrder_iff (hnarrows.ends hends) _).2 rfl)
  refine ⟨hnarrows, hacyclic, few, _, hfew, nodes_eq_spots hends, hsub, ?_, by decide +kernel⟩
  rw [← hvisits]
  decide +kernel

end View

end Arbor
