/-
Loaded ids are the order of the walk. A loader hands out ids as it meets the values; a walk finds its way through slots and
name lookups. If the walk uses the schema of the loader, and this lists no field twice, the two orders are one.

`Walks v tops base count` says it of a row of brothers: a walk over them meets the `count` ids from `base` on, in this order.
Rows are put together as blocks are (`Walks.append`, `Walks.node`), so the three rules of the layout give it for all blocks.

- `NodeAt.walks`: the block of a node is walked from its first record to its last.
- `ofValue_ids_preorder`: a walk over a loaded tree meets all ids from 0 on, each of them but 0 is held once, and slots
  lead onward.
-/
import Arbor.Proofs.Strict

namespace Arbor

open Json (Value)

/-! ## Children in the order of the slots -/

theorem Names.SpellsKeys.filterMap_find? {ν : Type} {names : Names} (hd : names.Distinct) {xs : Keyed Symbol ν}
    {ys : Keyed String ν} (h : names.SpellsKeys xs ys) : ys.keys.filterMap names.find? = xs.keys := by
  unfold Names.SpellsKeys at h
  induction h with
  | nil => rfl
  | @cons x y xs ys hxy _ ih =>
    have hfind : names.find? y.1 = some x.1 := (find?_eq_some_iff hd).2 hxy.1
    simpa [Keyed.keys, hfind] using ih

theorem flatMap_idsUnder_keys {κ : Type} [DecidableEq κ] {slots : Keyed κ Slot} (h : slots.keys.Nodup) :
    slots.keys.flatMap (idsUnder slots) = slotIds slots := by
  induction slots with
  | nil => rfl
  | cons p rest ih =>
    obtain ⟨hp, hrest⟩ := List.nodup_cons.1 h
    have hlater : (Keyed.keys rest).flatMap (idsUnder (p :: rest)) = (Keyed.keys rest).flatMap (idsUnder rest) := by
      apply List.flatMap_congr
      intro k hk
      have hne : p.1 ≠ k := fun heq => hp (heq ▸ hk)
      rw [idsUnder_cons, if_neg hne]
    have hfirst : idsUnder (p :: rest) p.1 = p.2.ids := by rw [idsUnder_cons, if_pos rfl]
    calc (Keyed.keys (p :: rest)).flatMap (idsUnder (p :: rest))
        = p.2.ids ++ (Keyed.keys rest).flatMap (idsUnder (p :: rest)) := by rw [← hfirst]; rfl
      _ = p.2.ids ++ slotIds rest := by rw [hlater, ih hrest]
      _ = slotIds (p :: rest) := rfl

namespace View

variable {v : View}

/-- a node with one slot for each field, in their order, has the children that its slots hold -/
theorem nodes_childrenOf (ref : NodeRef) {slots : Keyed String Slot} (hd : v.tree.names.Distinct)
    (hs : v.schema.Distinct) (hspelled : v.tree.names.SpellsKeys ref.node.slots slots)
    (hkeys : slots.keys = (v.schema.fieldsOf ref.kind).map Field.name) :
    (v.childrenOf ref).map ChildSlot.node = slotIds slots := by
  have hsymbols : slots.keys.filterMap v.tree.names.find? = Keyed.keys ref.node.slots := hspelled.filterMap_find? hd
  have hnodup : (Keyed.keys ref.node.slots).Nodup := by
    rw [← hsymbols, hkeys]
    exact Names.nodup_filterMap_find? hd (hs ref.kind)
  rw [childrenOf, nodes_childrenIn, ← hkeys, hsymbols, flatMap_idsUnder_keys hnodup]
  exact slotIds_eq hspelled

/-! ## Rows -/

theorem Unfolds.append {first rest : List Seat} {left right : Forest} (h : v.Unfolds first left)
    (hright : v.Unfolds rest right) (hr : right.Unbroken) :
    left.Unbroken → ∃ forest, v.Unfolds (first ++ rest) forest ∧ forest.Unbroken ∧ forest.refs = left.refs ++ right.refs := by
  induction h with
  | nil => intro _; exact ⟨right, hright, hr, rfl⟩
  | broken _ => intro hl; exact absurd hl id
  | cons href hbelow _ _ ihnext =>
    intro hl
    obtain ⟨next, hnext, hn, hrefs⟩ := ihnext hl.2
    refine ⟨_, .cons href hbelow hnext, ⟨hl.1, hn⟩, ?_⟩
    simp [Forest.refs, hrefs]

/-- brothers with these ids, however they are seated, are walked as the `count` ids from `base` on -/
def Walks (v : View) (tops : List NodeId) (base count : Nat) : Prop :=
  ∀ row : List Seat, row.map Seat.node = tops →
    ∃ forest, v.Unfolds row forest ∧ forest.Unbroken ∧ forest.refs.map NodeRef.id = List.range' base count

namespace Walks

theorem nil (v : View) (base : Nat) : v.Walks [] base 0 := by
  intro row hrow
  rw [List.map_eq_nil_iff] at hrow
  subst hrow
  exact ⟨.nil, .nil, trivial, rfl⟩

theorem append {tops more : List NodeId} {base m n : Nat} (htops : v.Walks tops base m)
    (hmore : v.Walks more (base + m) n) : v.Walks (tops ++ more) base (m + n) := by
  intro row hrow
  obtain ⟨first, rest, rfl, hfirst, hrest⟩ := List.map_eq_append_iff.1 hrow
  obtain ⟨left, hleft, hl, hlids⟩ := htops first hfirst
  obtain ⟨right, hright, hr, hrids⟩ := hmore rest hrest
  obtain ⟨forest, hforest, hf, hrefs⟩ := hleft.append hright hr hl
  refine ⟨forest, hforest, hf, ?_⟩
  rw [hrefs, List.map_append, hlids, hrids, List.range'_append_1]

theorem node {base count : Nat} {ref : NodeRef} (href : v.tree.ref base = .ok ref)
    (hbelow : v.Walks ((v.childrenOf ref).map ChildSlot.node) (base + 1) count) : v.Walks [base] base (count + 1) := by
  intro row hrow
  obtain ⟨seat, rest, rfl, hseat, hrest⟩ := List.map_eq_cons_iff.1 hrow
  rw [List.map_eq_nil_iff] at hrest
  subst hrest
  obtain ⟨below, hunfolds, hb, hids⟩ := hbelow _ (nodes_seats v ref)
  refine ⟨_, .cons (hseat.symm ▸ href) hunfolds .nil, ⟨hb, trivial⟩, ?_⟩
  simp only [Forest.refs, List.append_nil, List.map_cons, hids, Tree.ref_id href]
  exact List.range'_succ.symm

end Walks

end View

/-! ## Blocks -/

mutual

/-- **The block of a node is walked from its first record to its last.** -/
theorem NodeAt.walks {schema : Schema} (hs : schema.Distinct) {base : Nat} {value : Value} {fresh : List Record}
    (h : NodeAt schema base value fresh) {t : Tree} (ht : t.Holds base fresh) :
    View.Walks ⟨t, schema⟩ [base] base fresh.length := by
  match h with
  | @NodeAt.node _ _ _ kind _ placed _ _ _ hslots =>
    obtain ⟨records, hreads, hfirst⟩ := ht.first
    obtain ⟨n, href, hspelled⟩ := hreads.ref hfirst
    have hdistinct : (Keyed.keys placed).Nodup := hslots.keys ▸ hs kind
    have hplaced : Keyed.putAll [] placed = placed := Keyed.putAll_nil_of_nodup hdistinct
    have hchildren := View.nodes_childrenOf (v := ⟨t, schema⟩) ⟨base, kind, n⟩ hreads.distinct hs hspelled.slots
      (by rw [hplaced]; exact hslots.keys)
    refine View.Walks.node href ?_
    rw [hchildren, hplaced]
    exact hslots.walks hs ht.rest

theorem SlotsAt.walks {schema : Schema} (hs : schema.Distinct) {members : List (String × Value)} {base : Nat}
    {fields : List Field} {placed : List (String × Slot)} {fresh : List Record}
    (h : SlotsAt schema members base fields placed fresh) {t : Tree} (ht : t.Holds base fresh) :
    View.Walks ⟨t, schema⟩ (slotIds placed) base fresh.length := by
  match h with
  | .done => exact .nil _ base
  | .absent _ hrest => simpa [slotIds, ids_absentSlot] using hrest.walks hs ht
  | .child _ hsub hrest =>
    simpa [slotIds, ids_presentSlot] using (hsub.walks hs ht.left).append (hrest.walks hs ht.right)
  | .array _ hsub hrest =>
    simpa [slotIds, Slot.ids_sequence] using (hsub.walks hs ht.left).append (hrest.walks hs ht.right)

theorem ItemsAt.walks {schema : Schema} (hs : schema.Distinct) {base : Nat} {values : List Value}
    {ids : List (Option NodeId)} {fresh : List Record} (h : ItemsAt schema base values ids fresh) {t : Tree}
    (ht : t.Holds base fresh) : View.Walks ⟨t, schema⟩ ids.reduceOption base fresh.length := by
  match h with
  | .done => exact .nil _ base
  | .hole hrest => simpa using hrest.walks hs ht
  | .item hsub hrest => simpa using (hsub.walks hs ht.left).append (hrest.walks hs ht.right)

end

/-! ## Main result -/

theorem Tree.mem_heldIds_iff {t : Tree} {child : NodeId} : child ∈ t.heldIds ↔ ∃ parent, t.HeldBy parent child := by
  unfold Tree.heldIds Tree.HeldBy
  rw [List.mem_flatMap]
  constructor
  · rintro ⟨n, hn, hchild⟩
    obtain ⟨parent, hparent⟩ := List.getElem?_of_mem hn
    exact ⟨parent, n, by simpa using hparent, hchild⟩
  · rintro ⟨parent, n, hn, hchild⟩
    exact ⟨n, by simpa using Array.mem_of_getElem? hn, hchild⟩

/-- In a strict tree where the walk from 0 meets every id, every id but 0 is held once: it is met as a child. -/
theorem Tree.Strict.count_heldIds {v : View} (ht : v.tree.Strict) (hs : v.schema.Distinct)
    (hall : ∀ id : Nat, id < v.tree.size → v.Reaches 0 id) (id : Nat) :
    v.tree.heldIds.count id = if id ≠ 0 ∧ id < v.tree.size then 1 else 0 := by
  split_ifs with hid
  · apply List.count_eq_one_of_mem ht.once
    rw [Tree.mem_heldIds_iff]
    rcases Relation.ReflTransGen.cases_tail (hall id hid.2) with heq | ⟨parent, -, hc⟩
    · exact absurd heq hid.1
    · exact ⟨parent, hc.heldBy ht.distinct hs⟩
  · apply List.count_eq_zero_of_not_mem
    rw [Tree.mem_heldIds_iff]
    rintro ⟨parent, hheld⟩
    have honward := ht.onward parent id hheld
    omega

namespace View

/-- a walk that notes the ids it meets -/
theorem walk_note_ids {v : View} {root : NodeId} (h : v.Acyclic root) {forest : Forest}
    (hu : v.Unfolds [Seat.top root] forest) (hf : forest.Unbroken) :
    v.walk (some root) (fun ref ids => (.descend, ids ++ [ref.id])) [] = .ok (forest.refs.map NodeRef.id) := by
  obtain ⟨hend, hstate⟩ := forest.recurse_descend (fun ref ids => ids ++ [ref.id]) hf [] []
  have hids : forest.refs.foldl (fun ids ref => ids ++ [ref.id]) [] = forest.refs.map NodeRef.id := by
    rw [List.foldl_append_eq_append, List.nil_append, ← List.flatMap_def]
    exact List.map_eq_flatMap.symm
  rw [walk_eq_walkPath, walkPath_eq_recurse h hu, Outcome.result, hend, hstate, hids]

/-- **Loaded ids are the pre-order, and nothing stored is unreachable.** If a value loads with a schema that lists no field
twice:
- the root is node 0;
- the walk from the root with this schema, and its loop with no bound on the rounds, meets 0, 1, 2 and so on to the last
  node of the arena, in this order;
- every id of the arena but 0 is held in exactly one place of all slots, and no other id is held;
- whatever a node holds has a greater id than the node. -/
theorem ofValue_ids_preorder (schema : Schema) (hs : schema.Distinct) (value : Value) (t : Tree)
    (h : Tree.ofValue schema value = .ok t) :
    let view : View := ⟨t, schema⟩
    let note : NodeRef → List NodeId → Visit × List NodeId := fun ref ids => (.descend, ids ++ [ref.id])
    t.root = some 0 ∧
    view.walk t.root note [] = .ok (List.range t.size) ∧
    view.Loop note [0] [] (.ok (List.range t.size)) ∧
    (∀ id : Nat, t.heldIds.count id = if id ≠ 0 ∧ id < t.size then 1 else 0) ∧
    ∀ parent child : Nat, t.HeldBy parent child → parent < child := by
  intro view note
  have ht : view.tree.Strict := strict_of_ofValue h
  obtain ⟨hroot, records, hlaid, hreads⟩ := ofValue_lays h
  have hsize : t.size = records.length := hreads.size_eq
  have hacyclic : view.Acyclic 0 := acyclic_of_strict ht hs 0
  obtain ⟨forest, hu, hf, hids⟩ := hlaid.walks hs ⟨[], [], rfl, by simpa using hreads⟩ [Seat.top 0] rfl
  rw [← hsize, ← List.range_eq_range'] at hids
  have hwalk : view.walk (some 0) note [] = .ok (List.range t.size) := by
    rw [← hids]
    exact walk_note_ids hacyclic hu hf
  have hall : ∀ id : Nat, id < t.size → view.Reaches 0 id := by
    intro id hid
    have hmem : id ∈ forest.refs.map NodeRef.id := hids ▸ List.mem_range.2 hid
    obtain ⟨ref, hm, rfl⟩ := List.mem_map.1 hmem
    obtain ⟨-, seat, hseat, hreach⟩ := hu.reaches ref hm
    rw [List.mem_singleton] at hseat
    subst hseat
    exact hreach
  refine ⟨hroot, hroot ▸ hwalk, ?_, fun id => ht.count_heldIds hs hall id, fun parent child hheld => ?_⟩
  · rw [← hwalk]
    exact loop_walkFrom note [(0, t.size)] [] (by simpa using hacyclic.fits)
  · exact (ht.onward parent child hheld).1

/-- the items were loaded before the head, though the object lists the head first -/
theorem ofValue_ids_preorder_list :
    listSchema.Distinct ∧ Tree.ofValue listSchema listValue = .ok listTree ∧
    View.walk ⟨listTree, listSchema⟩ listTree.root (fun ref ids => (.descend, ids ++ [ref.id])) [] = .ok [0, 1, 2] ∧
    listTree.heldIds = [1, 2] ∧ listTree.heldIds.count 2 = 1 := by
  obtain ⟨-, hwalk, -, hheld, -⟩ :=
    ofValue_ids_preorder listSchema listSchema_distinct listValue listTree ofValue_listValue
  exact ⟨listSchema_distinct, ofValue_listValue, hwalk, by decide, hheld 2⟩

end View

end Arbor
