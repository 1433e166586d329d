/-
Loaded arenas are strict: every id sits in one slot at most, and slots lead onward in the arena. This is a fact about the
arena alone; it holds whatever schema the tree was loaded with, also one that lists a field twice (the second write then
takes the slot, and the subtree of the first stays in the arena with nobody holding it).

`Block base tops records` says it of a stretch of the arena whose tops are held from outside. Blocks are put together as a
loader puts them together: `Block.append` for brothers, `Block.node` for a node above its children.

A strict arena is read well through every schema that lists no field twice, from every node on:
- `nodup_unfolding`: no walk visits a node twice;
- `walk_safe_under_any_schema`: every walk ends, without a fault, and every visited node but the first has one parent in it.
-/
import Mathlib.Data.List.Count
import Mathlib.Data.List.Nodup
import Arbor.Proofs.Layout
import Arbor.Proofs.Visits

namespace Arbor

open Json (Value)

/-! ## Ids in slots -/

/-- the ids in a list of slots, slot after slot -/
def slotIds {κ : Type} (slots : Keyed κ Slot) : List NodeId := slots.flatMap fun p => p.2.ids

/-- the ids in all slots of the arena, one for each place that holds a child -/
def Tree.heldIds (t : Tree) : List NodeId := t.nodes.toList.flatMap fun n => slotIds n.slots

theorem slotIds_eq {names : Names} {xs : Keyed Symbol Slot} {ys : Keyed String Slot} (h : names.SpellsKeys xs ys) :
    slotIds xs = slotIds ys := by
  unfold Names.SpellsKeys at h
  unfold slotIds
  induction h with
  | nil => rfl
  | cons hxy _ ih => rw [List.flatMap_cons, List.flatMap_cons, ih, hxy.2]

theorem heldIds_eq {t : Tree} {records : List Record} (h : Reads t.names t.nodes records) :
    t.heldIds = records.flatMap fun r => slotIds r.slots := by
  have hspelled := h.spelled
  unfold Tree.heldIds
  generalize t.nodes.toList = nodes at hspelled ⊢
  clear h
  induction hspelled with
  | nil => rfl
  | cons hs _ ih => rw [List.flatMap_cons, List.flatMap_cons, ih, slotIds_eq hs.slots]

theorem count_slotIds_put (c : NodeId) (slots : Keyed String Slot) (name : String) (slot : Slot) :
    (slotIds (slots.put name slot)).count c ≤ (slotIds slots).count c + slot.ids.count c := by
  unfold slotIds
  induction slots with
  | nil => simp [Keyed.put, Keyed.alter]
  | cons p rest ih =>
    rw [Keyed.put_cons]
    split_ifs
    · simp only [List.flatMap_cons, List.count_append]
      omega
    · simp only [List.flatMap_cons, List.count_append]
      omega

theorem count_slotIds_putAll (c : NodeId) (slots new : Keyed String Slot) :
    (slotIds (slots.putAll new)).count c ≤ (slotIds slots).count c + (slotIds new).count c := by
  induction new generalizing slots with
  | nil => simp
  | cons p rest ih =>
    have hput := count_slotIds_put c slots p.1 p.2
    have hrest := ih (slots.put p.1 p.2)
    have hcons : (slotIds (p :: rest)).count c = p.2.ids.count c + (slotIds rest).count c := by simp [slotIds]
    rw [Keyed.putAll_cons]
    omega

/-! ## Blocks -/

/-- The records from the id `base` on, of which `tops` are held from outside: no id is held twice, none from outside the
block is held, and every slot leads onward. -/
structure Block (base : Nat) (tops : List NodeId) (records : List Record) : Prop where
  once : ∀ c : Nat, (tops ++ records.flatMap fun r => slotIds r.slots).count c ≤
    if base ≤ c ∧ c < base + records.length then 1 else 0
  onward : ∀ p ∈ records.zipIdx base, ∀ c : Nat, c ∈ slotIds p.1.slots → p.2 < c

namespace Block

theorem nil (base : Nat) : Block base [] [] := ⟨by simp, by simp⟩

theorem append {base : Nat} {tops more : List NodeId} {sub fresh : List Record} (hsub : Block base tops sub)
    (hfresh : Block (base + sub.length) more fresh) : Block base (tops ++ more) (sub ++ fresh) := by
  refine ⟨fun c => ?_, ?_⟩
  · have h₁ := hsub.once c
    have h₂ := hfresh.once c
    simp only [List.flatMap_append, List.count_append, List.length_append] at h₁ h₂ ⊢
    split_ifs at h₁ h₂ ⊢ <;> omega
  · rw [List.zipIdx_append]
    intro p hp
    rcases List.mem_append.1 hp with hp | hp
    · exact hsub.onward p hp
    · exact hfresh.onward p (by simpa [Nat.add_comm] using hp)

theorem mem_tops {base : Nat} {tops : List NodeId} {records : List Record} (h : Block base tops records) {c : Nat}
    (hc : c ∈ tops) : base ≤ c ∧ c < base + records.length := by
  have hpos := List.count_pos_iff.2 hc
  have honce := h.once c
  rw [List.count_append] at honce
  split_ifs at honce with hin
  · exact hin
  · omega

/-- a node above its children, whose slots may have been written more than once -/
theorem node {base : Nat} {placed : Keyed String Slot} {below : List Record} (h : Block (base + 1) (slotIds placed) below)
    (kind : String) (span : Span) (attrs : Keyed String Scalar) :
    Block base [base] (⟨kind, span, Keyed.putAll [] placed, attrs⟩ :: below) := by
  have hput : ∀ c : Nat, (slotIds (Keyed.putAll [] placed)).count c ≤ (slotIds placed).count c := by
    intro c
    have := count_slotIds_putAll c [] placed
    simpa [slotIds] using this
  refine ⟨fun c => ?_, ?_⟩
  · have h₁ := h.once c
    have h₂ := hput c
    simp only [List.flatMap_cons, List.count_append, List.length_cons, List.count_cons, List.count_nil,
      beq_iff_eq] at h₁ ⊢
    split_ifs at h₁ ⊢ <;> omega
  · rw [List.zipIdx_cons]
    intro p hp c hc
    rcases List.mem_cons.1 hp with rfl | hp
    · have hmem : c ∈ slotIds placed := List.count_pos_iff.1 ((List.count_pos_iff.2 hc).trans_le (hput c))
      exact (h.mem_tops hmem).1
    · exact h.onward p hp c hc

end Block

mutual

/-- **What a loader lays down is a block**, whose only top is its root. -/
theorem NodeAt.block {schema : Schema} {base : Nat} {v : Value} {fresh : List Record} (h : NodeAt schema base v fresh) :
    Block base [base] fresh := by
  match h with
  | .node _ _ hslots => exact hslots.block.node _ _ _

theorem SlotsAt.block {schema : Schema} {members : List (String × Value)} {base : Nat} {fields : List Field}
    {placed : List (String × Slot)} {fresh : List Record} (h : SlotsAt schema members base fields placed fresh) :
    Block base (slotIds placed) fresh := by
  match h with
  | .done => exact .nil base
  | .absent _ hrest => simpa [slotIds, ids_absentSlot] using hrest.block
  | .child _ hsub hrest => simpa [slotIds, ids_presentSlot] using hsub.block.append hrest.block
  | .array _ hsub hrest => simpa [slotIds, Slot.ids_sequence] using hsub.block.append hrest.block

theorem ItemsAt.block {schema : Schema} {base : Nat} {values : List Value} {ids : List (Option NodeId)}
    {fresh : List Record} (h : ItemsAt schema base values ids fresh) : Block base ids.reduceOption fresh := by
  match h with
  | .done => exact .nil base
  | .hole hrest => simpa using hrest.block
  | .item hsub hrest => simpa using hsub.block.append hrest.block

end

/-! ## Strict trees -/

/-- the node holds the id in one of its slots, under whatever name -/
def Tree.HeldBy (t : Tree) (parent child : NodeId) : Prop :=
  ∃ n, t.nodes[parent]? = some n ∧ child ∈ slotIds n.slots

/-- every id sits in one slot at most, slots lead onward and stay in the arena, and every node can be read -/
structure Tree.Strict (t : Tree) : Prop where
  distinct : t.names.Distinct
  once : t.heldIds.Nodup
  onward : ∀ parent child : Nat, t.HeldBy parent child → parent < child ∧ child < t.size
  readable : ∀ id : Nat, id < t.size → ∃ ref, t.ref id = .ok ref

/-- **Loaded trees are strict**, whatever the schema. -/
theorem strict_of_ofValue {schema : Schema} {v : Value} {t : Tree} (h : Tree.ofValue schema v = .ok t) : t.Strict := by
  obtain ⟨-, records, hlaid, hreads⟩ := ofValue_lays h
  have hblock := hlaid.block
  have hsize : t.size = records.length := hreads.size_eq
  refine ⟨hreads.distinct, ?_, ?_, ?_⟩
  · rw [heldIds_eq hreads, List.nodup_iff_count_le_one]
    intro c
    have honce := hblock.once c
    rw [List.count_append] at honce
    split_ifs at honce <;> omega
  · rintro parent child ⟨n, hn, hchild⟩
    obtain ⟨r, hr, hs⟩ := hreads.record_of_node hn
    rw [slotIds_eq hs.slots] at hchild
    refine ⟨hblock.onward (r, parent) ?_ child hchild, ?_⟩
    · rw [List.mem_zipIdx_iff_getElem?]
      exact hr
    · have hpos : 0 < (records.flatMap fun r => slotIds r.slots).count child :=
        List.count_pos_iff.2 (List.mem_flatMap.2 ⟨r, List.mem_of_getElem? hr, hchild⟩)
      have honce := hblock.once child
      rw [List.count_append] at honce
      split_ifs at honce <;> omega
  · intro id hid
    obtain ⟨n, href, -⟩ := hreads.ref (List.getElem?_eq_getElem (hsize ▸ hid))
    exact ⟨_, href⟩

theorem Tree.Strict.parent_unique {t : Tree} (h : t.Strict) {p q c : NodeId} (hp : t.HeldBy p c) (hq : t.HeldBy q c) :
    p = q := by
  obtain ⟨m, hm, hcm⟩ := hp
  obtain ⟨n, hn, hcn⟩ := hq
  have hpair := (List.nodup_flatMap.1 h.once).2
  rw [List.pairwise_iff_getElem] at hpair
  rw [← Array.getElem?_toList] at hm hn
  obtain ⟨hlm, rfl⟩ := List.getElem?_eq_some_iff.1 hm
  obtain ⟨hln, rfl⟩ := List.getElem?_eq_some_iff.1 hn
  rcases Nat.lt_trichotomy p q with hlt | heq | hlt
  · exact absurd hcn (hpair p q hlm hln hlt hcm)
  · exact heq
  · exact absurd hcm (hpair q p hln hlm hlt hcn)

/-! ## Strict trees through a schema -/

/-- the ids in the slot under a key, none if there is no slot -/
def idsUnder {κ : Type} [DecidableEq κ] (slots : Keyed κ Slot) (k : κ) : List NodeId :=
  ((slots.get? k).map Slot.ids).getD []

theorem idsUnder_cons {κ : Type} [DecidableEq κ] (p : κ × Slot) (rest : Keyed κ Slot) (k : κ) :
    idsUnder (p :: rest) k = if p.1 = k then p.2.ids else idsUnder rest k := by
  unfold idsUnder
  rw [Keyed.get?]
  split_ifs <;> rfl

/-- different keys find the first slot once at most -/
theorem count_idsUnder_cons {κ : Type} [DecidableEq κ] (c : NodeId) (p : κ × Slot) (rest : Keyed κ Slot) {keys : List κ}
    (h : keys.Nodup) :
    (keys.flatMap (idsUnder (p :: rest))).count c ≤
      (if p.1 ∈ keys then p.2.ids.count c else 0) + (keys.flatMap (idsUnder rest)).count c := by
  induction keys with
  | nil => simp
  | cons k more ih =>
    obtain ⟨hk, hmore⟩ := List.nodup_cons.1 h
    have hrec := ih hmore
    simp only [List.flatMap_cons, List.count_append, List.mem_cons, idsUnder_cons]
    by_cases hpk : p.1 = k
    · rw [if_neg (hpk ▸ hk)] at hrec
      rw [if_pos hpk, if_pos (.inl hpk)]
      omega
    · simp only [hpk, if_false, false_or]
      omega

theorem count_idsUnder {κ : Type} [DecidableEq κ] (c : NodeId) (slots : Keyed κ Slot) {keys : List κ} (h : keys.Nodup) :
    (keys.flatMap (idsUnder slots)).count c ≤ (slotIds slots).count c := by
  induction slots with
  | nil =>
    have hnil : keys.flatMap (idsUnder ([] : Keyed κ Slot)) = [] := List.flatMap_eq_nil_iff.2 fun _ _ => rfl
    rw [hnil]
    exact Nat.zero_le _
  | cons p rest ih =>
    have hfirst := count_idsUnder_cons c p rest h
    have hcons : (slotIds (p :: rest)).count c = p.2.ids.count c + (slotIds rest).count c := by simp [slotIds]
    split_ifs at hfirst <;> omega

namespace View

variable {v : View}

theorem nodes_childrenIn (v : View) (n : Node) (fields : List Field) :
    (v.childrenIn n fields).map ChildSlot.node =
      ((fields.map Field.name).filterMap v.tree.names.find?).flatMap (idsUnder n.slots) := by
  induction fields with
  | nil => rfl
  | cons f rest ih =>
    rw [childrenIn, List.map_cons, List.filterMap_cons]
    unfold Tree.slotOf?
    cases hf : v.tree.names.find? f.name with
    | none => simpa using ih
    | some k =>
      cases hg : n.slots.get? k with
      | none => simpa [idsUnder, hg] using ih
      | some slot => simp [idsUnder, hg, ih, Slot.ids, Function.comp_def]

/-- a schema without repeated fields finds every slot once at most -/
theorem count_children_le (hd : v.tree.names.Distinct) (hs : v.schema.Distinct) (ref : NodeRef) (c : NodeId) :
    ((v.childrenOf ref).map ChildSlot.node).count c ≤ (slotIds ref.node.slots).count c := by
  rw [childrenOf, nodes_childrenIn]
  apply count_idsUnder
  exact Names.nodup_filterMap_find? hd (hs ref.kind)

theorem node_of_ref {id : NodeId} {ref : NodeRef} (h : v.tree.ref id = .ok ref) :
    v.tree.nodes[id]? = some ref.node := by
  simp only [Tree.ref, Tree.node, bind, Except.bind, pure, Except.pure] at h
  split at h
  · cases h
  · rename_i n hn
    split at h
    · cases h
    · cases h
      split at hn
      · rename_i hsome
        cases hn
        exact hsome
      · cases hn

/-- whatever the schema, a child is held by its parent -/
theorem Child.heldBy (hd : v.tree.names.Distinct) (hs : v.schema.Distinct) {p c : NodeId} (h : v.Child p c) :
    v.tree.HeldBy p c := by
  obtain ⟨ref, hr, slot, hslot, rfl⟩ := h
  refine ⟨ref.node, node_of_ref hr, List.count_pos_iff.1 ?_⟩
  refine Nat.lt_of_lt_of_le (List.count_pos_iff.2 ?_) (count_children_le hd hs ref slot.node)
  exact List.mem_map.2 ⟨slot, hslot, rfl⟩

theorem Child.onward (ht : v.tree.Strict) (hs : v.schema.Distinct) {p c : Nat} (h : v.Child p c) :
    p < c ∧ c < v.tree.size :=
  ht.onward p c (h.heldBy ht.distinct hs)

theorem Child.parent_unique (ht : v.tree.Strict) (hs : v.schema.Distinct) {p q c : NodeId} (hp : v.Child p c)
    (hq : v.Child q c) : p = q :=
  ht.parent_unique (hp.heldBy ht.distinct hs) (hq.heldBy ht.distinct hs)

theorem nodup_children (ht : v.tree.Strict) (hs : v.schema.Distinct) {id : NodeId} {ref : NodeRef}
    (hr : v.tree.ref id = .ok ref) : ((v.childrenOf ref).map ChildSlot.node).Nodup := by
  rw [List.nodup_iff_count_le_one]
  intro c
  have hmem : ref.node ∈ v.tree.nodes.toList := by
    rw [Array.mem_toList_iff]
    exact Array.mem_of_getElem? (node_of_ref hr)
  calc ((v.childrenOf ref).map ChildSlot.node).count c
      ≤ (slotIds ref.node.slots).count c := count_children_le ht.distinct hs ref c
    _ ≤ 1 := List.nodup_iff_count_le_one.1 ((List.nodup_flatMap.1 ht.once).1 ref.node hmem) c

theorem acyclic_of_strict (ht : v.tree.Strict) (hs : v.schema.Distinct) (start : NodeId) : v.Acyclic start :=
  acyclic_of_lt (fun _ _ hc => (hc.onward ht hs).1) start

theorem Reaches.le (ht : v.tree.Strict) (hs : v.schema.Distinct) {a b : Nat} (h : v.Reaches a b) : a ≤ b := by
  induction h with
  | refl => exact Nat.le_refl a
  | tail _ hc ih => exact ih.trans (Nat.le_of_lt (hc.onward ht hs).1)

theorem whole_of_strict (ht : v.tree.Strict) (hs : v.schema.Distinct) {start : NodeId} (hstart : start < v.tree.size) :
    v.Whole start := by
  intro n hn
  apply ht.readable
  cases hn with
  | refl => exact hstart
  | tail _ hc => exact (hc.onward ht hs).2

/-- with one parent each, two nodes above a third one lie above each other -/
theorem reaches_total (ht : v.tree.Strict) (hs : v.schema.Distinct) {a b n : NodeId} (ha : v.Reaches a n)
    (hb : v.Reaches b n) : v.Reaches a b ∨ v.Reaches b a := by
  have hunique : Relator.RightUnique (Function.swap v.Child) := fun _ _ _ hp hq => hp.parent_unique ht hs hq
  rcases Relation.ReflTransGen.total_of_right_unique hunique ha.swap hb.swap with h | h
  · exact .inr (Relation.reflTransGen_swap.1 h)
  · exact .inl (Relation.reflTransGen_swap.1 h)

/-- a child that reached another child of its parent would reach the parent -/
theorem brothers_apart (ht : v.tree.Strict) (hs : v.schema.Distinct) {p a b : Nat} (ha : v.Child p a) (hb : v.Child p b)
    (hab : v.Reaches a b) : a = b := by
  rcases Relation.ReflTransGen.cases_tail hab with heq | ⟨q, haq, hqb⟩
  · exact heq.symm
  · have hq : q = p := hqb.parent_unique ht hs hb
    rw [hq] at haq
    have hle := Reaches.le ht hs haq
    have hlt := (ha.onward ht hs).1
    omega

theorem nodes_seats (v : View) (ref : NodeRef) :
    (v.seats ref).map Seat.node = (v.childrenOf ref).map ChildSlot.node := by
  simp [seats, Seat.ofSlot, Function.comp_def]

/-- Brothers that do not reach each other have nothing in common below them, so a row of them is visited without
repetition. The children of a node are such a row. -/
theorem Unfolds.nodup (ht : v.tree.Strict) (hs : v.schema.Distinct) {row : List Seat} {forest : Forest}
    (h : v.Unfolds row forest) :
    (row.map Seat.node).Nodup → (∀ a ∈ row, ∀ b ∈ row, v.Reaches a.node b.node → a.node = b.node) →
      (forest.refs.map NodeRef.id).Nodup := by
  induction h with
  | nil => intro _ _; exact List.nodup_nil
  | broken _ => intro _ _; exact List.nodup_nil
  | @cons seat rest ref below next hr hbelow hnext ihbelow ihnext =>
    intro hrow happart
    obtain ⟨hseat, hrest⟩ := List.nodup_cons.1 hrow
    have hid : ref.id = seat.node := Tree.ref_id hr
    have hbelow_reach : ∀ n ∈ below.refs, ∃ c, v.Child seat.node c ∧ v.Reaches c n.id := by
      intro n hn
      obtain ⟨-, s, hs', hreach⟩ := hbelow.reaches n hn
      exact ⟨s.node, child_of_seat hr hs', hreach⟩
    have hnext_reach : ∀ n ∈ next.refs, ∃ s ∈ rest, v.Reaches s.node n.id := fun n hn => (hnext.reaches n hn).2
    have hne : ∀ s ∈ rest, s.node ≠ seat.node := fun s hm heq => hseat (List.mem_map.2 ⟨s, hm, heq⟩)
    -- the seat, what is below it and its brothers are three lists without a common node
    have hbelow_nodup : (below.refs.map NodeRef.id).Nodup := by
      refine ihbelow ?_ ?_
      · rw [nodes_seats]
        exact nodup_children ht hs hr
      · intro a ha b hb hab
        exact brothers_apart ht hs (child_of_seat hr ha) (child_of_seat hr hb) hab
    have hnext_nodup : (next.refs.map NodeRef.id).Nodup :=
      ihnext hrest fun a ha b hb => happart a (List.mem_cons_of_mem _ ha) b (List.mem_cons_of_mem _ hb)
    have hnot_below : ref.id ∉ below.refs.map NodeRef.id := by
      intro hm
      obtain ⟨n, hn, heq⟩ := List.mem_map.1 hm
      obtain ⟨c, hc, hreach⟩ := hbelow_reach n hn
      have hlt := (hc.onward ht hs).1
      have hle := hreach.le ht hs
      rw [heq, hid] at hle
      omega
    have hnot_next : ref.id ∉ next.refs.map NodeRef.id := by
      intro hm
      obtain ⟨n, hn, heq⟩ := List.mem_map.1 hm
      obtain ⟨s, hs', hreach⟩ := hnext_reach n hn
      rw [heq, hid] at hreach
      exact hne s hs' (happart s (List.mem_cons_of_mem _ hs') seat List.mem_cons_self hreach)
    have hdisjoint : List.Disjoint (below.refs.map NodeRef.id) (next.refs.map NodeRef.id) := by
      intro n hm hm'
      obtain ⟨x, hx, rfl⟩ := List.mem_map.1 hm
      obtain ⟨y, hy, heq⟩ := List.mem_map.1 hm'
      obtain ⟨c, hc, hreach⟩ := hbelow_reach x hx
      obtain ⟨s, hs', hreach'⟩ := hnext_reach y hy
      rw [heq] at hreach'
      rcases reaches_total ht hs (.head hc hreach) hreach' with h | h
      · exact hne s hs' (happart seat List.mem_cons_self s (List.mem_cons_of_mem _ hs') h).symm
      · exact hne s hs' (happart s (List.mem_cons_of_mem _ hs') seat List.mem_cons_self h)
    rw [Forest.refs, List.map_cons, List.map_append]
    refine List.nodup_cons.2 ⟨?_, List.Nodup.append hbelow_nodup hnext_nodup hdisjoint⟩
    rw [List.mem_append]
    exact fun hm => hm.elim hnot_below hnot_next

end View

/-! ## Any visitor -/

namespace Outcome

variable {σ : Type}

theorem andThen_calls_sublist {out : Outcome σ} {more : σ → Outcome σ} {first rest : List NodeRef}
    (hout : (out.calls.map Call.ref).Sublist first) (hmore : ∀ s, ((more s).calls.map Call.ref).Sublist rest) :
    ((out.andThen more).calls.map Call.ref).Sublist (first ++ rest) := by
  by_cases hd : out.ending = .done
  · rw [andThen_of_done hd, List.map_append]
    exact hout.append (hmore out.state)
  · rw [andThen_of_not_done hd]
    exact hout.trans (List.sublist_append_left first rest)

theorem andThen_ending_ne {out : Outcome σ} {more : σ → Outcome σ} {fault : Fault} (hout : out.ending ≠ .faulty fault)
    (hmore : ∀ s, (more s).ending ≠ .faulty fault) : (out.andThen more).ending ≠ .faulty fault := by
  by_cases hd : out.ending = .done
  · rw [andThen_of_done hd]
    exact hmore out.state
  · rw [andThen_of_not_done hd]
    exact hout

theorem result_of_ending_ne {out : Outcome σ} (h : ∀ fault, out.ending ≠ .faulty fault) : out.result = .ok out.state := by
  unfold result
  split
  · rename_i fault hend
    exact absurd hend (h fault)
  · rfl

end Outcome

namespace Forest

variable {σ : Type}

/-- a visitor is called on nodes of the forest, in their order, whatever it leaves out -/
theorem calls_sublist (visit : NodeRef → Context → σ → Visit × σ) (forest : Forest) :
    ∀ (path : List NodeId) (s : σ), ((forest.recurse visit path s).calls.map Call.ref).Sublist forest.refs := by
  induction forest with
  | nil => intro path s; exact .slnil
  | broken fault => intro path s; exact .slnil
  | cons field index ref below next ihbelow ihnext =>
    intro path s
    have hrefs : refs (.cons field index ref below next) = ([ref] ++ below.refs) ++ next.refs := rfl
    rw [recurse, hrefs]
    split
    · exact (List.nil_sublist _).cons_cons ref
    · have hrest : ([ref] ++ next.refs).Sublist (([ref] ++ below.refs) ++ next.refs) :=
        (List.sublist_append_left [ref] below.refs).append_right next.refs
      refine List.Sublist.trans ?_ hrest
      exact Outcome.andThen_calls_sublist (List.Sublist.refl _) (ihnext path)
    · refine Outcome.andThen_calls_sublist ?_ (ihnext path)
      exact Outcome.andThen_calls_sublist (List.Sublist.refl _) (ihbelow (path ++ [ref.id]))

/-- where every node can be read, no visitor meets a fault -/
theorem recurse_ending_ne (visit : NodeRef → Context → σ → Visit × σ) (fault : Fault) (forest : Forest)
    (hu : forest.Unbroken) : ∀ (path : List NodeId) (s : σ), (forest.recurse visit path s).ending ≠ .faulty fault := by
  induction forest with
  | nil => intro path s; simp [recurse]
  | broken fault => exact absurd hu id
  | cons field index ref below next ihbelow ihnext =>
    intro path s
    rw [recurse]
    split
    · simp
    · exact Outcome.andThen_ending_ne (by simp) (ihnext hu.2 path)
    · exact Outcome.andThen_ending_ne (Outcome.andThen_ending_ne (by simp) (ihbelow hu.1 _)) (ihnext hu.2 path)

end Forest

/-! ## Main result -/

namespace View

variable {v : View} {start : NodeId}

theorem unbroken_of_strict (ht : v.tree.Strict) (hs : v.schema.Distinct) (hstart : start < v.tree.size) :
    (v.unfolding start).Unbroken :=
  (acyclic_of_strict ht hs start).unfolds.unbroken (by simpa [Seat.top] using whole_of_strict ht hs hstart)

theorem nodup_unfolding (ht : v.tree.Strict) (hs : v.schema.Distinct) (start : NodeId) :
    ((v.unfolding start).refs.map NodeRef.id).Nodup :=
  (acyclic_of_strict ht hs start).unfolds.nodup ht hs (by simp) (by simp)

/-- any visitor: its calls are on different nodes, and neither loop nor walk meets a fault -/
theorem walk_of_strict {σ : Type} (ht : v.tree.Strict) (hs : v.schema.Distinct) (hstart : start < v.tree.size)
    (visit : NodeRef → σ → Visit × σ) (s : σ) :
    ∃ calls out, v.Loop visit [start] s (.ok out) ∧ v.walk (some start) visit s = .ok out ∧
      v.walk (some start) (noted visit) ([], s) = .ok (calls, out) ∧ (calls.map fun call => call.1.id).Nodup := by
  have hacyclic := acyclic_of_strict ht hs start
  have hu := hacyclic.unfolds
  set out := (v.unfolding start).recurse (fun ref _ => visit ref) [] s with hout
  have hresult : out.result = .ok out.state := Outcome.result_of_ending_ne fun fault =>
    (v.unfolding start).recurse_ending_ne _ fault (unbroken_of_strict ht hs hstart) [] s
  have hwalk : v.walk (some start) visit s = .ok out.state := by
    rw [walk_eq_walkPath, walkPath_eq_recurse hacyclic hu, ← hout, hresult]
  have hnoted := walkPath_noting hacyclic hu (fun call => (call.ref, call.before, call.verdict)) (fun ref _ => visit ref) s
  rw [← hout, Outcome.record, hresult] at hnoted
  refine ⟨out.calls.map fun call => (call.ref, call.before, call.verdict), out.state, ?_, hwalk, ?_, ?_⟩
  · rw [← hwalk]
    exact loop_walkFrom visit [(start, v.tree.size)] s (by simpa using hacyclic.fits)
  · rw [walk_eq_walkPath]
    exact hnoted
  · have hsub := (v.unfolding start).calls_sublist (fun ref _ => visit ref) [] s
    have hids := (hsub.map NodeRef.id).nodup (nodup_unfolding ht hs start)
    simpa [Function.comp_def] using hids

theorem countNodes_of_strict (ht : v.tree.Strict) (hs : v.schema.Distinct) (hstart : start < v.tree.size) :
    v.countNodes (some start) = .ok (v.unfolding start).refs.length := by
  have hacyclic := acyclic_of_strict ht hs start
  obtain ⟨hend, hstate⟩ :=
    (v.unfolding start).recurse_descend (fun _ (n : Nat) => n + 1) (unbroken_of_strict ht hs hstart) [] 0
  rw [countNodes, walk_eq_walkPath, walkPath_eq_recurse hacyclic hacyclic.unfolds, Outcome.result, hend, hstate,
    List.foldl_add_const]
  simp

theorem length_refs_le (ht : v.tree.Strict) (hs : v.schema.Distinct) (start : NodeId) :
    (v.unfolding start).refs.length ≤ v.tree.size := by
  have hsub : (v.unfolding start).refs.map NodeRef.id ⊆ List.range v.tree.size := by
    intro n hn
    obtain ⟨ref, hm, rfl⟩ := List.mem_map.1 hn
    have hr := ((acyclic_of_strict ht hs start).unfolds.reaches ref hm).1
    exact List.mem_range.2 (Tree.lt_size_of_ref hr)
  simpa using (List.subperm_of_subset (nodup_unfolding ht hs start) hsub).length_le

/-- the parent of a visited node is visited, and nobody else holds the node -/
theorem existsUnique_parent (ht : v.tree.Strict) (hs : v.schema.Distinct) (hstart : start < v.tree.size) {ref : NodeRef}
    (hm : ref ∈ (v.unfolding start).refs) (hne : ref.id ≠ start) :
    ∃! parent, parent ∈ (v.unfolding start).refs.map NodeRef.id ∧ v.Child parent ref.id := by
  have hu := (acyclic_of_strict ht hs start).unfolds
  obtain ⟨-, seat, hseat, hreach⟩ := hu.reaches ref hm
  rw [List.mem_singleton] at hseat
  subst hseat
  rcases Relation.ReflTransGen.cases_tail hreach with heq | ⟨parent, hparent, hc⟩
  · exact absurd heq hne
  · refine ⟨parent, ⟨?_, hc⟩, fun other h => h.2.parent_unique ht hs hc⟩
    obtain ⟨p, hp, hid⟩ := hu.mem_of_reaches (unbroken_of_strict ht hs hstart) (Seat.top start) (by simp) parent hparent
    exact List.mem_map.2 ⟨p, hp, hid⟩

/-- **Walks over loaded trees are safe under every schema.** For a tree loaded with some schema, a view through any schema
that lists no field twice, and every start node of the arena:
- for every visitor the loop, with no bound on its rounds, ends without a fault, and so does the walk, which calls the
  visitor on different nodes;
- the visited nodes are all different, so their number is at most the size of the arena, and each of them but the start
  has exactly one parent among them. -/
theorem walk_safe_under_any_schema (loaded schema : Schema) (value : Value) (t : Tree)
    (h : Tree.ofValue loaded value = .ok t) (hs : schema.Distinct) (start : NodeId) (hstart : start < t.size) :
    let view : View := ⟨t, schema⟩
    (∀ (σ : Type) (visit : NodeRef → σ → Visit × σ) (s : σ), ∃ calls out,
      view.Loop visit [start] s (.ok out) ∧ view.walk (some start) visit s = .ok out ∧
      view.walk (some start) (noted visit) ([], s) = .ok (calls, out) ∧ (calls.map fun call => call.1.id).Nodup) ∧
    ∃ refs, view.nodes (some start) = .ok refs ∧ (refs.map NodeRef.id).Nodup ∧
      view.countNodes (some start) = .ok refs.length ∧ refs.length ≤ t.size ∧
      ∀ ref ∈ refs, ref.id ≠ start → ∃! parent, parent ∈ refs.map NodeRef.id ∧ view.Child parent ref.id := by
  intro view
  have ht : view.tree.Strict := strict_of_ofValue h
  have hacyclic := acyclic_of_strict ht hs start
  refine ⟨fun σ visit s => walk_of_strict ht hs hstart visit s, (view.unfolding start).refs, ?_, ?_, ?_, ?_, ?_⟩
  · exact nodes_eq_refs hacyclic (whole_of_strict ht hs hstart) hacyclic.unfolds
  · exact nodup_unfolding ht hs start
  · exact countNodes_of_strict ht hs hstart
  · exact length_refs_le ht hs start
  · intro ref hm hne
    exact existsUnique_parent ht hs hstart hm hne

/-- the head and then the items of every kind, and no tail: not the schema the list was loaded with -/
def headFirst : Schema := ⟨fun _ => some [⟨"head", .many⟩, ⟨"items", .single⟩]⟩

/-- The head, which was loaded last, is visited before the items. -/
theorem walk_safe_list_headFirst :
    Tree.ofValue listSchema listValue = .ok listTree ∧ headFirst.Distinct ∧ 0 < listTree.size ∧
    ∃ refs, View.nodes ⟨listTree, headFirst⟩ (some 0) = .ok refs ∧ refs.map NodeRef.id = [0, 2, 1] ∧
      View.countNodes ⟨listTree, headFirst⟩ (some 0) = .ok refs.length ∧
      ∀ ref ∈ refs, ref.id ≠ 0 → ∃! parent, parent ∈ refs.map NodeRef.id ∧ View.Child ⟨listTree, headFirst⟩ parent ref.id := by
  have hs : headFirst.Distinct := by
    intro kind
    have hnames : (headFirst.fieldsOf kind).map Field.name = ["head", "items"] := rfl
    rw [hnames]
    decide
  obtain ⟨-, refs, hnodes, -, hcount, -, hparent⟩ :=
    walk_safe_under_any_schema listSchema headFirst listValue listTree ofValue_listValue hs 0 (by decide)
  refine ⟨ofValue_listValue, hs, by decide, refs, hnodes, ?_, hcount, hparent⟩
  have hids : (View.nodes ⟨listTree, headFirst⟩ (some 0)).map (List.map NodeRef.id) = .ok [0, 2, 1] := by cbv
  rw [hnodes] at hids
  exact Except.ok.inj hids

end View

end Arbor
