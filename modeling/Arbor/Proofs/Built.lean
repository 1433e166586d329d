/-
Where trees come from. A tree is finished from a builder, or it is loaded from a value. A loader does nothing to the arena that
a builder cannot do: it allocates a node, writes the slots of its fields one after the other, each after all that is below
it, and then the attributes. So a loaded tree is the tree of a run, and whatever every run keeps holds of loaded trees too.

- `Load.node_leads`: loading a value, wherever it stands and whatever the arena holds, is a run.
- `Tree.Built.wellFormed`: everything that a tree stores was issued, however the tree came to be.
- `Tree.Built.ends`: so a walk through any schema meets no fault, and where no node lies below itself it ends.
-/
import Arbor.Proofs.Outline

namespace Arbor

open Json (Value member?)

/-! ## Runs -/

namespace Builder

theorem run_append (b : Builder) (first more : List Op) : b.run (first ++ more) = (b.run first).run more := by
  simp [run, List.foldl_append]

/-- the operation that writes a slot -/
def Op.ofSlot (parent : NodeId) (field : String) : Slot → Op
  | .node child => .setChild parent field child
  | .optional child => .setOptional parent field child
  | .sequence items => .setSequence parent field items

theorem step_ofSlot (b : Builder) (parent : NodeId) (field : String) (slot : Slot) :
    b.step (.ofSlot parent field slot) = b.setSlot parent field slot := by
  cases slot <;> rfl

/-- some operations, one after the other, make the second builder of the first -/
def Leads (b later : Builder) : Prop := ∃ ops, b.run ops = later

namespace Leads

theorem refl (b : Builder) : b.Leads b := ⟨[], rfl⟩

theorem trans {a b c : Builder} (hab : a.Leads b) (hbc : b.Leads c) : a.Leads c := by
  obtain ⟨first, rfl⟩ := hab
  obtain ⟨more, rfl⟩ := hbc
  exact ⟨first ++ more, run_append a first more⟩

theorem step (b : Builder) (op : Op) : b.Leads (b.step op).1 := ⟨[op], rfl⟩

theorem setSlot (b : Builder) (parent : NodeId) (field : String) (slot : Slot) :
    b.Leads (b.setSlot parent field slot).1 := by
  rw [← step_ofSlot]
  exact step b _

end Leads

end Builder

/-! ## Loading -/

namespace Load

theorem setAttributes_leads (b : Builder) (id : NodeId) (attrs : List (String × Scalar)) :
    b.Leads (setAttributes b id attrs) := by
  refine ⟨attrs.map fun p => .setAttr id p.1 p.2, ?_⟩
  simp [Builder.run, setAttributes, List.foldl_map, Builder.step]

/-- loading the value is a run, wherever it stands and whatever the arena holds -/
def IsRun (schema : Schema) (v : Value) : Prop :=
  ∀ (path : List PathStep) (b later : Builder) (id : NodeId), node schema path v b = .ok (id, later) → b.Leads later

theorem items_leads {schema : Schema} {path : List PathStep} (values : List Value) (hrun : ∀ w ∈ values, IsRun schema w) :
    ∀ {i : Nat} {b later : Builder} {ids : List (Option NodeId)},
      items schema path i values b = .ok (ids, later) → b.Leads later := by
  induction values with
  | nil =>
    intro i b later ids h
    rw [items] at h
    cases h
    exact .refl b
  | cons v rest ih =>
    intro i b later ids h
    have hrest : ∀ w ∈ rest, IsRun schema w := fun w hw => hrun w (List.mem_cons_of_mem v hw)
    rcases items_cons_ok h with ⟨rfl, more, hitems, rfl⟩ | ⟨id, loaded, more, hnode, hitems, rfl⟩
    · exact ih hrest hitems
    · have hfirst : b.Leads loaded := hrun v List.mem_cons_self _ _ _ _ hnode
      exact hfirst.trans (ih hrest hitems)

theorem slots_leads {schema : Schema} {path : List PathStep} {kind : String} {members : List (String × Value)} {id : NodeId}
    (hrun : ∀ w, sizeOf w < sizeOf members → IsRun schema w) (fields : List Field) :
    ∀ {b later : Builder}, slots schema path kind members id fields b = .ok later → b.Leads later := by
  induction fields with
  | nil =>
    intro b later h
    rw [slots] at h
    cases h
    exact .refl b
  | cons f rest ih =>
    intro b later h
    obtain ⟨loaded, slot, hnext, hslot⟩ := slots_cons_ok h
    have hload : b.Leads loaded := by
      rcases hslot with ⟨-, rfl, -⟩ | ⟨child, c, hm, hnode, -⟩ | ⟨values, ids, hm, hitems, -⟩
      · exact .refl loaded
      · exact hrun _ (sizeOf_member?_lt hm) _ _ _ _ hnode
      · exact items_leads values (fun w hw => hrun w (sizeOf_item_lt hm hw)) hitems
    exact (hload.trans (.setSlot loaded id f.name slot)).trans (ih hnext)

/-- **Loading is a run.** -/
theorem node_leads (schema : Schema) (v : Value) : IsRun schema v := by
  refine forall_of_members (fun v hrun => ?_) v
  intro path b later id h
  obtain ⟨members, kind, span, filled, rfl, -, -, rfl, hslots, rfl⟩ := node_ok h
  have hnode : b.Leads (b.node kind span).1 := .step b (.node kind span)
  exact (hnode.trans (slots_leads (hrun members rfl) _ hslots)).trans (setAttributes_leads filled _ _)

end Load

/-! ## Trees that are finished or loaded -/

/-- the tree was finished from a builder, or loaded from a value -/
inductive Tree.Built : Tree → Prop
  | finished {t : Tree} (ops : List Builder.Op) (h : (Builder.empty.run ops).Finishes t) : Built t
  | loaded {t : Tree} (schema : Schema) (v : Value) (h : Tree.ofValue schema v = .ok t) : Built t

namespace Tree.Built

variable {t : Tree}

/-- **A loaded tree is the tree of a run.** -/
theorem exists_run (h : t.Built) : ∃ ops, (Builder.empty.run ops).Finishes t := by
  cases h with
  | finished ops h => exact ⟨ops, h⟩
  | loaded schema v h =>
    obtain ⟨-, records, hlaid, hreads⟩ := ofValue_lays h
    have hpos : 0 < t.nodes.size := by
      rw [hreads.size_eq]
      exact hlaid.length_pos
    unfold Tree.ofValue at h
    split at h
    · cases h
    · rename_i root b hnode
      obtain ⟨rfl, -⟩ := Load.node_lays schema v _ _ _ _ _ Reads.empty hnode
      obtain ⟨ops, rfl⟩ := Load.node_leads schema v _ _ _ _ hnode
      cases h
      exact ⟨ops, .inr ⟨0, if_pos hpos⟩⟩

theorem wellFormed (h : t.Built) : WellFormed t.names t.nodes := by
  obtain ⟨ops, hfinish⟩ := h.exists_run
  obtain ⟨hnames, hnodes⟩ := hfinish.same_arena
  rw [hnames, hnodes]
  exact Builder.run_wellFormed Builder.empty ops WellFormed.empty

/-- the root of a tree is one of its nodes -/
theorem root_lt_size (h : t.Built) : ∀ id ∈ t.root, id < t.size := by
  obtain ⟨ops, rfl | ⟨root, hfinish⟩⟩ := h.exists_run
  · intro id hid
    cases hid
  · unfold Builder.finish at hfinish
    split_ifs at hfinish with hlt
    cases hfinish
    intro id hid
    cases hid
    exact hlt

/-- **Walks meet no fault.** A walk ends, through whatever schema, from every node below which no node lies below itself. -/
theorem ends (h : t.Built) (schema : Schema) {root : Option NodeId}
    (hroot : ∀ id ∈ root, id < t.size ∧ View.Acyclic ⟨t, schema⟩ id) : View.Ends ⟨t, schema⟩ root := by
  intro id hid
  obtain ⟨hlt, hacyclic⟩ := hroot id hid
  have hwell : WellFormed (View.tree ⟨t, schema⟩).names (View.tree ⟨t, schema⟩).nodes := h.wellFormed
  exact ⟨hacyclic, hwell.whole hlt⟩

end Tree.Built

end Arbor
