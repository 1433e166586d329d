/-
Which nodes a walk can reach, and when none of them lies below itself.

A walk goes from a node to its children only: `Child` is one such step, `Reaches` any number of them. Below an `Acyclic`
root no reachable node reaches itself again; a node may still have several parents, and then it is visited once for each
way that leads to it.

- `Acyclic.fits`: below an acyclic root no chain of children is longer than the arena. A walk allows each node as many
  levels below it as the arena has nodes, less those above it, and this number is never used up.
- `acyclic_of_lt`: a tree whose children come after their parents in the arena is acyclic below every node. For a given
  arena this can be tested (`rising`), and so can the absence of ids from outside (`closed`).
-/
import Mathlib.Logic.Relation
import Mathlib.Data.Finset.Card
import Mathlib.Data.Finset.Range
import Arbor.View.Walk

namespace Arbor

/-- a node that was read knows its own id -/
theorem Tree.ref_id {t : Tree} {id : NodeId} {ref : NodeRef} (h : t.ref id = .ok ref) : ref.id = id := by
  simp only [Tree.ref, bind, Except.bind, pure, Except.pure] at h
  split at h
  · cases h
  · split at h
    · cases h
    · cases h; rfl

/-- only ids of the arena can be read -/
theorem Tree.lt_size_of_ref {t : Tree} {id : NodeId} {ref : NodeRef} (h : t.ref id = .ok ref) : id < t.size := by
  by_contra hlt
  have hnone : t.nodes[id]? = none := by
    rw [Array.getElem?_eq_none_iff]; exact Nat.le_of_not_lt hlt
  simp [Tree.ref, Tree.node, hnone, bind, Except.bind] at h

namespace View

/-- one step of a walk: the parent holds the child in a field of its kind -/
def Child (v : View) (parent child : NodeId) : Prop :=
  ∃ ref, v.tree.ref parent = .ok ref ∧ ∃ slot ∈ v.childrenOf ref, slot.node = child

/-- the second node is the first one or lies below it -/
def Reaches (v : View) : NodeId → NodeId → Prop := Relation.ReflTransGen v.Child

/-- no node that the root reaches lies below itself -/
def Acyclic (v : View) (root : NodeId) : Prop := ∀ n, v.Reaches root n → ¬ Relation.TransGen v.Child n n

/-- every node that the root reaches can be read; a finished tree holds no other ids and no other kinds -/
def Whole (v : View) (root : NodeId) : Prop := ∀ n, v.Reaches root n → ∃ ref, v.tree.ref n = .ok ref

/-- no chain of children below the node has more than `room` steps -/
def Fits (v : View) : Nat → NodeId → Prop
  | 0, id => ∀ child, ¬ v.Child id child
  | room + 1, id => ∀ child, v.Child id child → v.Fits room child

theorem Child.lt_size {v : View} {a b : NodeId} (h : v.Child a b) : a < v.tree.size := by
  obtain ⟨ref, hr, _⟩ := h
  exact Tree.lt_size_of_ref hr

theorem child_of_mem {v : View} {id : NodeId} {ref : NodeRef} (hr : v.tree.ref id = .ok ref) {slot : ChildSlot}
    (h : slot ∈ v.childrenOf ref) : v.Child id slot.node :=
  ⟨ref, hr, slot, h, rfl⟩

/-- what holds below a root holds below every node that it reaches -/
theorem Whole.of_child {v : View} {a b : NodeId} (h : v.Whole a) (hc : v.Child a b) : v.Whole b :=
  fun n hn => h n (Relation.ReflTransGen.head hc hn)

/-! ## Room for every level -/

/-- `above` are nodes of the arena that lie above `id`; there is room for all the others below it. -/
theorem Acyclic.fits_above {v : View} {root : NodeId} (h : v.Acyclic root) (room : Nat) :
    ∀ (id : NodeId) (above : Finset NodeId), v.Reaches root id → (∀ a ∈ above, a < v.tree.size) →
      (∀ a ∈ above, Relation.TransGen v.Child a id) → v.tree.size ≤ room + above.card → v.Fits room id := by
  induction room with
  | zero =>
    intro id above hid hlt habove hcard child hc
    -- every node of the arena lies above `id`, so `id` itself does
    have hsub : above ⊆ Finset.range v.tree.size := fun a ha => Finset.mem_range.2 (hlt a ha)
    have hall : above = Finset.range v.tree.size :=
      Finset.eq_of_subset_of_card_le hsub (by rw [Finset.card_range]; omega)
    have hself : id ∈ above := by rw [hall]; exact Finset.mem_range.2 hc.lt_size
    exact h id hid (habove id hself)
  | succ room ih =>
    intro id above hid hlt habove hcard child hc
    have hnew : id ∉ above := fun hself => h id hid (habove id hself)
    refine ih child (insert id above) (hid.tail hc) ?_ ?_ ?_
    · intro a ha
      rcases Finset.mem_insert.1 ha with rfl | ha
      · exact hc.lt_size
      · exact hlt a ha
    · intro a ha
      rcases Finset.mem_insert.1 ha with rfl | ha
      · exact .single hc
      · exact (habove a ha).tail hc
    · rw [Finset.card_insert_of_notMem hnew]; omega

/-- **Room for every level.** Below an acyclic root no chain of children is longer than the arena. -/
theorem Acyclic.fits {v : View} {root : NodeId} (h : v.Acyclic root) : v.Fits v.tree.size root :=
  h.fits_above v.tree.size root ∅ .refl (by simp) (by simp) (by simp)

/-- the children of a node with room below it have room, one level less; without room there are none -/
theorem Fits.children {v : View} {room : Nat} {id : NodeId} (h : v.Fits room id) {ref : NodeRef}
    (hr : v.tree.ref id = .ok ref) :
    (room = 0 ∧ v.childrenOf ref = []) ∨ ∃ less, room = less + 1 ∧ ∀ slot ∈ v.childrenOf ref, v.Fits less slot.node := by
  cases room with
  | zero =>
    refine Or.inl ⟨rfl, List.eq_nil_iff_forall_not_mem.2 fun slot hslot => ?_⟩
    exact h slot.node (child_of_mem hr hslot)
  | succ less => exact Or.inr ⟨less, rfl, fun slot hslot => h slot.node (child_of_mem hr hslot)⟩

/-! ## Tests for a whole arena -/

/-- the children of every node come after it in the arena -/
def rising (v : View) : Bool :=
  v.tree.ids.all fun id =>
    match v.children id with
    | .ok slots => slots.all fun slot => id < slot.node
    | .error _ => true

/-- every node can be read and holds no child from outside the arena -/
def closed (v : View) : Bool :=
  v.tree.ids.all fun id =>
    match v.children id with
    | .ok slots => slots.all fun slot => slot.node < v.tree.size
    | .error _ => false

theorem acyclic_of_lt {v : View} (h : ∀ a b, v.Child a b → a < b) (root : NodeId) : v.Acyclic root := by
  have hlt : ∀ a b, Relation.TransGen v.Child a b → a < b := by
    intro a b hab
    induction hab with
    | single hc => exact h _ _ hc
    | tail _ hc ih => exact ih.trans (h _ _ hc)
  intro n _ hn
  exact Nat.lt_irrefl n (hlt n n hn)

theorem acyclic_of_rising {v : View} (h : v.rising = true) (root : NodeId) : v.Acyclic root := by
  refine acyclic_of_lt (fun a b hc => ?_) root
  have ha := List.all_eq_true.1 h a (List.mem_range.2 hc.lt_size)
  obtain ⟨ref, hr, slot, hslot, rfl⟩ := hc
  rw [children_eq_ok hr] at ha
  exact of_decide_eq_true (List.all_eq_true.1 ha slot hslot)

theorem whole_of_closed {v : View} (h : v.closed = true) {root : NodeId} (hroot : root < v.tree.size) :
    v.Whole root := by
  intro n hn
  have hlt : n < v.tree.size := by
    induction hn with
    | refl => exact hroot
    | tail _ hc _ =>
      have ha := List.all_eq_true.1 h _ (List.mem_range.2 hc.lt_size)
      obtain ⟨ref, hr, slot, hslot, rfl⟩ := hc
      rw [children_eq_ok hr] at ha
      exact of_decide_eq_true (List.all_eq_true.1 ha slot hslot)
  have hn := List.all_eq_true.1 h n (List.mem_range.2 hlt)
  cases hr : v.tree.ref n with
  | ok ref => exact ⟨ref, rfl⟩
  | error fault => simp [children, hr, bind, Except.bind] at hn

end View

end Arbor
