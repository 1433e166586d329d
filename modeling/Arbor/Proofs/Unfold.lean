/-
A tree unfolded below a root. The arena holds a shared node once; the unfolding holds it once for every way that leads to
it, with the field and the place through which it is reached. All that a walk does, and all that is said about its order,
can then be said by recursion on the unfolding.

A row of brothers is one `Forest`: a node, what is below it, and the brothers after it. An id that cannot be read ends its
row with the fault that reading it gives.

- `Acyclic.unfolds`: below an acyclic root `unfolding` goes down to the leaves everywhere, and no other forest does so
  (`Unfolds.unique`).
- `Unfolds.mem_refs`: the nodes of the unfolding are the nodes that the root reaches.
-/
import Arbor.Proofs.Reach

namespace Arbor

/-- where a node is held: the field of its parent and the place if that is a sequence; the root of a walk has neither -/
structure Seat where
  node : NodeId
  field : Option String
  index : Option Nat
  deriving DecidableEq, Repr

namespace Seat

/-- the root of a walk is held nowhere -/
def top (root : NodeId) : Seat := ⟨root, none, none⟩

/-- the seat that a child has in a slot of its parent -/
def ofSlot (slot : ChildSlot) : Seat := ⟨slot.node, some slot.field, slot.index⟩

end Seat

/-- brothers in their order, each with what is below it -/
inductive Forest where
  | nil
  | broken (fault : Fault)
  | cons (field : Option String) (index : Option Nat) (ref : NodeRef) (below next : Forest)
  deriving DecidableEq, Repr

namespace Forest

/-- the nodes in the order of a walk: parents before children, a child with all that is below it before the next child -/
def refs : Forest → List NodeRef
  | .nil => []
  | .broken _ => []
  | .cons _ _ ref below next => ref :: (below.refs ++ next.refs)

/-- every node could be read -/
def Unbroken : Forest → Prop
  | .nil => True
  | .broken _ => False
  | .cons _ _ _ below next => below.Unbroken ∧ next.Unbroken

end Forest

namespace View

/-- the seats of a node's children, in the order of the schema -/
def seats (v : View) (ref : NodeRef) : List Seat := (v.childrenOf ref).map Seat.ofSlot

/-- the forest is what the seats unfold to -/
inductive Unfolds (v : View) : List Seat → Forest → Prop
  | nil : Unfolds v [] .nil
  | broken {seat : Seat} {rest : List Seat} {fault : Fault} (hr : v.tree.ref seat.node = .error fault) :
    Unfolds v (seat :: rest) (.broken fault)
  | cons {seat : Seat} {rest : List Seat} {ref : NodeRef} {below next : Forest} (hr : v.tree.ref seat.node = .ok ref)
    (hbelow : Unfolds v (v.seats ref) below) (hnext : Unfolds v rest next) :
    Unfolds v (seat :: rest) (.cons seat.field seat.index ref below next)

/-- a row of nodes, each with what is said to be below it -/
def graft (v : View) (below : NodeRef → Forest) (row : List Seat) : Forest :=
  row.foldr (fun seat next =>
    match v.tree.ref seat.node with
    | .error fault => .broken fault
    | .ok ref => .cons seat.field seat.index ref (below ref) next) .nil

/-- unfold a row, at most `room` levels deep -/
def unfold (v : View) : Nat → List Seat → Forest
  | 0, row => v.graft (fun _ => .nil) row
  | room + 1, row => v.graft (fun ref => v.unfold room (v.seats ref)) row

/-- the unfolding below a root, as deep as the arena is long -/
def unfolding (v : View) (root : NodeId) : Forest := v.unfold v.tree.size [Seat.top root]

theorem mem_seats {v : View} {ref : NodeRef} {seat : Seat} :
    seat ∈ v.seats ref ↔ ∃ slot ∈ v.childrenOf ref, Seat.ofSlot slot = seat := by
  simp [seats]

theorem child_of_seat {v : View} {id : NodeId} {ref : NodeRef} (hr : v.tree.ref id = .ok ref) {seat : Seat}
    (h : seat ∈ v.seats ref) : v.Child id seat.node := by
  obtain ⟨slot, hslot, rfl⟩ := mem_seats.1 h
  exact child_of_mem hr hslot

theorem seat_of_child {v : View} {id child : NodeId} {ref : NodeRef} (hr : v.tree.ref id = .ok ref)
    (h : v.Child id child) : ∃ seat ∈ v.seats ref, seat.node = child := by
  obtain ⟨ref', hr', slot, hslot, rfl⟩ := h
  rw [hr] at hr'
  cases hr'
  exact ⟨Seat.ofSlot slot, mem_seats.2 ⟨slot, hslot, rfl⟩, rfl⟩

/-! ## There is one unfolding -/

theorem unfolds_graft (v : View) (below : NodeRef → Forest) (row : List Seat)
    (h : ∀ seat ∈ row, ∀ ref, v.tree.ref seat.node = .ok ref → v.Unfolds (v.seats ref) (below ref)) :
    v.Unfolds row (v.graft below row) := by
  induction row with
  | nil => exact .nil
  | cons seat rest ih =>
    have hnext := ih fun s hs => h s (List.mem_cons_of_mem seat hs)
    simp only [graft, List.foldr_cons]
    cases hr : v.tree.ref seat.node with
    | error fault => exact .broken hr
    | ok ref => exact .cons hr (h seat List.mem_cons_self ref hr) hnext

theorem unfolds_unfold (v : View) (room : Nat) :
    ∀ row : List Seat, (∀ seat ∈ row, v.Fits room seat.node) → v.Unfolds row (v.unfold room row) := by
  induction room with
  | zero =>
    intro row hrow
    refine unfolds_graft v _ row fun seat hseat ref hr => ?_
    have hnone : v.seats ref = [] :=
      List.eq_nil_iff_forall_not_mem.2 fun s hs => hrow seat hseat s.node (child_of_seat hr hs)
    rw [hnone]; exact .nil
  | succ room ih =>
    intro row hrow
    exact unfolds_graft v _ row fun seat hseat ref hr =>
      ih (v.seats ref) fun s hs => hrow seat hseat s.node (child_of_seat hr hs)

/-- **An acyclic tree unfolds.** Shared nodes are unfolded once for every way that leads to them. -/
theorem Acyclic.unfolds {v : View} {root : NodeId} (h : v.Acyclic root) :
    v.Unfolds [Seat.top root] (v.unfolding root) :=
  unfolds_unfold v v.tree.size [Seat.top root] (by simpa [Seat.top] using h.fits)

theorem Unfolds.unique {v : View} {row : List Seat} {forest : Forest} (h : v.Unfolds row forest) :
    ∀ other, v.Unfolds row other → forest = other := by
  induction h with
  | nil => intro other h; cases h; rfl
  | broken hr =>
    intro other h
    cases h with
    | broken hr' => rw [hr] at hr'; cases hr'; rfl
    | cons hr' _ _ => rw [hr] at hr'; cases hr'
  | cons hr _ _ ihbelow ihnext =>
    intro other h
    cases h with
    | broken hr' => rw [hr] at hr'; cases hr'
    | cons hr' hbelow hnext =>
      rw [hr] at hr'; cases hr'
      rw [ihbelow _ hbelow, ihnext _ hnext]

theorem Acyclic.unfolds_iff {v : View} {root : NodeId} (h : v.Acyclic root) (forest : Forest) :
    v.Unfolds [Seat.top root] forest ↔ forest = v.unfolding root :=
  ⟨fun hu => hu.unique _ h.unfolds, fun heq => heq ▸ h.unfolds⟩

/-! ## What the unfolding holds -/

theorem Unfolds.unbroken {v : View} {row : List Seat} {forest : Forest} (h : v.Unfolds row forest)
    (hw : ∀ seat ∈ row, v.Whole seat.node) : forest.Unbroken := by
  induction h with
  | nil => trivial
  | @broken seat _ _ hr =>
    obtain ⟨ref, hok⟩ := hw seat List.mem_cons_self seat.node .refl
    rw [hr] at hok; cases hok
  | @cons seat _ _ _ _ hr _ _ ihbelow ihnext =>
    refine ⟨ihbelow fun s hs => ?_, ihnext fun s hs => hw s (List.mem_cons_of_mem _ hs)⟩
    exact (hw seat List.mem_cons_self).of_child (child_of_seat hr hs)

/-- every node of the unfolding was read and is reached from one of the seats -/
theorem Unfolds.reaches {v : View} {row : List Seat} {forest : Forest} (h : v.Unfolds row forest) :
    ∀ ref ∈ forest.refs, v.tree.ref ref.id = .ok ref ∧ ∃ seat ∈ row, v.Reaches seat.node ref.id := by
  induction h with
  | nil => intro ref hm; simp [Forest.refs] at hm
  | broken _ => intro ref hm; simp [Forest.refs] at hm
  | @cons seat rest top _ _ hr _ _ ihbelow ihnext =>
    intro ref hm
    simp only [Forest.refs, List.mem_cons, List.mem_append] at hm
    rcases hm with rfl | hm | hm
    · rw [Tree.ref_id hr]; exact ⟨hr, seat, by simp, .refl⟩
    · obtain ⟨hok, s, hs, hreach⟩ := ihbelow ref hm
      exact ⟨hok, seat, by simp, .head (child_of_seat hr hs) hreach⟩
    · obtain ⟨hok, s, hs, hreach⟩ := ihnext ref hm
      exact ⟨hok, s, List.mem_cons_of_mem _ hs, hreach⟩

/-- every node that one of the seats reaches is in an unbroken unfolding -/
theorem Unfolds.mem_of_reaches {v : View} {row : List Seat} {forest : Forest} (h : v.Unfolds row forest)
    (hu : forest.Unbroken) :
    ∀ seat ∈ row, ∀ n, v.Reaches seat.node n → ∃ ref ∈ forest.refs, ref.id = n := by
  induction h with
  | nil => intro seat hs; simp at hs
  | broken _ => exact absurd hu id
  | @cons first rest top below next hr _ _ ihbelow ihnext =>
    intro seat hs n hn
    rcases List.mem_cons.1 hs with rfl | hs
    · rcases Relation.ReflTransGen.cases_head hn with heq | ⟨child, hc, hreach⟩
      · exact ⟨top, by simp [Forest.refs], by rw [Tree.ref_id hr, heq]⟩
      · obtain ⟨s, hs, rfl⟩ := seat_of_child hr hc
        obtain ⟨ref, hm, hid⟩ := ihbelow hu.1 s hs n hreach
        exact ⟨ref, by simp [Forest.refs, hm], hid⟩
    · obtain ⟨ref, hm, hid⟩ := ihnext hu.2 seat hs n hn
      exact ⟨ref, by simp [Forest.refs, hm], hid⟩

/-- **The unfolding holds exactly what the root reaches.** -/
theorem Unfolds.mem_refs {v : View} {root : NodeId} {forest : Forest} (h : v.Unfolds [Seat.top root] forest)
    (hw : v.Whole root) (ref : NodeRef) :
    ref ∈ forest.refs ↔ v.Reaches root ref.id ∧ v.tree.ref ref.id = .ok ref := by
  constructor
  · intro hm
    obtain ⟨hok, seat, hs, hreach⟩ := h.reaches ref hm
    rw [List.mem_singleton] at hs
    subst hs
    exact ⟨hreach, hok⟩
  · rintro ⟨hreach, hok⟩
    have hu : forest.Unbroken := h.unbroken (by simpa [Seat.top] using hw)
    obtain ⟨other, hm, hid⟩ := h.mem_of_reaches hu (Seat.top root) (by simp) ref.id hreach
    have hok' := (h.reaches other hm).1
    rw [hid, hok] at hok'
    cases hok'
    exact hm

end View

end Arbor
