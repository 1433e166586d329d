/-
Trees whose spans nest. Below a `Parted` root every node holds its children within its span, and no two children overlap.
The children may come in any order, a node may have the span of its only child, and there may be empty nodes. Below a
`Nested` root every node has positions of its own, too.

Sorted by start, the visited nodes of such a tree are a plain picture of it: of two nodes the earlier one lies above the
later one or the two do not overlap (`Parted.sorted`). So the nodes around a range that is not empty form a chain, and the
last of them in the sorted list is the innermost one (`Parted.innermost_enclosing`).
-/
import Arbor.Proofs.Intervals
import Arbor.Proofs.Sweep

namespace Arbor

namespace View

/-! ## Nested trees -/

/-- the spans of a node's children, in the order of the schema -/
def childSpans (v : View) (ref : NodeRef) : List Span :=
  (v.childrenOf ref).filterMap fun slot => (v.tree.ref slot.node).toOption.map fun child => child.node.span

/-- the node has positions of its own; its children lie within it and do not overlap -/
def Tidy (v : View) (ref : NodeRef) : Prop :=
  ref.node.span.start < ref.node.span.stop ∧
  (∀ child ∈ v.childSpans ref, ref.node.span.contains child = true) ∧
  (v.childSpans ref).Pairwise fun a b => a.overlaps b = false

instance (v : View) (ref : NodeRef) : Decidable (v.Tidy ref) :=
  inferInstanceAs (Decidable (_ ∧ (∀ child ∈ v.childSpans ref, _) ∧ List.Pairwise _ _))

/-- the children of the node lie within it and do not overlap; the node and its children may be empty -/
def Parts (v : View) (ref : NodeRef) : Prop :=
  (∀ child ∈ v.childSpans ref, ref.node.span.contains child = true) ∧
  (v.childSpans ref).Pairwise fun a b => a.overlaps b = false

instance (v : View) (ref : NodeRef) : Decidable (v.Parts ref) :=
  inferInstanceAs (Decidable ((∀ child ∈ v.childSpans ref, _) ∧ List.Pairwise _ _))

/-- the root reaches the node, and this is what it reads there -/
def Visible (v : View) (root : NodeId) (ref : NodeRef) : Prop := v.Reaches root ref.id ∧ v.tree.ref ref.id = .ok ref

theorem visible_of_ref {v : View} {root id : NodeId} {ref : NodeRef} (hreach : v.Reaches root id)
    (hr : v.tree.ref id = .ok ref) : v.Visible root ref := by
  rw [Visible, Tree.ref_id hr]
  exact ⟨hreach, hr⟩

/-- every node below the root is tidy -/
def Nested (v : View) (root : NodeId) : Prop := ∀ ref, v.Visible root ref → v.Tidy ref

/-- at every node below the root the children lie within it and do not overlap -/
def Parted (v : View) (root : NodeId) : Prop := ∀ ref, v.Visible root ref → v.Parts ref

theorem Nested.parted {v : View} {root : NodeId} (h : v.Nested root) : v.Parted root := fun ref hv => (h ref hv).2

/-- a test for a whole arena: every node in it is tidy -/
def tidy (v : View) : Bool :=
  v.tree.ids.all fun id =>
    match v.tree.ref id with
    | .ok ref => decide (v.Tidy ref)
    | .error _ => true

/-- what was tested at every id holds at every node that a root reaches -/
theorem forall_visible_of_all {v : View} {P : NodeRef → Prop} [DecidablePred P]
    (h : (v.tree.ids.all fun id =>
      match v.tree.ref id with
      | .ok ref => decide (P ref)
      | .error _ => true) = true) (root : NodeId) : ∀ ref, v.Visible root ref → P ref := by
  intro ref hv
  have hid := List.all_eq_true.1 h ref.id (List.mem_range.2 (Tree.lt_size_of_ref hv.2))
  rw [hv.2] at hid
  exact of_decide_eq_true hid

theorem nested_of_tidy {v : View} (h : v.tidy = true) (root : NodeId) : v.Nested root := forall_visible_of_all h root

theorem mem_childSpans {v : View} {ref child : NodeRef} {slot : ChildSlot} (hslot : slot ∈ v.childrenOf ref)
    (hr : v.tree.ref slot.node = .ok child) : child.node.span ∈ v.childSpans ref :=
  List.mem_filterMap.2 ⟨slot, hslot, by rw [hr]; rfl⟩

/-- the children of a node that can be read, in the order of the schema -/
def childRefs (v : View) (ref : NodeRef) : List NodeRef :=
  (v.childrenOf ref).filterMap fun slot => (v.tree.ref slot.node).toOption

theorem mem_childRefs {v : View} {ref child : NodeRef} :
    child ∈ v.childRefs ref ↔ ∃ slot ∈ v.childrenOf ref, v.tree.ref slot.node = .ok child := by
  simp only [childRefs, List.mem_filterMap]
  refine exists_congr fun slot => and_congr_right fun _ => ?_
  cases v.tree.ref slot.node <;> simp [Except.toOption]

/-- the children of the node lie within it -/
def Encloses (v : View) (ref : NodeRef) : Prop :=
  ∀ child ∈ v.childRefs ref, ref.node.span.contains child.node.span = true

instance (v : View) (ref : NodeRef) : Decidable (v.Encloses ref) :=
  inferInstanceAs (Decidable (∀ child ∈ v.childRefs ref, _))

theorem Parts.encloses {v : View} {ref : NodeRef} (h : v.Parts ref) : v.Encloses ref := by
  intro child hchild
  obtain ⟨slot, hslot, hr⟩ := mem_childRefs.1 hchild
  exact h.1 _ (mem_childSpans hslot hr)

/-- where children lie within their parents, a node contains whatever lies below it -/
theorem contains_of_reaches {v : View} {root : NodeId} (h : ∀ ref, v.Visible root ref → v.Encloses ref) {a : NodeRef}
    (ha : v.Visible root a) {n : NodeId} (hn : v.Reaches a.id n) :
    ∀ b, v.tree.ref n = .ok b → a.node.span.contains b.node.span = true := by
  induction hn with
  | refl =>
    intro b hb
    rw [ha.2] at hb
    cases hb
    exact Span.contains_refl _
  | @tail m n hm hc ih =>
    intro b hb
    obtain ⟨mid, hmid, slot, hslot, rfl⟩ := hc
    have hvisible : v.Visible root mid := visible_of_ref (ha.1.trans hm) hmid
    exact Span.contains_trans (ih mid hmid) (h mid hvisible b (mem_childRefs.2 ⟨slot, hslot, hb⟩))

theorem Parted.contains_of_reaches {v : View} {root : NodeId} (h : v.Parted root) {a : NodeRef}
    (ha : v.Visible root a) {n : NodeId} (hn : v.Reaches a.id n) :
    ∀ b, v.tree.ref n = .ok b → a.node.span.contains b.node.span = true :=
  View.contains_of_reaches (fun ref hv => (h ref hv).encloses) ha hn

/-! ## The order of the visits -/

/-- two seats whose nodes, where they can be read, do not overlap -/
def Apart (v : View) (a b : Seat) : Prop :=
  ∀ x y, v.tree.ref a.node = .ok x → v.tree.ref b.node = .ok y → x.node.span.overlaps y.node.span = false

theorem reaches_top {v : View} {root : NodeId} : ∀ seat ∈ [Seat.top root], v.Reaches root seat.node := by
  intro seat hs
  rw [List.mem_singleton] at hs
  subst hs
  exact .refl

theorem Parts.apart {v : View} {ref : NodeRef} (h : v.Parts ref) : (v.seats ref).Pairwise v.Apart := by
  have hpairs := List.pairwise_filterMap.1 h.2
  refine List.pairwise_map.2 (hpairs.imp fun {a b} hab x y hx hy => ?_)
  exact hab _ (by rw [show v.tree.ref a.node = .ok x from hx]; rfl) _ (by rw [show v.tree.ref b.node = .ok y from hy]; rfl)

/-- of two visits in a parted tree, the second node lies below the first or the two do not overlap -/
theorem Unfolds.refs_nest {v : View} {root : NodeId} (hn : v.Parted root) {row : List Seat} {forest : Forest}
    (h : v.Unfolds row forest) (hreach : ∀ seat ∈ row, v.Reaches root seat.node) (hrow : row.Pairwise v.Apart) :
    forest.refs.Pairwise fun a b => v.Reaches a.id b.id ∨ a.node.span.overlaps b.node.span = false := by
  induction h with
  | nil => exact .nil
  | broken _ => exact .nil
  | @cons seat rest ref below next hr hbelow hnext ihbelow ihnext =>
    have hid := Tree.ref_id hr
    have hvisible : v.Visible root ref := visible_of_ref (hreach seat List.mem_cons_self) hr
    have hrow' := List.pairwise_cons.1 hrow
    have hreach' : ∀ s ∈ rest, v.Reaches root s.node := fun s hs => hreach s (List.mem_cons_of_mem _ hs)
    -- what is below this node lies within it
    have hin : ∀ a ∈ below.refs, v.Reaches ref.id a.id ∧ ref.node.span.contains a.node.span = true := by
      intro a ha
      obtain ⟨hok, s, hs, hra⟩ := hbelow.reaches a ha
      have hra' : v.Reaches ref.id a.id := by rw [hid]; exact .head (child_of_seat hr hs) hra
      exact ⟨hra', hn.contains_of_reaches hvisible hra' a hok⟩
    -- what comes after it lies within one of the brothers after it
    have hout : ∀ b ∈ next.refs, ref.node.span.overlaps b.node.span = false := by
      intro b hb
      obtain ⟨hok, s, hs, hrb⟩ := hnext.reaches b hb
      obtain ⟨brother, hbrother⟩ : ∃ brother, v.tree.ref s.node = .ok brother := by
        rcases Relation.ReflTransGen.cases_head hrb with heq | ⟨child, ⟨brother, hbr, -⟩, -⟩
        · exact ⟨b, heq ▸ hok⟩
        · exact ⟨brother, hbr⟩
      have hsid := Tree.ref_id hbrother
      have hsvisible : v.Visible root brother := visible_of_ref (hreach' s hs) hbrother
      have hcontains := hn.contains_of_reaches hsvisible (hsid ▸ hrb) b hok
      exact Span.overlaps_eq_false_of_contains (hrow'.1 s hs ref brother hr hbrother) (Span.contains_refl _) hcontains
    simp only [Forest.refs]
    refine List.pairwise_cons.2 ⟨fun b hb => ?_, List.pairwise_append.2 ⟨?_, ihnext hreach' hrow'.2, ?_⟩⟩
    · rcases List.mem_append.1 hb with hb | hb
      · exact Or.inl (hin b hb).1
      · exact Or.inr (hout b hb)
    · refine ihbelow (fun s hs => ?_) (hn ref hvisible).apart
      exact (hreach seat List.mem_cons_self).tail (child_of_seat hr hs)
    · intro a ha b hb
      exact Or.inr (Span.overlaps_eq_false_of_contains (hout b hb) (hin a ha).2 (Span.contains_refl _))

/-! ## The visited nodes in order of their starts -/

theorem mem_sweepOrder_iff {v : View} {root : NodeId} (hacyclic : v.Acyclic root) (hwhole : v.Whole root)
    {node : Extent} : node ∈ v.sweepOrder root ↔ ∃ ref, v.Visible root ref ∧ Extent.ofRef ref = node := by
  simp only [mem_sweepOrder, hacyclic.unfolds.mem_refs hwhole, Visible]

/-- **The sorted picture of a parted tree.** Of two nodes in order of their starts, the first lies above the second or the
two do not overlap. -/
theorem Parted.sorted {v : View} {root : NodeId} (hn : v.Parted root) (hacyclic : v.Acyclic root)
    (hwhole : v.Whole root) :
    (v.sweepOrder root).Pairwise fun m n =>
      m.span.start ≤ n.span.start ∧ (v.Reaches m.id n.id ∨ m.span.overlaps n.span = false) := by
  have hrefs := hacyclic.unfolds.refs_nest hn reaches_top (List.pairwise_singleton _ _)
  have hextents : ((v.unfolding root).refs.map Extent.ofRef).Pairwise fun a b =>
      v.Reaches a.id b.id ∨ a.span.overlaps b.span = false := List.pairwise_map.2 hrefs
  have hpairs := (byStart_inStartOrder _).pairwise hextents
  refine List.Pairwise.imp_of_mem (fun {m n} hm hn' h => ?_) hpairs
  obtain ⟨a, ha, rfl⟩ := (mem_sweepOrder_iff hacyclic hwhole).1 hm
  obtain ⟨b, hb, rfl⟩ := (mem_sweepOrder_iff hacyclic hwhole).1 hn'
  rcases h with ⟨hlt, hab | hr | hapart⟩ | ⟨heq, hab⟩
  · exact ⟨Nat.le_of_lt hlt, hab⟩
  · -- a node does not lie below one that starts after it
    have hcontains := Span.contains_iff.1 (hn.contains_of_reaches hb hr a ha.2)
    simp only [Extent.ofRef, HasSpan.span] at *
    omega
  · exact ⟨Nat.le_of_lt hlt, Or.inr (Span.overlaps_comm _ _ ▸ hapart)⟩
  · exact ⟨Nat.le_of_eq heq, hab⟩

/-! ## The innermost node around a range -/

/-- the node contains the range, and every other node that does lies above it -/
structure Innermost (v : View) (root : NodeId) (range : Span) (ref : NodeRef) : Prop where
  visible : v.Visible root ref
  contains : ref.node.span.contains range = true
  above : ∀ other, v.Visible root other → other.node.span.contains range = true → v.Reaches other.id ref.id

theorem Innermost.unique {v : View} {root : NodeId} (hacyclic : v.Acyclic root) {range : Span} {a b : NodeRef}
    (ha : v.Innermost root range a) (hb : v.Innermost root range b) : a = b := by
  have hab := hb.above a ha.visible ha.contains
  have hba := ha.above b hb.visible hb.contains
  have hid : a.id = b.id := by
    rcases Relation.ReflTransGen.cases_head hab with heq | ⟨c, hc, hcb⟩
    · exact heq
    · exact absurd (Relation.TransGen.head' hc (hcb.trans hba)) (hacyclic a.id ha.visible.1)
  have hra := ha.visible.2
  rw [hid, hb.visible.2] at hra
  cases hra
  rfl

end View

/-- the last of the nodes that contain a range -/
def enclosing (nodes : List Extent) (range : Span) : Option Extent :=
  nodes.reverse.find? fun node => node.span.contains range

namespace View

theorem enclosing_eq_none_iff {v : View} {root : NodeId} (hacyclic : v.Acyclic root) (hwhole : v.Whole root)
    {range : Span} :
    enclosing (v.sweepOrder root) range = none ↔ ∀ ref, v.Visible root ref → ref.node.span.contains range = false := by
  rw [enclosing, List.find?_eq_none]
  constructor
  · intro h ref hv
    have hm : Extent.ofRef ref ∈ (v.sweepOrder root).reverse :=
      List.mem_reverse.2 ((mem_sweepOrder_iff hacyclic hwhole).2 ⟨ref, hv, rfl⟩)
    simpa [Extent.ofRef] using h _ hm
  · intro h node hm
    obtain ⟨ref, hv, rfl⟩ := (mem_sweepOrder_iff hacyclic hwhole).1 (List.mem_reverse.1 hm)
    simp [Extent.ofRef, h ref hv]

/-- **The last node around a range is the innermost one.** -/
theorem Parted.innermost_enclosing {v : View} {root : NodeId} (hn : v.Parted root) (hacyclic : v.Acyclic root)
    (hwhole : v.Whole root) {range : Span} (hrange : range.start < range.stop) {node : Extent}
    (h : enclosing (v.sweepOrder root) range = some node) :
    ∃ ref, v.Innermost root range ref ∧ Extent.ofRef ref = node := by
  obtain ⟨hcontains, later, earlier, hsplit, hlater⟩ := List.find?_eq_some_iff_append.1 h
  have hm : node ∈ v.sweepOrder root := List.mem_reverse.1 (hsplit ▸ by simp)
  obtain ⟨ref, hv, rfl⟩ := (mem_sweepOrder_iff hacyclic hwhole).1 hm
  refine ⟨ref, ⟨hv, hcontains, fun other ho hoc => ?_⟩, rfl⟩
  have hmem : Extent.ofRef other ∈ later ++ Extent.ofRef ref :: earlier := by
    rw [← hsplit]
    exact List.mem_reverse.2 ((mem_sweepOrder_iff hacyclic hwhole).2 ⟨other, ho, rfl⟩)
  rcases List.mem_append.1 hmem with hmem | hmem
  · -- none of the later nodes contains the range
    have := hlater _ hmem
    simp [Extent.ofRef, hoc] at this
  · rcases List.mem_cons.1 hmem with heq | hmem
    · rw [show other.id = ref.id from congrArg Extent.id heq]
      exact .refl
    · -- an earlier one lies above, since the two overlap where the range is
      have hpairs := List.pairwise_reverse.2 (hn.sorted hacyclic hwhole)
      rw [hsplit] at hpairs
      rcases ((List.pairwise_cons.1 (List.pairwise_append.1 hpairs).2.1).1 _ hmem).2 with hr | hapart
      · exact hr
      · have h1 := Span.contains_iff.1 hcontains
        have h2 := Span.contains_iff.1 hoc
        rw [Span.overlaps_eq_false_iff] at hapart
        simp only [Extent.ofRef] at *
        omega

theorem Innermost.enclosing_eq {v : View} {root : NodeId} (hn : v.Parted root) (hacyclic : v.Acyclic root)
    (hwhole : v.Whole root) {range : Span} (hrange : range.start < range.stop) {ref : NodeRef}
    (h : v.Innermost root range ref) : enclosing (v.sweepOrder root) range = some (Extent.ofRef ref) := by
  cases hfind : enclosing (v.sweepOrder root) range with
  | none =>
    have hnot := (enclosing_eq_none_iff hacyclic hwhole).1 hfind ref h.visible
    rw [h.contains] at hnot
    cases hnot
  | some node =>
    obtain ⟨other, hother, rfl⟩ := hn.innermost_enclosing hacyclic hwhole hrange hfind
    rw [h.unique hacyclic hother]

end View

end Arbor
