/-
Where a node first stands. Each question about the place of a node is a walk of its own that ends at the first spot of the
node. A shared node has several spots, and so may its parents have; the answers still fit together, since the parent at the
first spot of a node is itself at its first spot. Were there an earlier spot of the parent, the node would also hang below
that one, and all that is below a spot comes before whatever follows.

- `Unfolds.first?_cases`: the first spot of a node is one of the row, or it hangs below the first spot of its parent.
- `Way.chain`: a way, with the node it leads to, is a chain of children that starts at the root.
- `relations_consistent`: what the questions about one node say about each other, below any acyclic root.
-/
import Mathlib.Data.List.Chain
import Arbor.Proofs.ParentLinks
import Arbor.Proofs.Positions

namespace Arbor

namespace Forest

/-- the first spot of a node among the brothers and what is below them -/
def first? (path : List NodeId) (forest : Forest) (target : NodeId) : Option Spot :=
  (forest.spots path).find? fun x => x.ref.id == target

theorem first?_cons_self (path : List NodeId) (field : Option String) (index : Option Nat) (ref : NodeRef)
    (below next : Forest) :
    first? path (.cons field index ref below next) ref.id = some ⟨ref, ⟨path.toArray, field, index⟩⟩ := by
  simp [first?, spots]

theorem first?_cons_of_ne {path : List NodeId} {field : Option String} {index : Option Nat} {ref : NodeRef}
    {below next : Forest} {target : NodeId} (h : ref.id ≠ target) :
    first? path (.cons field index ref below next) target =
      (first? (path ++ [ref.id]) below target).or (first? path next target) := by
  simp [first?, spots, h, List.find?_append]

theorem first?_eq_none_iff {path : List NodeId} {forest : Forest} {target : NodeId} :
    forest.first? path target = none ↔ ∀ ref ∈ forest.refs, ref.id ≠ target := by
  rw [first?, List.find?_eq_none, ← forest.map_ref_spots path]
  simp

theorem id_of_first? {path : List NodeId} {forest : Forest} {target : NodeId} {x : Spot}
    (h : forest.first? path target = some x) : x.ref.id = target := by
  simpa using List.find?_some h

theorem mem_refs_of_first? {path : List NodeId} {forest : Forest} {target : NodeId} {x : Spot}
    (h : forest.first? path target = some x) : x.ref ∈ forest.refs := by
  rw [← forest.map_ref_spots path]
  exact List.mem_map.2 ⟨x, List.mem_of_find?_eq_some h, rfl⟩

end Forest

namespace View

variable {v : View}

/-! ## First spots -/

theorem Acyclic.of_child {a b : NodeId} (h : v.Acyclic a) (hc : v.Child a b) : v.Acyclic b :=
  fun n hn => h n (Relation.ReflTransGen.head hc hn)

theorem Hangs.child {y x : Spot} (h : v.Hangs y x) (hy : v.tree.ref y.ref.id = .ok y.ref) :
    v.Child y.ref.id x.ref.id := by
  obtain ⟨slot, hslot, hid, -⟩ := h
  exact hid ▸ child_of_mem hy hslot

/-- where a node is not below a row, no parent of it is -/
theorem Unfolds.not_child_of_first? {row : List Seat} {forest : Forest} (h : v.Unfolds row forest)
    (hu : forest.Unbroken) {path : List NodeId} {target : NodeId} (hnone : forest.first? path target = none) :
    ∀ ref ∈ forest.refs, ¬ v.Child ref.id target := by
  intro ref hm hchild
  obtain ⟨-, seat, hseat, hreach⟩ := h.reaches ref hm
  obtain ⟨other, hother, hid⟩ := h.mem_of_reaches hu seat hseat target (hreach.tail hchild)
  exact Forest.first?_eq_none_iff.1 hnone other hother hid

/-- an acyclic node does not stand again below itself -/
theorem Unfolds.id_ne_of_mem_below {id : NodeId} {ref : NodeRef} {below : Forest} (h : v.Unfolds (v.seats ref) below)
    (hr : v.tree.ref id = .ok ref) (hloop : v.Acyclic id) : ∀ other ∈ below.refs, other.id ≠ ref.id := by
  intro other hm heq
  obtain ⟨-, child, hchild, hreach⟩ := h.reaches other hm
  rw [heq, Tree.ref_id hr] at hreach
  exact hloop id .refl (.head' (child_of_seat hr hchild) hreach)

/-- **The first spot of a node hangs below the first spot of its parent**, unless the node is one of the row. -/
theorem Unfolds.first?_cases {row : List Seat} {forest : Forest} (h : v.Unfolds row forest) (hu : forest.Unbroken)
    (hacyclic : ∀ seat ∈ row, v.Acyclic seat.node) {target : NodeId} :
    ∀ (path : List NodeId) (x : Spot), forest.first? path target = some x →
      (∃ seat ∈ row, x.ref.id = seat.node ∧ x.context = ⟨path.toArray, seat.field, seat.index⟩) ∨
      ∃ y, forest.first? path y.ref.id = some y ∧ v.Hangs y x := by
  induction h with
  | nil => intro path x hx; simp [Forest.first?, Forest.spots] at hx
  | broken _ => exact absurd hu id
  | @cons seat rest ref below next hr hbelow hnext ihbelow ihnext =>
    intro path x hx
    have hloop : v.Acyclic seat.node := hacyclic seat List.mem_cons_self
    by_cases hself : ref.id = target
    · subst hself
      rw [Forest.first?_cons_self] at hx
      cases hx
      exact .inl ⟨seat, List.mem_cons_self, Tree.ref_id hr, rfl⟩
    rw [Forest.first?_cons_of_ne hself] at hx
    cases hfirst : below.first? (path ++ [ref.id]) target with
    | some z =>
      rw [hfirst, Option.some_or, Option.some.injEq] at hx
      subst hx
      have hseats : ∀ child ∈ v.seats ref, v.Acyclic child.node :=
        fun child hchild => hloop.of_child (child_of_seat hr hchild)
      rcases ihbelow hu.1 hseats (path ++ [ref.id]) z hfirst with ⟨child, hchild, hnode, hctx⟩ | ⟨y, hy, hhang⟩
      · -- the target is a child of this node, which is first where it stands
        obtain ⟨slot, hslot, rfl⟩ := mem_seats.1 hchild
        exact .inr ⟨⟨ref, ⟨path.toArray, seat.field, seat.index⟩⟩, Forest.first?_cons_self .., slot, hslot, hnode,
          by simpa [Seat.ofSlot] using hctx⟩
      · -- the parent is first among what is below, and it is not this node again
        have hne : ref.id ≠ y.ref.id :=
          (hbelow.id_ne_of_mem_below hr hloop y.ref (Forest.mem_refs_of_first? hy)).symm
        exact .inr ⟨y, by rw [Forest.first?_cons_of_ne hne, hy, Option.some_or], hhang⟩
    | none =>
      rw [hfirst, Option.none_or] at hx
      rcases ihnext hu.2 (fun s hs => hacyclic s (List.mem_cons_of_mem _ hs)) path x hx with
        ⟨brother, hb, hnode, hctx⟩ | ⟨y, hy, hhang⟩
      · exact .inl ⟨brother, List.mem_cons_of_mem _ hb, hnode, hctx⟩
      · -- the parent is first among the brothers, since this node and what is below it hold no target
        have hchild : v.Child y.ref.id target := by
          rw [← Forest.id_of_first? hx]
          exact hhang.child (hnext.reaches y.ref (Forest.mem_refs_of_first? hy)).1
        have hne : ref.id ≠ y.ref.id := by
          intro heq
          obtain ⟨s, hs, hnode⟩ := seat_of_child (Tree.ref_id hr ▸ hr) (heq ▸ hchild)
          obtain ⟨other, hother, hid⟩ := hbelow.mem_of_reaches hu.1 s hs target (hnode ▸ .refl)
          exact Forest.first?_eq_none_iff.1 hfirst other hother hid
        have hnone : below.first? (path ++ [ref.id]) y.ref.id = none :=
          Forest.first?_eq_none_iff.2 fun other hother hid =>
            hbelow.not_child_of_first? hu.1 hfirst other hother (hid ▸ hchild)
        exact .inr ⟨y, by rw [Forest.first?_cons_of_ne hne, hnone, Option.none_or, hy], hhang⟩

/-- a node has a first spot if and only if it is visited -/
theorem isSome_spot?_iff {root : Option NodeId} {target : NodeId} :
    (v.spot? root target).isSome = true ↔ target ∈ ((v.spots root).map Spot.ref).map NodeRef.id := by
  rw [spot?, List.find?_isSome]
  simp

section Queries

variable {root : Option NodeId} {target : NodeId} {x : Spot} (h : v.Ends root)
include h

theorem nodes_eq_spots : v.nodes root = .ok ((v.spots root).map Spot.ref) := by
  cases root with
  | none => rfl
  | some top =>
    obtain ⟨hacyclic, hwhole⟩ := h top rfl
    rw [nodes_eq_refs hacyclic hwhole hacyclic.unfolds, spots, Forest.map_ref_spots]

/-- the first spot of a node is that of the root, or it hangs below the first spot of its parent -/
theorem spot?_cases (hx : v.spot? root target = some x) :
    (root = some target ∧ x.context = ⟨#[], none, none⟩) ∨
      ∃ y, v.spot? root y.ref.id = some y ∧ v.Hangs y x := by
  cases root with
  | none => simp [spot?, spots] at hx
  | some top =>
    obtain ⟨hacyclic, hwhole⟩ := h top rfl
    have hu := hacyclic.unfolds
    have hid : x.ref.id = target := Forest.id_of_first? hx
    rcases hu.first?_cases (hu.unbroken (by simpa [Seat.top] using hwhole)) (by simpa [Seat.top] using hacyclic) [] x hx
      with ⟨seat, hseat, hnode, hctx⟩ | hbelow
    · rw [List.mem_singleton] at hseat
      subst hseat
      exact .inl ⟨congrArg some (hnode.symm.trans hid), hctx⟩
    · exact .inr hbelow

/-- the ancestors at the first spot of a node are those at the first spot of its parent, and the parent -/
theorem ancestors_of_parent (hx : v.spot? root target = some x) {p : NodeId} (hp : x.context.parent? = some p) :
    ∃ y, v.spot? root p = some y ∧ x.context.ancestors.toList = y.context.ancestors.toList ++ [p] := by
  rcases spot?_cases h hx with ⟨-, hctx⟩ | ⟨y, hy, slot, -, -, hctx⟩
  · rw [hctx] at hp
    cases hp
  · rw [hctx, Context.parent?, Array.back?_push, Option.some.injEq] at hp
    subst hp
    exact ⟨y, hy, by rw [hctx, Array.toList_push]⟩

/-- the context of the first spot is a way from the root -/
theorem way_of_spot? (hx : v.spot? root target = some x) :
    ∃ top, root = some top ∧ v.Way top x.context.ancestors.toList ⟨target, x.context.field, x.context.index⟩ := by
  have hm : x ∈ v.spots root := List.mem_of_find?_eq_some hx
  have hid : x.ref.id = target := by simpa using List.find?_some hx
  cases root with
  | none => simp [spots] at hm
  | some top => exact ⟨top, rfl, hid ▸ way_of_spot h _ x hm rfl⟩

/-! ## The questions -/

theorem parentOf_eq (target : NodeId) :
    v.parentOf root target = .ok ((v.spot? root target).bind fun x => x.context.parent?) := by
  rw [parentOf, locate_eq h]
  cases v.spot? root target <;> rfl

theorem ancestorsOf_eq (target : NodeId) :
    v.ancestorsOf root target = .ok (((v.spot? root target).map fun x => x.context.ancestors.toList).getD []) := by
  rw [ancestorsOf, locate_eq h]
  cases v.spot? root target <;> rfl

theorem depth_eq (target : NodeId) :
    v.depth root target = .ok ((v.spot? root target).map fun x => x.context.depth) := by
  rw [depth, locate_eq h]
  cases v.spot? root target <;> rfl

end Queries

/-- a way, with the node it leads to, is a chain of children that starts at the root -/
theorem Way.chain {root : NodeId} {path : List NodeId} {seat : Seat} (h : v.Way root path seat) :
    (path ++ [seat.node]).head? = some root ∧ (path ++ [seat.node]).IsChain v.Child := by
  induction h with
  | top => exact ⟨rfl, .singleton _⟩
  | @child path parent seat ref hway hr hseat ih =>
    refine ⟨?_, List.isChain_append.2 ⟨ih.2, .singleton _, ?_⟩⟩
    · rw [List.head?_append, ih.1, Option.some_or]
    · intro a ha b hb
      simp only [List.getLast?_append, List.getLast?_singleton, Option.some_or, Option.mem_def, Option.some.injEq,
        List.head?_cons] at ha hb
      subst ha hb
      exact child_of_seat hr hseat

/-! ## Main result -/

/-- **The questions about a node agree.** Below a root, or none, where no node lies below itself and all can be read (shared
nodes allowed), and for every id, of the arena or not, every question has an answer, and:
- the root contains the node, and the node has a depth, if and only if it is among the visited nodes;
- otherwise it has no parent, no ancestors and no siblings;
- a visited node has as many ancestors as its depth says; its parent is the last of them, and only the root has none;
- the ancestors of a node with a parent are the ancestors of the parent, and the parent;
- the ancestors and the node are a chain of children that starts at the root. -/
theorem relations_consistent (v : View) (root : Option NodeId) (target : NodeId) (h : v.Ends root) :
    ∃ all found depth parent ancestors siblings,
      v.nodes root = .ok all ∧ v.contains root target = .ok found ∧ v.depth root target = .ok depth ∧
      v.parentOf root target = .ok parent ∧ v.ancestorsOf root target = .ok ancestors ∧
      v.siblingsOf root target = .ok siblings ∧
      (found = true ↔ target ∈ all.map NodeRef.id) ∧ (depth.isSome = true ↔ target ∈ all.map NodeRef.id) ∧
      (target ∉ all.map NodeRef.id → parent = none ∧ ancestors = [] ∧ siblings = []) ∧
      (target ∈ all.map NodeRef.id →
        depth = some ancestors.length ∧ parent = ancestors.getLast? ∧ (parent = none ↔ root = some target) ∧
        (∀ p, parent = some p → ∃ above, v.ancestorsOf root p = .ok above ∧ ancestors = above ++ [p]) ∧
        (ancestors ++ [target]).head? = root ∧ (ancestors ++ [target]).IsChain v.Child) := by
  refine ⟨_, _, _, _, _, _, nodes_eq_spots h, contains_eq h target, depth_eq h target, parentOf_eq h target,
    ancestorsOf_eq h target, siblingsOf_eq h target, isSome_spot?_iff, ?_, fun hnot => ?_, fun hmem => ?_⟩
  · rw [Option.isSome_map]
    exact isSome_spot?_iff
  · have hnone : v.spot? root target = none := by
      rw [← Option.not_isSome_iff_eq_none, isSome_spot?_iff]
      exact hnot
    simp [hnone]
  · obtain ⟨x, hx⟩ := Option.isSome_iff_exists.1 (isSome_spot?_iff.2 hmem)
    obtain ⟨top, rfl, hway⟩ := way_of_spot? h hx
    have hlast : x.context.parent? = x.context.ancestors.toList.getLast? := by
      rw [Context.parent?, Array.getLast?_toList]
    simp only [hx, Option.map_some, Option.bind_some, Option.getD_some]
    refine ⟨rfl, hlast, ?_, fun p hp => ?_, hway.chain⟩
    · rw [hlast, List.getLast?_eq_none_iff, hway.path_eq_nil_iff (h top rfl).1, Option.some.injEq, eq_comm]
    · obtain ⟨y, hy, hancestors⟩ := ancestors_of_parent h hx hp
      refine ⟨_, ancestorsOf_eq h p, ?_⟩
      rw [hy]
      exact hancestors

/-- a list of two lists that share a third one; the head of the third is a name, which the second list and the whole list
hold as well -/
def crossedTree : Tree where
  names := ⟨#["List", "items", "Name", "head"]⟩
  nodes := #[
    ⟨0, ⟨0, 20⟩, [(1, .sequence [some 1, none, some 2]), (3, .node 4)], []⟩,
    ⟨0, ⟨1, 9⟩, [(1, .sequence [some 3])], []⟩,
    ⟨0, ⟨10, 19⟩, [(1, .sequence [some 4, some 3])], []⟩,
    ⟨0, ⟨2, 8⟩, [(3, .optional (some 4))], []⟩,
    ⟨2, ⟨3, 5⟩, [], []⟩,
    ⟨2, ⟨30, 31⟩, [], []⟩]
  root := some 0

/-- The name is visited four times. Its parent is the shared list, where the walk first meets it, and the ancestors of both
are those of the first spots; the last name is not visited. -/
theorem relations_consistent_crossed :
    let view : View := ⟨crossedTree, sharedView.schema⟩
    view.Ends (some 0) ∧
      view.parentOf (some 0) 4 = .ok (some 3) ∧ view.ancestorsOf (some 0) 3 = .ok [0, 1] ∧
      view.ancestorsOf (some 0) 4 = .ok [0, 1, 3] ∧ view.depth (some 0) 4 = .ok (some 3) ∧
      [0, 1, 3, 4].IsChain view.Child ∧ view.parentOf (some 0) 0 = .ok none ∧
      view.contains (some 0) 5 = .ok false ∧ view.siblingsOf (some 0) 5 = .ok [] := by
  intro view
  have hends : view.Ends (some 0) :=
    ends_some (acyclic_of_rising (by decide +kernel) 0) (whole_of_closed (by decide +kernel) (by decide +kernel))
  have hparent : view.parentOf (some 0) 4 = .ok (some 3) := (parentOf_eq hends 4).trans (by decide +kernel)
  have habove : view.ancestorsOf (some 0) 3 = .ok [0, 1] := (ancestorsOf_eq hends 3).trans (by decide +kernel)
  obtain ⟨all, -, depth, parent, ancestors, -, hall, -, hdepth, hp, hancestors, -, -, -, -, hvisited⟩ :=
    relations_consistent view (some 0) 4 hends
  obtain ⟨_, _, _, top, _, _, hall0, -, -, htop, -, -, -, -, -, hroot⟩ := relations_consistent view (some 0) 0 hends
  obtain ⟨_, found, _, _, _, siblings, hall5, hcontains, -, -, -, hsiblings, hfound, -, hout, -⟩ :=
    relations_consistent view (some 0) 5 hends
  cases Except.ok.inj (hall.symm.trans (nodes_eq_spots hends))
  cases Except.ok.inj (hall0.symm.trans (nodes_eq_spots hends))
  cases Except.ok.inj (hall5.symm.trans (nodes_eq_spots hends))
  cases Except.ok.inj (hp.symm.trans hparent)
  obtain ⟨hlength, -, -, hrecursive, -, hchain⟩ := hvisited (by decide +kernel)
  obtain ⟨above, ha, rfl⟩ := hrecursive 3 rfl
  cases Except.ok.inj (ha.symm.trans habove)
  have hnot : 5 ∉ ((view.spots (some 0)).map Spot.ref).map NodeRef.id := by decide +kernel
  refine ⟨hends, hparent, habove, hancestors, hlength ▸ hdepth, hchain, ?_, ?_, (hout hnot).2.2 ▸ hsiblings⟩
  · rw [htop, (hroot (by decide +kernel)).2.2.1.2 rfl]
  · rw [hcontains, Bool.eq_false_iff.2 (mt hfound.1 hnot)]

end View

end Arbor
