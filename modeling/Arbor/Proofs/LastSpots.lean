/-
Where a node stands last. The parent index keeps one entry for a node and writes it anew at every visit, so after the walk it
holds the last spot of each node, and a chain of parents mixes entries that were written at different times. It is one way from
the root all the same: at the last spot of a node, its parent is at its last spot too. Were there a later spot of the parent,
the node would hang below that one, and so later.

- `Unfolds.last?_cases`: the last spot of a node is one of the row, or it hangs below the last spot of its parent.
- `ParentIndex.Climbs`: the loop that goes up from a node, with no bound on its rounds; `climbs_lastSpot?` says that it comes to
  its end with the ancestors at the last spot.
- `Counts`: the size of the index is the number of its entries, whatever was written twice.
- `parentIndex_last_visit`: what the index says below any acyclic root.
-/
import Arbor.Proofs.FirstSpots

namespace Arbor

namespace Forest

/-- the last spot of a node among the brothers and what is below them -/
def last? (path : List NodeId) (forest : Forest) (target : NodeId) : Option Spot :=
  (forest.spots path).reverse.find? fun x => x.ref.id == target

theorem last?_cons (path : List NodeId) (field : Option String) (index : Option Nat) (ref : NodeRef) (below next : Forest)
    (target : NodeId) :
    last? path (.cons field index ref below next) target =
      (next.last? path target).or ((below.last? (path ++ [ref.id]) target).or
        (if ref.id = target then some ⟨ref, ⟨path.toArray, field, index⟩⟩ else none)) := by
  by_cases hid : ref.id = target <;> simp [last?, spots, List.find?_append, hid]

theorem last?_eq_none_iff {path : List NodeId} {forest : Forest} {target : NodeId} :
    forest.last? path target = none ↔ ∀ ref ∈ forest.refs, ref.id ≠ target := by
  rw [last?, List.find?_eq_none, ← forest.map_ref_spots path]
  simp

theorem mem_refs_of_last? {path : List NodeId} {forest : Forest} {target : NodeId} {x : Spot}
    (h : forest.last? path target = some x) : x.ref ∈ forest.refs := by
  rw [← forest.map_ref_spots path]
  exact List.mem_map.2 ⟨x, List.mem_reverse.1 (List.mem_of_find?_eq_some h), rfl⟩

end Forest

namespace View

variable {v : View}

/-! ## Last spots -/

/-- where a node is not below a row, nothing that holds it is -/
theorem Unfolds.last?_of_child {row : List Seat} {forest : Forest} (h : v.Unfolds row forest) (hu : forest.Unbroken)
    {path : List NodeId} {target : NodeId} (hnone : forest.last? path target = none) {parent : NodeId}
    (hchild : v.Child parent target) : forest.last? path parent = none := by
  have hfirst : forest.first? path target = none := Forest.first?_eq_none_iff.2 (Forest.last?_eq_none_iff.1 hnone)
  refine Forest.last?_eq_none_iff.2 fun ref hm hid => ?_
  exact h.not_child_of_first? hu hfirst ref hm (hid ▸ hchild)

/-- **The last spot of a node hangs below the last spot of its parent**, unless the node is one of the row. -/
theorem Unfolds.last?_cases {row : List Seat} {forest : Forest} (h : v.Unfolds row forest) (hu : forest.Unbroken)
    (hacyclic : ∀ seat ∈ row, v.Acyclic seat.node) {target : NodeId} :
    ∀ (path : List NodeId) (x : Spot), forest.last? path target = some x →
      (∃ seat ∈ row, x.ref.id = seat.node ∧ x.context = ⟨path.toArray, seat.field, seat.index⟩) ∨
      ∃ y, forest.last? path y.ref.id = some y ∧ v.Hangs y x := by
  induction h with
  | nil => intro path x hx; simp [Forest.last?, Forest.spots] at hx
  | broken _ => exact absurd hu id
  | @cons seat rest ref below next hr hbelow hnext ihbelow ihnext =>
    intro path x hx
    have hloop : v.Acyclic seat.node := hacyclic seat List.mem_cons_self
    rw [Forest.last?_cons] at hx
    cases hlater : next.last? path target with
    | some z =>
      rw [hlater, Option.some_or, Option.some.injEq] at hx
      subst hx
      rcases ihnext hu.2 (fun s hs => hacyclic s (List.mem_cons_of_mem _ hs)) path z hlater with
        ⟨brother, hb, hnode, hctx⟩ | ⟨y, hy, hhang⟩
      · exact .inl ⟨brother, List.mem_cons_of_mem _ hb, hnode, hctx⟩
      · exact .inr ⟨y, by rw [Forest.last?_cons, hy, Option.some_or], hhang⟩
    | none =>
      -- the brothers after this node hold no target, so none of its parents is there either
      have hafter : ∀ parent, v.Child parent target → next.last? path parent = none :=
        fun parent hchild => hnext.last?_of_child hu.2 hlater hchild
      rw [hlater, Option.none_or] at hx
      cases hunder : below.last? (path ++ [ref.id]) target with
      | some z =>
        rw [hunder, Option.some_or, Option.some.injEq] at hx
        subst hx
        have hid : z.ref.id = target := by simpa using List.find?_some hunder
        have hseats : ∀ child ∈ v.seats ref, v.Acyclic child.node :=
          fun child hchild => hloop.of_child (child_of_seat hr hchild)
        rcases ihbelow hu.1 hseats (path ++ [ref.id]) z hunder with ⟨child, hchild, hnode, hctx⟩ | ⟨y, hy, hhang⟩
        · -- the target is a child of this node, which does not stand again below itself
          obtain ⟨slot, hslot, rfl⟩ := mem_seats.1 hchild
          have hparent : v.Child ref.id target := by
            rw [← hid, hnode]
            exact child_of_mem (Tree.ref_id hr ▸ hr) hslot
          have hself : below.last? (path ++ [ref.id]) ref.id = none :=
            Forest.last?_eq_none_iff.2 (hbelow.id_ne_of_mem_below hr hloop)
          refine .inr ⟨⟨ref, ⟨path.toArray, seat.field, seat.index⟩⟩, ?_, slot, hslot, hnode, ?_⟩
          · rw [Forest.last?_cons, hafter ref.id hparent, hself, Option.none_or, Option.none_or, if_pos rfl]
          · simpa [Seat.ofSlot] using hctx
        · -- the parent stands last below this node
          have hparent : v.Child y.ref.id target := by
            rw [← hid]
            exact hhang.child (hbelow.reaches y.ref (Forest.mem_refs_of_last? hy)).1
          exact .inr ⟨y, by rw [Forest.last?_cons, hafter _ hparent, hy, Option.none_or, Option.some_or], hhang⟩
      | none =>
        rw [hunder, Option.none_or] at hx
        split_ifs at hx
        cases hx
        exact .inl ⟨seat, List.mem_cons_self, Tree.ref_id hr, rfl⟩

/-- the last spot of a node -/
def lastSpot? (v : View) (root : Option NodeId) (target : NodeId) : Option Spot :=
  (v.spots root).reverse.find? fun x => x.ref.id == target

theorem id_of_lastSpot? {root : Option NodeId} {target : NodeId} {x : Spot} (h : v.lastSpot? root target = some x) :
    x.ref.id = target := by
  simpa using List.find?_some h

theorem mem_of_lastSpot? {root : Option NodeId} {target : NodeId} {x : Spot} (h : v.lastSpot? root target = some x) :
    x ∈ v.spots root :=
  List.mem_reverse.1 (List.mem_of_find?_eq_some h)

/-- the last spot of a node is that of the root, or it hangs below the last spot of its parent -/
theorem lastSpot?_cases {root : Option NodeId} (h : v.Ends root) {target : NodeId} {x : Spot}
    (hx : v.lastSpot? root target = some x) :
    x.context = ⟨#[], none, none⟩ ∨ ∃ y, v.lastSpot? root y.ref.id = some y ∧ v.Hangs y x := by
  cases root with
  | none => simp [lastSpot?, spots] at hx
  | some top =>
    obtain ⟨hacyclic, hwhole⟩ := h top rfl
    have hu := hacyclic.unfolds
    rcases hu.last?_cases (hu.unbroken (by simpa [Seat.top] using hwhole)) (by simpa [Seat.top] using hacyclic) [] x hx
      with ⟨seat, hseat, -, hctx⟩ | hbelow
    · rw [List.mem_singleton] at hseat
      subst hseat
      exact .inl hctx
    · exact .inr hbelow

end View

/-! ## The loop that goes up -/

namespace ParentIndex

/-- the loop that goes up: each node that is met is put before what was found, until there is no parent -/
inductive Climbs (index : ParentIndex) : Option NodeId → List NodeId → List NodeId → Prop
  | stop (found : List NodeId) : Climbs index none found found
  | up {id : NodeId} {found all : List NodeId} (h : Climbs index (index.parent? id) (id :: found) all) :
      Climbs index (some id) found all

/-- with a round for each node that the loop finds, the bounded climb gives what the loop gives -/
theorem Climbs.climb_eq {index : ParentIndex} {start : Option NodeId} {found all : List NodeId}
    (h : index.Climbs start found all) :
    found.length ≤ all.length ∧ ∀ rounds, all.length ≤ found.length + rounds → index.climb rounds start found = all := by
  induction h with
  | stop found => exact ⟨Nat.le_refl _, fun rounds _ => by rw [climb]⟩
  | @up id found all _ ih =>
    rw [List.length_cons] at ih
    refine ⟨by omega, fun rounds hrounds => ?_⟩
    obtain ⟨fewer, rfl⟩ : ∃ fewer, rounds = fewer + 1 := ⟨rounds - 1, by omega⟩
    rw [climb]
    exact ih.2 fewer (by omega)

/-! ## The number of entries -/

/-- the size of the index is the number of nodes with an entry -/
def Counts (index : ParentIndex) : Prop :=
  index.size = ((Finset.range index.entries.size).filter fun n => index.contains n = true).card

theorem size_record_of_known {index : ParentIndex} {id : NodeId} {entry : IndexEntry} (h : index.entry? id = some entry)
    (ctx : Context) : (index.record id ctx).size = index.size := by
  have hsome : ¬ (index.entries[id]?.getD none).isNone = true := by
    rw [show index.entries[id]?.getD none = some entry from h]
    simp
  simp only [record]
  rw [if_neg hsome]

theorem contains_record {index : ParentIndex} {x : Spot} (h : x.ref.id < index.entries.size) (n : NodeId) :
    (index.record x.ref.id x.context).contains n = true ↔ n = x.ref.id ∨ index.contains n = true := by
  rw [contains, entry?_record h]
  split_ifs with hid
  · simp [hid]
  · simp [contains, Ne.symm hid]

/-- a node that is met again keeps its entry, with what is new in it, and is not counted twice -/
theorem Counts.record {index : ParentIndex} (hcounts : index.Counts) {x : Spot} (h : x.ref.id < index.entries.size) :
    (index.record x.ref.id x.context).Counts := by
  have hentries : (Finset.range (index.record x.ref.id x.context).entries.size).filter
        (fun n => (index.record x.ref.id x.context).contains n = true) =
      insert x.ref.id ((Finset.range index.entries.size).filter fun n => index.contains n = true) := by
    ext n
    simp only [Finset.mem_filter, Finset.mem_range, Finset.mem_insert, length_entries_record, contains_record h]
    constructor
    · rintro ⟨hn, rfl | hc⟩
      · exact .inl rfl
      · exact .inr ⟨hn, hc⟩
    · rintro (rfl | ⟨hn, hc⟩)
      · exact ⟨h, .inl rfl⟩
      · exact ⟨hn, .inr hc⟩
  rw [Counts, hentries]
  cases hold : index.entry? x.ref.id with
  | none =>
    have hnew : x.ref.id ∉ (Finset.range index.entries.size).filter fun n => index.contains n = true := by
      rw [Finset.mem_filter, contains, hold]
      simp
    rw [size_record_of_new hold, Finset.card_insert_of_notMem hnew, hcounts]
  | some entry =>
    have hmem : x.ref.id ∈ (Finset.range index.entries.size).filter fun n => index.contains n = true := by
      rw [Finset.mem_filter, contains, hold]
      exact ⟨Finset.mem_range.2 h, rfl⟩
    rw [size_record_of_known hold, Finset.insert_eq_of_mem hmem, hcounts]

theorem Counts.recordAll {index : ParentIndex} (hcounts : index.Counts) {spots : List Spot}
    (h : ∀ x ∈ spots, x.ref.id < index.entries.size) : (index.recordAll spots).Counts := by
  induction spots generalizing index with
  | nil => exact hcounts
  | cons x rest ih =>
    rw [recordAll_cons]
    refine ih (hcounts.record (h x List.mem_cons_self)) fun y hy => ?_
    rw [length_entries_record]
    exact h y (List.mem_cons_of_mem x hy)

end ParentIndex

namespace View

/-! ## What the index holds -/

section Filled

variable {v : View} {root : Option NodeId} (h : v.Ends root)
include h

/-- the entry of a node is that of its last spot -/
theorem entry?_lastSpot? (n : NodeId) :
    ParentIndex.entry? (v.filledIndex root) n = (v.lastSpot? root n).map Spot.entry := by
  rw [filledIndex, ParentIndex.entry?_recordAll _ _ (fun x hx => lt_blankIndex h hx), entry?_blankIndex, Option.or_none]
  rfl

theorem contains_iff_visited (n : NodeId) :
    (v.filledIndex root).contains n = true ↔ ∃ x ∈ v.spots root, x.ref.id = n := by
  rw [ParentIndex.contains, entry?_lastSpot? h, Option.isSome_map, lastSpot?, List.find?_isSome]
  simp

theorem parent?_lastSpot? (n : NodeId) :
    (v.filledIndex root).parent? n = (v.lastSpot? root n).bind fun x => x.context.parent? := by
  rw [ParentIndex.parent?, ParentIndex.link?, entry?_lastSpot? h]
  cases hlast : v.lastSpot? root n with
  | none => rfl
  | some x => exact map_parent_linkOf h (mem_of_lastSpot? hlast)

/-- **The loop retraces the way to the last spot.** -/
theorem climbs_lastSpot? (depth : Nat) :
    ∀ (n : NodeId) (x : Spot), v.lastSpot? root n = some x → x.context.depth = depth → ∀ found : List NodeId,
      (v.filledIndex root).Climbs ((v.filledIndex root).parent? n) found (x.context.ancestors.toList ++ found) := by
  induction depth with
  | zero =>
    intro n x hx hdepth found
    have hempty : x.context.ancestors = #[] := Array.eq_empty_of_size_eq_zero hdepth
    rw [parent?_lastSpot? h, hx, Option.bind_some, Context.parent?, hempty]
    exact .stop found
  | succ depth ih =>
    intro n x hx hdepth found
    rcases lastSpot?_cases h hx with hctx | ⟨y, hy, slot, -, -, hctx⟩
    · rw [hctx] at hdepth
      simp [Context.depth] at hdepth
    · have hdepth' : y.context.depth = depth := by
        rw [hctx] at hdepth
        simpa [Context.depth] using hdepth
      rw [parent?_lastSpot? h, hx, Option.bind_some, Context.parent?, hctx, Array.back?_push, Array.toList_push,
        List.append_assoc]
      exact .up (ih y.ref.id y hy hdepth' (y.ref.id :: found))

/-- the loop ends for every id, and what it finds are the ancestors at the last spot; a node without a spot has none -/
theorem climbs_ancestors (n : NodeId) :
    (v.filledIndex root).ancestors n = ((v.lastSpot? root n).map fun x => x.context.ancestors.toList).getD [] ∧
      (v.filledIndex root).Climbs ((v.filledIndex root).parent? n) [] ((v.filledIndex root).ancestors n) := by
  have hends : ∃ all, (v.filledIndex root).Climbs ((v.filledIndex root).parent? n) [] all ∧ all.length ≤ v.tree.size ∧
      all = ((v.lastSpot? root n).map fun x => x.context.ancestors.toList).getD [] := by
    cases hlast : v.lastSpot? root n with
    | none =>
      rw [parent?_lastSpot? h, hlast]
      exact ⟨[], .stop [], Nat.zero_le _, rfl⟩
    | some x =>
      refine ⟨x.context.ancestors.toList, ?_, depth_le_size h (mem_of_lastSpot? hlast), rfl⟩
      simpa using climbs_lastSpot? h _ n x hlast rfl []
  obtain ⟨all, hclimbs, hlength, hall⟩ := hends
  have hsame : (v.filledIndex root).ancestors n = all :=
    hclimbs.climb_eq.2 _ (by rw [size_entries_filledIndex]; simpa using hlength)
  exact ⟨hsame.trans hall, hsame ▸ hclimbs⟩

theorem counts_filledIndex : (v.filledIndex root).Counts := by
  have hblank : (v.blankIndex root).Counts := by
    rw [ParentIndex.Counts, Finset.filter_false_of_mem fun n _ => by simp [ParentIndex.contains, entry?_blankIndex]]
    rfl
  exact hblank.recordAll fun x hx => lt_blankIndex h hx

/-- the nodes with an entry are those below the root -/
theorem contains_iff_reaches (n : NodeId) :
    (v.filledIndex root).contains n = true ↔ ∃ top ∈ root, v.Reaches top n := by
  rw [contains_iff_visited h]
  cases root with
  | none => simp [spots]
  | some top =>
    simp only [Option.mem_def, Option.some.injEq, exists_eq_left']
    constructor
    · rintro ⟨x, hx, rfl⟩
      exact (way_of_spot h _ x hx rfl).reaches
    · intro hreach
      obtain ⟨hacyclic, hwhole⟩ := h top rfl
      have hu := hacyclic.unfolds
      obtain ⟨ref, hm, rfl⟩ :=
        hu.mem_of_reaches (hu.unbroken (by simpa [Seat.top] using hwhole)) (Seat.top top) (by simp) n hreach
      rw [← Forest.map_ref_spots _ []] at hm
      obtain ⟨x, hx, rfl⟩ := List.mem_map.1 hm
      exact ⟨x, hx, rfl⟩

/-- the size of the index is the number of different nodes below the root -/
theorem card_filledIndex :
    ∃ reached : Finset NodeId, (∀ n, n ∈ reached ↔ ∃ top ∈ root, v.Reaches top n) ∧
      (v.filledIndex root).size = reached.card := by
  refine ⟨(Finset.range (v.filledIndex root).entries.size).filter fun n => (v.filledIndex root).contains n = true,
    fun n => ?_, counts_filledIndex h⟩
  rw [Finset.mem_filter, Finset.mem_range, and_iff_right_of_imp, contains_iff_reaches h]
  intro hc
  obtain ⟨x, hx, rfl⟩ := (contains_iff_visited h n).1 hc
  have hlt := lt_blankIndex h hx
  simpa [blankIndex, size_entries_filledIndex] using hlt

/-- what the index says of a node with a spot is what the walk says of its last spot -/
theorem answers_lastSpot? {n : NodeId} {x : Spot} (hx : v.lastSpot? root n = some x) :
    (v.filledIndex root).ancestors n = x.context.ancestors.toList ∧
      (v.filledIndex root).depth? n = some x.context.ancestors.toList.length ∧
      (v.filledIndex root).parent? n = x.context.ancestors.toList.getLast? := by
  refine ⟨?_, ?_, ?_⟩
  · rw [(climbs_ancestors h n).1, hx]
    rfl
  · rw [ParentIndex.depth?, entry?_lastSpot? h, hx]
    rfl
  · rw [parent?_lastSpot? h, hx, Option.bind_some, Context.parent?, Array.getLast?_toList]

/-- the ancestors at a spot start at the root, unless it is that of the root, and go down from child to child -/
theorem path_of_spot {x : Spot} (hx : x ∈ v.spots root) :
    x.context.ancestors.toList.head? = (if root = some x.ref.id then none else root) ∧
      (x.context.ancestors.toList ++ [x.ref.id]).IsChain v.Child := by
  cases root with
  | none => simp [spots] at hx
  | some top =>
    have hway := way_of_spot h _ x hx rfl
    refine ⟨?_, hway.chain.2⟩
    split_ifs with htop
    · rw [List.head?_eq_none_iff, hway.path_eq_nil_iff (h top rfl).1]
      exact (Option.some.inj htop).symm
    · have hpath : x.context.ancestors.toList ≠ [] := by
        rw [Ne, hway.path_eq_nil_iff (h top rfl).1]
        exact fun heq => htop (congrArg some heq.symm)
      rw [← List.head?_append_of_ne_nil _ hpath]
      exact hway.chain.1

end Filled

/-! ## Main result -/

/-- **The index holds the last visits.** Below a root, or none, where no node lies below itself and all can be read (shared
nodes allowed), the index is built, its size is the number of different nodes below the root, and for every id, of the arena
or not, the loop that goes up comes to its end with the ancestors. An id has an entry if and only if it is a node below the
root. With an entry,
- the ancestors are those that the walk reports at its last visit of the node;
- the depth is their number, and the parent is the last of them;
- they start at the root, unless the node is the root, and each of them holds the next one, the last one the node. -/
theorem parentIndex_last_visit (v : View) (root : Option NodeId) (h : v.Ends root) :
    ∃ index seen, v.parentIndex root = .ok index ∧
      v.walkPath root (fun ref context seen => (.descend, seen ++ [(⟨ref, context⟩ : Spot)])) [] = .ok seen ∧
      (∃ reached : Finset NodeId, (∀ n, n ∈ reached ↔ ∃ top ∈ root, v.Reaches top n) ∧ index.size = reached.card) ∧
      ∀ n, index.Climbs (index.parent? n) [] (index.ancestors n) ∧
        (index.contains n = true ↔ ∃ top ∈ root, v.Reaches top n) ∧
        (index.contains n = true →
          (∃ earlier x later, seen = earlier ++ x :: later ∧ x.ref.id = n ∧ (∀ y ∈ later, y.ref.id ≠ n) ∧
            index.ancestors n = x.context.ancestors.toList) ∧
          index.depth? n = some (index.ancestors n).length ∧ index.parent? n = (index.ancestors n).getLast? ∧
          (index.ancestors n).head? = (if root = some n then none else root) ∧
          (index.ancestors n ++ [n]).IsChain v.Child) := by
  have hseen := walkPath_descend h (fun x (seen : List Spot) => seen ++ [x]) []
  rw [List.foldl_append_eq_append, List.nil_append, ← List.flatMap_def, ← List.map_eq_flatMap, List.map_id'] at hseen
  refine ⟨v.filledIndex root, v.spots root, parentIndex_eq h, hseen, card_filledIndex h, fun n => ⟨(climbs_ancestors h n).2,
    contains_iff_reaches h n, fun hc => ?_⟩⟩
  have hlast : (v.lastSpot? root n).isSome = true := by
    rwa [ParentIndex.contains, entry?_lastSpot? h, Option.isSome_map] at hc
  obtain ⟨x, hx⟩ := Option.isSome_iff_exists.1 hlast
  have hid := id_of_lastSpot? hx
  obtain ⟨hancestors, hdepth, hparent⟩ := answers_lastSpot? h hx
  have hpath := path_of_spot h (mem_of_lastSpot? hx)
  rw [hid] at hpath
  rw [hancestors]
  refine ⟨?_, hdepth, hparent, hpath⟩
  obtain ⟨-, later, earlier, hsplit, hlater⟩ := List.find?_eq_some_iff_append.1 hx
  refine ⟨earlier.reverse, x, later.reverse, ?_, hid, fun y hy => ?_, rfl⟩
  · simpa using congrArg List.reverse hsplit
  · simpa using hlater y (List.mem_reverse.1 hy)

/-- The walk visits nine spots of five nodes. The shared list is met last below the second list, and the name last below the
whole list, where no other of its parents is around it; the last name is not met. -/
theorem parentIndex_last_visit_crossed :
    let view : View := ⟨crossedTree, sharedView.schema⟩
    view.Ends (some 0) ∧
    ∃ index, view.parentIndex (some 0) = .ok index ∧ view.countNodes (some 0) = .ok 9 ∧
      (∃ reached : Finset NodeId, (∀ n, n ∈ reached ↔ view.Reaches 0 n) ∧ reached.card = 5) ∧
      index.ancestors 3 = [0, 2] ∧ index.Climbs (some 2) [] [0, 2] ∧ index.depth? 3 = some 2 ∧
      [0, 2, 3].IsChain view.Child ∧ index.ancestors 4 = [0] ∧ index.ancestors 0 = [] ∧ ¬ view.Reaches 0 5 := by
  intro view
  have hends : view.Ends (some 0) :=
    ends_some (acyclic_of_rising (by decide +kernel) 0) (whole_of_closed (by decide +kernel) (by decide +kernel))
  obtain ⟨index, seen, hindex, -, ⟨reached, hreached, hsize⟩, hall⟩ := parentIndex_last_visit view (some 0) hends
  cases Except.ok.inj (hindex.symm.trans (parentIndex_eq hends))
  have hthree : (view.filledIndex (some 0)).ancestors 3 = [0, 2] := by decide +kernel
  obtain ⟨hclimbs, -, hentry⟩ := hall 3
  obtain ⟨-, hdepth, hparent, -, hchain⟩ := hentry (by decide +kernel)
  rw [hparent, hthree] at hclimbs
  rw [hthree] at hdepth hchain
  refine ⟨hends, _, hindex, (countNodes_eq hends).trans (by decide +kernel), ⟨reached, fun n => ?_, ?_⟩, hthree, hclimbs,
    hdepth, hchain, by decide +kernel, by decide +kernel, fun hreach => ?_⟩
  · simpa using hreached n
  · rw [← hsize]
    decide +kernel
  · have hfive := (hall 5).2.1.2 ⟨0, rfl, hreach⟩
    revert hfive
    decide +kernel

end View

end Arbor
