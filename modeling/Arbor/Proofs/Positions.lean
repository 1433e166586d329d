/-
The nodes at a position and in a range. Both walks leave out subtrees. The one for a position leaves out what is below a node
that starts after it, goes on below all others, and keeps the last node that covers the position; the one for a range leaves
out what is below a node that does not overlap it.

Where children lie within their parents this loses nothing, whatever their order and width:

- `walk_pruning`: a walk that leaves out only nodes whose visits change nothing returns what the whole walk returns.
- `overlapping_lossless`: the walk for a range finds what a search of all nodes finds.

In a `Laminar` tree, moreover, different children do not overlap; they may come in any order, and a node may have no position
of its own. There:

- `Unfolds.none_below_last`: nothing below the last hit of the walk is a hit.
- `Laminar.around_or_below`: a node that covers the position is around another one that does, or lies below it.
- `deepestAt_innermost`: so the last hit is the innermost one, and the hits are this node and the nodes around it.
-/
import Arbor.Proofs.Nesting
import Arbor.Proofs.Spots
import Arbor.View.Position

namespace Arbor

/-- a visitor that leaves out what is below some nodes and goes on below the others -/
def pruning {σ : Type} (skip : NodeRef → Bool) (f : NodeRef → σ → σ) : NodeRef → σ → Visit × σ :=
  fun ref s => if skip ref then (.skip, s) else (.descend, f ref s)

namespace View

variable {v : View} {root : NodeId}

/-! ## Walks that leave out subtrees -/

section Pruning

variable {σ : Type} {skip : NodeRef → Bool} {f : NodeRef → σ → σ}

theorem Unfolds.recurse_pruning {row : List Seat} {forest : Forest} (h : v.Unfolds row forest) (hu : forest.Unbroken)
    (hrow : ∀ seat ∈ row, v.Reaches root seat.node)
    (hidle : ∀ a b, v.Visible root a → skip a = true → v.Reaches a.id b.id → v.tree.ref b.id = .ok b → ∀ s, f b s = s) :
    ∀ (path : List NodeId) (s : σ),
      (forest.recurse (fun ref _ => pruning skip f ref) path s).ending = .done ∧
      (forest.recurse (fun ref _ => pruning skip f ref) path s).state = forest.refs.foldl (fun s ref => f ref s) s := by
  induction h with
  | nil => intro path s; exact ⟨rfl, rfl⟩
  | broken _ => exact absurd hu id
  | @cons seat rest ref below next hr hbelow hnext ihbelow ihnext =>
    intro path s
    obtain ⟨hreach, hok⟩ := visible_of_ref (hrow seat List.mem_cons_self) hr
    have hnext' := ihnext hu.2 (fun s hs => hrow s (List.mem_cons_of_mem _ hs)) path
    by_cases hskip : skip ref = true
    · -- the visits that are left out would not have changed the state
      have hrefs : below.refs.foldl (fun s ref => f ref s) (f ref s) = s := by
        rw [hidle ref ref ⟨hreach, hok⟩ hskip .refl hok]
        refine (List.foldl_ext _ (fun s _ => s) s fun s b hb => ?_).trans (List.foldl_fixed _)
        obtain ⟨hbok, child, hchild, hb⟩ := hbelow.reaches b hb
        exact hidle ref b ⟨hreach, hok⟩ hskip (.head (child_of_seat hok hchild) hb) hbok s
      simp [Forest.recurse, pruning, hskip, Outcome.andThen, Forest.refs, hnext', hrefs]
    · have hseats : ∀ child ∈ v.seats ref, v.Reaches root child.node :=
        fun child hchild => hreach.tail (child_of_seat hok hchild)
      obtain ⟨hend, hstate⟩ := ihbelow hu.1 hseats (path ++ [ref.id]) (f ref s)
      simp [Forest.recurse, pruning, hskip, Outcome.andThen, Forest.refs, hend, hstate, hnext']

/-- **Pruning loses nothing.** A walk that leaves out only nodes at and below which no visit changes the state folds its
state along all nodes. -/
theorem walk_pruning (hacyclic : v.Acyclic root) (hwhole : v.Whole root)
    (hidle : ∀ a b, v.Visible root a → skip a = true → v.Reaches a.id b.id → v.tree.ref b.id = .ok b → ∀ s, f b s = s)
    (s : σ) :
    v.walk (some root) (pruning skip f) s = .ok ((v.unfolding root).refs.foldl (fun s ref => f ref s) s) := by
  have hu := hacyclic.unfolds
  have hunbroken := hu.unbroken (by simpa [Seat.top] using hwhole)
  obtain ⟨hend, hstate⟩ := hu.recurse_pruning hunbroken reaches_top hidle [] s
  rw [walk_eq_walkPath, walkPath_eq_recurse hacyclic hu, Outcome.result, hend, hstate]

theorem walk_descend (hacyclic : v.Acyclic root) (hwhole : v.Whole root) (f : NodeRef → σ → σ) (s : σ) :
    v.walk (some root) (fun ref s => (.descend, f ref s)) s =
      .ok ((v.unfolding root).refs.foldl (fun s ref => f ref s) s) :=
  @walk_pruning v root σ (fun _ => false) f hacyclic hwhole (fun _ _ _ hskip => by cases hskip) s

end Pruning

/-- the hits of a search are the visited nodes that satisfy `p`, in order -/
theorem findAll_eq (hacyclic : v.Acyclic root) (hwhole : v.Whole root) (p : NodeRef → Bool) :
    v.findAll (some root) p = .ok (((v.unfolding root).refs.filter p).map NodeRef.id) := by
  have hwalk := walk_descend hacyclic hwhole (fun ref (found : Array NodeId) => if p ref then found.push ref.id else found)
  simp only [findAll, hwalk, bind, Except.bind, pure, Except.pure, ← List.foldl_filter]
  simp

/-! ## The last hit -/

/-- a state that is written at each hit holds the last hit at the end -/
theorem foldl_last {α β : Type} (g : α → β) (xs : List α) :
    xs.foldl (fun _ x => some (g x)) none = (xs.map g).getLast? := by
  induction xs using List.reverseRecOn with
  | nil => rfl
  | append_singleton xs x _ => simp

/-- **Nothing below the last hit is a hit.** -/
theorem Unfolds.none_below_last {row : List Seat} {forest : Forest} (h : v.Unfolds row forest) (hu : forest.Unbroken)
    {p : NodeRef → Bool} {x : NodeRef} (hx : (forest.refs.filter p).getLast? = some x) :
    ∀ b, v.tree.ref b.id = .ok b → Relation.TransGen v.Child x.id b.id → p b = false := by
  induction h with
  | nil => simp [Forest.refs] at hx
  | broken _ => exact absurd hu id
  | @cons seat rest ref below next hr hbelow hnext ihbelow ihnext =>
    rw [Forest.refs, ← List.singleton_append, List.filter_append, List.filter_append, List.getLast?_append,
      List.getLast?_append] at hx
    cases hnextLast : (next.refs.filter p).getLast? with
    | some y =>
      rw [hnextLast] at hx
      exact ihnext hu.2 (hnextLast.trans hx)
    | none =>
      cases hbelowLast : (below.refs.filter p).getLast? with
      | some y =>
        rw [hnextLast, hbelowLast] at hx
        exact ihbelow hu.1 (hbelowLast.trans hx)
      | none =>
        -- the hit is this node, and below it there is none
        have hxref : x = ref := by
          rw [hnextLast, hbelowLast, Option.none_or, Option.none_or] at hx
          exact List.mem_singleton.1 (List.mem_filter.1 (List.mem_of_getLast? hx)).1
        subst hxref
        intro b hb hlow
        obtain ⟨child, hchild, hreach⟩ := Relation.TransGen.head'_iff.1 hlow
        obtain ⟨s, hs, rfl⟩ := seat_of_child (Tree.ref_id hr ▸ hr) hchild
        obtain ⟨other, hm, hid⟩ := hbelow.mem_of_reaches hu.1 s hs b.id hreach
        have hsame : other = b := Except.ok.inj ((hbelow.reaches other hm).1.symm.trans (hid ▸ hb))
        rw [List.getLast?_eq_none_iff, List.filter_eq_nil_iff] at hbelowLast
        exact Bool.eq_false_iff.2 (hsame ▸ hbelowLast other hm)

/-! ## Ways to a node -/

theorem Way.reaches_of_mem {path : List NodeId} {seat : Seat} (h : v.Way root path seat) :
    ∀ n ∈ path, v.Reaches n seat.node := by
  induction h with
  | top => intro n hn; simp at hn
  | child _ hr hseat ih =>
    intro n hn
    have hchild := child_of_seat hr hseat
    rcases List.mem_append.1 hn with hn | hn
    · exact (ih n hn).tail hchild
    · rw [List.mem_singleton.1 hn]
      exact .single hchild

/-- the context of a spot is the way to it -/
theorem way_of_spot (h : v.Ends (some root)) (depth : Nat) :
    ∀ x ∈ v.spots (some root), x.context.depth = depth →
      v.Way root x.context.ancestors.toList ⟨x.ref.id, x.context.field, x.context.index⟩ := by
  induction depth with
  | zero =>
    intro x hx hdepth
    rcases spots_cases h hx with ⟨hid, hctx⟩ | ⟨y, -, slot, -, -, hctx⟩
    · rw [hctx, ← Option.some.inj hid]
      exact .top
    · rw [hctx] at hdepth
      simp [Context.depth] at hdepth
  | succ depth ih =>
    intro x hx hdepth
    rcases spots_cases h hx with ⟨-, hctx⟩ | ⟨y, hy, slot, hslot, hid, hctx⟩
    · rw [hctx] at hdepth
      simp [Context.depth] at hdepth
    · have hdepth' : y.context.depth = depth := by
        rw [hctx] at hdepth
        simpa [Context.depth] using hdepth
      rw [hctx, hid, Array.toList_push]
      exact .child (ih y hy hdepth') (ref_of_spot h hy) (mem_seats.2 ⟨slot, hslot, rfl⟩)

/-- the ancestors of a node are the nodes on a way to it -/
theorem ancestorsOf_way (hacyclic : v.Acyclic root) (hwhole : v.Whole root) {x : NodeRef} (hx : v.Visible root x) :
    ∃ path seat, v.ancestorsOf (some root) x.id = .ok path ∧ v.Way root path seat ∧ seat.node = x.id := by
  have hends : v.Ends (some root) := fun id hid => Option.some.inj hid ▸ ⟨hacyclic, hwhole⟩
  have hm : x ∈ (v.spots (some root)).map Spot.ref := by
    rw [spots, Forest.map_ref_spots]
    exact (hacyclic.unfolds.mem_refs hwhole x).2 hx
  obtain ⟨spot, hspot, rfl⟩ := List.mem_map.1 hm
  obtain ⟨first, hfirst⟩ : ∃ first, v.spot? (some root) spot.ref.id = some first :=
    Option.isSome_iff_exists.1 (List.find?_isSome.2 ⟨spot, hspot, by simp⟩)
  have hid : first.ref.id = spot.ref.id := by simpa using List.find?_some hfirst
  refine ⟨_, _, ?_, way_of_spot hends _ first (List.mem_of_find?_eq_some hfirst) rfl, hid⟩
  simp [ancestorsOf, locate_eq hends, hfirst, bind, Except.bind, pure, Except.pure]

/-! ## Laminar trees -/

/-- different children of the node do not overlap -/
def Separates (v : View) (ref : NodeRef) : Prop :=
  ∀ a ∈ v.childRefs ref, ∀ b ∈ v.childRefs ref, a.id ≠ b.id → a.node.span.overlaps b.node.span = false

instance (v : View) (ref : NodeRef) : Decidable (v.Separates ref) :=
  inferInstanceAs (Decidable (∀ a ∈ v.childRefs ref, ∀ b ∈ v.childRefs ref, _))

/-- below the root children lie within their parents, and different children of a node do not overlap -/
structure Laminar (v : View) (root : NodeId) : Prop where
  encloses : ∀ ref, v.Visible root ref → v.Encloses ref
  separates : ∀ ref, v.Visible root ref → v.Separates ref

theorem child_of_mem_childRefs {ref child : NodeRef} (hr : v.tree.ref ref.id = .ok ref) (h : child ∈ v.childRefs ref) :
    v.Child ref.id child.id ∧ v.tree.ref child.id = .ok child := by
  obtain ⟨slot, hslot, hchild⟩ := mem_childRefs.1 h
  have hid := Tree.ref_id hchild
  exact ⟨hid ▸ child_of_mem hr hslot, hid ▸ hchild⟩

/-- a node below another one is the other one, or is below a child of it -/
theorem below_cases {a b : NodeRef} (ha : v.tree.ref a.id = .ok a) (hb : v.tree.ref b.id = .ok b)
    (h : v.Reaches a.id b.id) : a = b ∨ ∃ child ∈ v.childRefs a, v.Reaches child.id b.id := by
  rcases Relation.ReflTransGen.cases_head h with heq | ⟨c, hc, hreach⟩
  · exact .inl (Except.ok.inj (ha.symm.trans (heq ▸ hb)))
  · obtain ⟨child, hchild⟩ : ∃ child, v.tree.ref c = .ok child := by
      rcases Relation.ReflTransGen.cases_head hreach with rfl | ⟨_, ⟨child, hchild, -⟩, -⟩
      · exact ⟨b, hb⟩
      · exact ⟨child, hchild⟩
    obtain ⟨parent, hparent, slot, hslot, rfl⟩ := hc
    cases Except.ok.inj (ha.symm.trans hparent)
    exact .inr ⟨child, mem_childRefs.2 ⟨slot, hslot, hchild⟩, Tree.ref_id hchild ▸ hreach⟩

namespace Laminar

variable {pos : Nat} (h : v.Laminar root)
include h

/-- what covers a position is within nodes that cover it -/
theorem covers_of_reaches {a b : NodeRef} (ha : v.Visible root a) (hab : v.Reaches a.id b.id)
    (hb : v.tree.ref b.id = .ok b) (hcovers : b.node.span.covers pos = true) : a.node.span.covers pos = true :=
  Span.covers_of_contains (contains_of_reaches h.encloses ha hab b hb) hcovers

/-- at most one child covers a position -/
theorem child_unique {ref a b : NodeRef} (hv : v.Visible root ref) (ha : a ∈ v.childRefs ref) (hb : b ∈ v.childRefs ref)
    (hca : a.node.span.covers pos = true) (hcb : b.node.span.covers pos = true) : a.id = b.id := by
  by_contra hne
  have hapart := h.separates ref hv a ha b hb hne
  rw [Span.overlaps_of_covers hca hcb] at hapart
  cases hapart

/-- **Around or below.** Of two nodes that cover a position, the one is on the way to the other or lies below it. -/
theorem around_or_below {path : List NodeId} {seat : Seat} (hway : v.Way root path seat) {x y : NodeRef}
    (hx : v.tree.ref seat.node = .ok x) (hcx : x.node.span.covers pos = true) (hy : v.Visible root y)
    (hcy : y.node.span.covers pos = true) : y.id ∈ path ∨ v.Reaches x.id y.id := by
  induction hway generalizing x with
  | top =>
    rw [Tree.ref_id hx]
    exact .inr hy.1
  | @child path parent seat ref hway hr hseat ih =>
    have hid := Tree.ref_id hr
    have hvisible : v.Visible root ref := visible_of_ref hway.reaches hr
    have hchild : x ∈ v.childRefs ref := by
      obtain ⟨slot, hslot, rfl⟩ := mem_seats.1 hseat
      exact mem_childRefs.2 ⟨slot, hslot, hx⟩
    have hxid := Tree.ref_id hx
    have hcovers : ref.node.span.covers pos = true :=
      h.covers_of_reaches hvisible (.single (hid ▸ hxid ▸ child_of_seat hr hseat)) (hxid ▸ hx) hcx
    rcases ih hr hcovers with hm | hbelow
    · exact .inl (List.mem_append_left _ hm)
    · rcases below_cases hvisible.2 hy.2 hbelow with rfl | ⟨child, hm, hreach⟩
      · exact .inl (List.mem_append_right _ (by simp [hid]))
      · -- the way to `y` goes through the child that covers the position, which is `x`
        obtain ⟨hc, hok⟩ := child_of_mem_childRefs hvisible.2 hm
        have hcc := h.covers_of_reaches ⟨hvisible.1.tail hc, hok⟩ hreach hy.2 hcy
        rw [h.child_unique hvisible hchild hm hcx hcc]
        exact .inr hreach

/-- if nothing strictly below a node covers the position, only nodes on the way to it do so as well -/
theorem on_way_of_lowest {path : List NodeId} {seat : Seat} (hway : v.Way root path seat) {x y : NodeRef}
    (hx : v.tree.ref seat.node = .ok x) (hcx : x.node.span.covers pos = true)
    (hlow : ∀ b, v.tree.ref b.id = .ok b → Relation.TransGen v.Child x.id b.id → b.node.span.covers pos = false)
    (hy : v.Visible root y) (hcy : y.node.span.covers pos = true) : y.id = x.id ∨ y.id ∈ path := by
  rcases h.around_or_below hway hx hcx hy hcy with hpath | hbelow
  · exact .inr hpath
  · rcases Relation.reflTransGen_iff_eq_or_transGen.1 hbelow with heq | hstrict
    · exact .inl heq
    · rw [hlow y hy.2 hstrict] at hcy
      cases hcy

end Laminar

/-! ## Main result -/

/-- what the search at a position returns: the last of the visited nodes that cover it -/
theorem deepestAt_eq (hacyclic : v.Acyclic root) (hwhole : v.Whole root)
    (h : ∀ ref, v.Visible root ref → v.Encloses ref) (pos : Nat) :
    v.deepestAt (some root) pos =
      .ok (((v.unfolding root).refs.filter fun ref => ref.node.span.covers pos).map NodeRef.id).getLast? := by
  have hvisit : (fun (ref : NodeRef) (deepest : Option NodeId) =>
        if pos < ref.node.span.start then (Visit.skip, deepest)
        else (.descend, if ref.node.span.covers pos then some ref.id else deepest)) =
      pruning (fun ref => decide (pos < ref.node.span.start))
        (fun ref deepest => if ref.node.span.covers pos then some ref.id else deepest) := by
    funext ref deepest
    simp [pruning]
  -- a node below one that starts after the position starts after it
  have hidle : ∀ a b, v.Visible root a → decide (pos < a.node.span.start) = true → v.Reaches a.id b.id →
      v.tree.ref b.id = .ok b →
      ∀ deepest : Option NodeId, (if b.node.span.covers pos then some b.id else deepest) = deepest := by
    intro a b ha hstart hab hb deepest
    have hcontains := Span.contains_iff.1 (contains_of_reaches h ha hab b hb)
    have hafter := of_decide_eq_true hstart
    refine if_neg fun hcovers => ?_
    have := Span.covers_iff.1 hcovers
    omega
  rw [deepestAt, hvisit, walk_pruning hacyclic hwhole hidle, ← List.foldl_filter, foldl_last]

/-- the node covers the position and no child of it does; the nodes that cover the position are those that reach it -/
structure InnermostAt (v : View) (root : NodeId) (pos : Nat) (ref : NodeRef) : Prop where
  visible : v.Visible root ref
  covers : ref.node.span.covers pos = true
  children : ∀ child ∈ v.childRefs ref, child.node.span.covers pos = false
  around : ∀ other, v.Visible root other → (other.node.span.covers pos = true ↔ v.Reaches other.id ref.id)

/-- **The search at a position returns the innermost node.** Below an acyclic root whose nodes can all be read, where
children lie within their parents and different children of a node do not overlap, and for every position:
- the search returns the last of all nodes that cover the position, so the subtrees it leaves out hold none of them;
- it finds no node if and only if the root does not cover the position;
- a node that it finds covers the position and no child of it does, and the nodes that cover the position are exactly
  this node and its ancestors. -/
theorem deepestAt_innermost (v : View) (root : NodeId) (pos : Nat) (hacyclic : v.Acyclic root) (hwhole : v.Whole root)
    (hlaminar : v.Laminar root) :
    ∃ top hits found, v.tree.ref root = .ok top ∧
      v.findAll (some root) (fun ref => ref.node.span.covers pos) = .ok hits ∧ found = hits.getLast? ∧
      v.deepestAt (some root) pos = .ok found ∧
      (found = none ↔ top.node.span.covers pos = false) ∧
      ∀ id, found = some id → ∃ ref ancestors, ref.id = id ∧ v.InnermostAt root pos ref ∧
        v.ancestorsOf (some root) id = .ok ancestors ∧
        ∀ other, v.Visible root other → (other.node.span.covers pos = true ↔ other.id = id ∨ other.id ∈ ancestors) := by
  have hu := hacyclic.unfolds
  have hunbroken := hu.unbroken (by simpa [Seat.top] using hwhole)
  obtain ⟨top, htop⟩ := hwhole root .refl
  have htopv : v.Visible root top := visible_of_ref .refl htop
  refine ⟨top, _, _, htop, findAll_eq hacyclic hwhole _, rfl, deepestAt_eq hacyclic hwhole hlaminar.encloses pos, ?_, ?_⟩
  · rw [List.getLast?_eq_none_iff, List.map_eq_nil_iff, List.filter_eq_nil_iff]
    constructor
    · intro hnone
      exact Bool.eq_false_iff.2 (hnone top ((hu.mem_refs hwhole top).2 htopv))
    · intro hnot ref hm hcovers
      have hv := (hu.mem_refs hwhole ref).1 hm
      rw [hlaminar.covers_of_reaches htopv (Tree.ref_id htop ▸ hv.1) hv.2 hcovers] at hnot
      cases hnot
  · intro id hfound
    rw [List.getLast?_map, Option.map_eq_some_iff] at hfound
    obtain ⟨ref, hlast, rfl⟩ := hfound
    obtain ⟨hm, hcovers⟩ := List.mem_filter.1 (List.mem_of_getLast? hlast)
    have hv := (hu.mem_refs hwhole ref).1 hm
    have hlow := hu.none_below_last hunbroken hlast
    obtain ⟨path, seat, hancestors, hway, hseat⟩ := ancestorsOf_way hacyclic hwhole hv
    have hon : ∀ other, v.Visible root other → other.node.span.covers pos = true → other.id = ref.id ∨ other.id ∈ path :=
      fun other => hlaminar.on_way_of_lowest hway (hseat ▸ hv.2) hcovers hlow
    have hreach : ∀ other : NodeRef, other.id = ref.id ∨ other.id ∈ path → v.Reaches other.id ref.id := by
      rintro other (heq | hpath)
      · exact heq ▸ .refl
      · exact hseat ▸ hway.reaches_of_mem other.id hpath
    refine ⟨ref, path, rfl, ⟨hv, hcovers, fun child hchild => ?_, fun other ho => ⟨fun hco => ?_, fun hr => ?_⟩⟩,
      hancestors, fun other ho => ⟨hon other ho, fun hor => ?_⟩⟩
    · obtain ⟨hc, hok⟩ := child_of_mem_childRefs hv.2 hchild
      exact hlow child hok (.single hc)
    · exact hreach other (hon other ho hco)
    · exact hlaminar.covers_of_reaches ho hr hv.2 hcovers
    · exact hlaminar.covers_of_reaches ho (hreach other hor) hv.2 hcovers

/-- a list whose items are out of order: a list, again out of order, then a name without a position and a name -/
def scatteredTree : Tree where
  names := ⟨#["List", "items", "Name", "head"]⟩
  nodes := #[
    ⟨0, ⟨0, 20⟩, [(1, .sequence [some 2, some 3, some 1])], []⟩,
    ⟨2, ⟨0, 10⟩, [], []⟩,
    ⟨0, ⟨10, 18⟩, [(1, .sequence [some 4, some 5])], []⟩,
    ⟨2, ⟨10, 10⟩, [], []⟩,
    ⟨2, ⟨14, 18⟩, [], []⟩,
    ⟨2, ⟨10, 14⟩, [], []⟩]
  root := some 0

/-- At a boundary that four nodes share, the name that starts there is found, after a name that is left out; behind the last
node nothing is found. -/
theorem deepestAt_innermost_scattered :
    let view : View := ⟨scatteredTree, sharedView.schema⟩
    view.Acyclic 0 ∧ view.Whole 0 ∧ view.Laminar 0 ∧
      view.deepestAt (some 0) 10 = .ok (some 5) ∧ view.ancestorsOf (some 0) 5 = .ok [0, 2] ∧
      (∀ other, view.Visible 0 other → (other.node.span.covers 10 = true ↔ other.id = 5 ∨ other.id ∈ [0, 2])) ∧
      view.deepestAt (some 0) 20 = .ok none := by
  intro view
  have hacyclic : view.Acyclic 0 := acyclic_of_rising (by decide +kernel) 0
  have hwhole : view.Whole 0 := whole_of_closed (by decide +kernel) (by decide +kernel)
  have hlaminar : view.Laminar 0 :=
    ⟨forall_visible_of_all (by decide +kernel) 0, forall_visible_of_all (by decide +kernel) 0⟩
  have hhits : view.findAll (some 0) (fun ref => ref.node.span.covers 10) = .ok [0, 2, 5] := by cbv
  have hancestors : view.ancestorsOf (some 0) 5 = .ok [0, 2] := by cbv
  obtain ⟨-, hits, found, -, hall, rfl, hdeepest, -, hinnermost⟩ := deepestAt_innermost view 0 10 hacyclic hwhole hlaminar
  obtain ⟨top, -, found, htop, -, -, hnone, hiff, -⟩ := deepestAt_innermost view 0 20 hacyclic hwhole hlaminar
  cases Except.ok.inj (hall.symm.trans hhits)
  obtain ⟨-, ancestors, -, -, hpath, hexact⟩ := hinnermost 5 rfl
  cases Except.ok.inj (hpath.symm.trans hancestors)
  cases htop
  exact ⟨hacyclic, hwhole, hlaminar, hdeepest, hancestors, hexact, (hiff.2 (by decide +kernel)) ▸ hnone⟩

/-! ## Nodes in a range -/

/-- what the walk for a range returns: the visited nodes that overlap it, in order -/
theorem overlapping_eq (hacyclic : v.Acyclic root) (hwhole : v.Whole root)
    (h : ∀ ref, v.Visible root ref → v.Encloses ref) (start stop : Nat) :
    v.overlapping (some root) start stop =
      .ok (((v.unfolding root).refs.filter fun ref => ref.node.span.overlaps (.of start stop)).map NodeRef.id) := by
  have hvisit : (fun (ref : NodeRef) (found : Array NodeId) =>
        if ref.node.span.overlaps (.of start stop) then (Visit.descend, found.push ref.id) else (.skip, found)) =
      pruning (fun ref => !ref.node.span.overlaps (.of start stop))
        (fun ref found => if ref.node.span.overlaps (.of start stop) then found.push ref.id else found) := by
    funext ref found
    by_cases hover : ref.node.span.overlaps (.of start stop) = true <;> simp [pruning, hover]
  -- what lies below a node that does not overlap the range lies within that node
  have hidle : ∀ a b, v.Visible root a → (!a.node.span.overlaps (.of start stop)) = true → v.Reaches a.id b.id →
      v.tree.ref b.id = .ok b →
      ∀ found : Array NodeId, (if b.node.span.overlaps (.of start stop) then found.push b.id else found) = found := by
    intro a b ha hapart hab hb found
    have hcontains := contains_of_reaches h ha hab b hb
    have hout := Span.overlaps_eq_false_of_contains (Bool.not_eq_true' _ ▸ hapart) hcontains (Span.contains_refl _)
    rw [hout]
    rfl
  have hwalk := walk_pruning hacyclic hwhole hidle #[]
  simp only [overlapping, hvisit, hwalk, bind, Except.bind, pure, Except.pure, ← List.foldl_filter]
  simp

/-- **Pruning by a range loses nothing.** Below a root, or none, where no node lies below itself, all can be read, and
children lie within their parents, and for every two positions, in order, equal or reversed: the walk that leaves out the
subtrees of nodes outside the range finds the same list as the search of all nodes, and both are the visited nodes that
overlap the range, in the order of the visits. Nothing is assumed about brothers. -/
theorem overlapping_lossless (v : View) (root : Option NodeId) (start stop : Nat) (hends : v.Ends root)
    (hencloses : ∀ top ∈ root, ∀ ref, v.Visible top ref → v.Encloses ref) :
    ∃ all, v.nodes root = .ok all ∧
      let hits := (all.filter fun ref => ref.node.span.overlaps (.of start stop)).map NodeRef.id
      v.findAll root (fun ref => ref.node.span.overlaps (.of start stop)) = .ok hits ∧
      v.overlapping root start stop = .ok hits := by
  cases root with
  | none => exact ⟨[], rfl, rfl, rfl⟩
  | some top =>
    obtain ⟨hacyclic, hwhole⟩ := hends top rfl
    exact ⟨_, nodes_eq_refs hacyclic hwhole hacyclic.unfolds, findAll_eq hacyclic hwhole _,
      overlapping_eq hacyclic hwhole (hencloses top rfl) start stop⟩

/-- Around a border, where a name has no position of its own, and for reversed positions, which stand for the empty range at
the first of them. -/
theorem overlapping_lossless_scattered :
    let view : View := ⟨scatteredTree, sharedView.schema⟩
    view.Ends (some 0) ∧ (∀ top ∈ some 0, ∀ ref, view.Visible top ref → view.Encloses ref) ∧
      view.overlapping (some 0) 9 11 = .ok [0, 2, 5, 3, 1] ∧ view.overlapping (some 0) 18 10 = .ok [0] ∧
      view.findAll (some 0) (fun ref => ref.node.span.overlaps (.of 18 10)) = .ok [0] := by
  intro view
  have hends : view.Ends (some 0) :=
    ends_some (acyclic_of_rising (by decide +kernel) 0) (whole_of_closed (by decide +kernel) (by decide +kernel))
  have hencloses : ∀ top ∈ some 0, ∀ ref, view.Visible top ref → view.Encloses ref :=
    fun top _ => forall_visible_of_all (by decide +kernel) top
  have hall : view.nodes (some 0) = .ok (view.unfolding 0).refs :=
    nodes_eq_refs (hends 0 rfl).1 (hends 0 rfl).2 (hends 0 rfl).1.unfolds
  obtain ⟨all, hnodes, -, hborder⟩ := overlapping_lossless view (some 0) 9 11 hends hencloses
  cases Except.ok.inj (hnodes.symm.trans hall)
  obtain ⟨all, hnodes, hsearch, hreversed⟩ := overlapping_lossless view (some 0) 18 10 hends hencloses
  cases Except.ok.inj (hnodes.symm.trans hall)
  exact ⟨hends, hencloses, hborder.trans (by decide +kernel), hreversed.trans (by decide +kernel),
    hsearch.trans (by decide +kernel)⟩

end View

end Arbor
