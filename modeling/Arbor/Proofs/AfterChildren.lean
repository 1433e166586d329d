/-
A comment in a node, behind all that is below the node. It belongs inside: the nodes around it that end before the next node
starts are closed first, and the innermost of them takes it. Only one thing can come between. A node is kept open as long
as its span contains that of the next node, and an empty node right at its end is contained, although it lies outside. It
finds the comment still pending, and the comment leads it.

- `Parted.related`: of two nodes of a parted tree one lies below the other or the two do not overlap.
- `Takes`: the next node to start lies in the innermost node around a range, behind the range.
- `empty_of_takes`: behind all that is below a node this is only done by an empty node, at the end of the node and outside.
- `attachComments_after_children`: so a comment there is inner to a node of that part of the tree, unless it is taken.
-/
import Arbor.Proofs.Placement
import Arbor.Proofs.Spots

namespace Arbor

/-! ## Who takes a comment -/

/-- the next node to start after the start of the range lies in the span and not before the end of the range -/
def Takes (nodes : List Extent) (around range : Span) (next : Extent) : Prop :=
  following nodes range = some next ∧ around.contains next.span = true ∧ range.stop ≤ next.span.start

theorem place_of_takes {nodes : List Extent} {last around next : Extent} {range : Span}
    (haround : enclosing nodes range = some around) (h : Takes nodes around.span range next) :
    place nodes last range = (next.id, .leading) := by
  obtain ⟨hnext, hcontains, hstop⟩ := h
  simp [place, haround, hnext, hcontains, hstop]

theorem place_of_not_takes {nodes : List Extent} {last around : Extent} {range : Span}
    (haround : enclosing nodes range = some around) (h : ¬ ∃ next, Takes nodes around.span range next) :
    place nodes last range = (around.id, .inner) := by
  cases hnext : following nodes range with
  | none => simp [place, haround, hnext]
  | some next =>
    have hnot : ¬ (around.span.contains next.span = true ∧ range.stop ≤ next.span.start) :=
      fun htaken => h ⟨next, hnext, htaken⟩
    simp [place, haround, hnext, hnot]

/-- comments with positions of their own that do not overlap start and end in one order -/
theorem advancing_of_disjoint {γ : Type} [HasSpan γ] {comments ordered : List γ} (horder : InStartOrder comments ordered)
    (hnonempty : ∀ c ∈ comments, (HasSpan.span c).start < (HasSpan.span c).stop)
    (hdisjoint : comments.Pairwise fun c d => (HasSpan.span c).overlaps (HasSpan.span d) = false) : Advancing ordered := by
  have hpos : ∀ c ∈ ordered, (HasSpan.span c).start < (HasSpan.span c).stop := fun c hc => hnonempty c (horder.mem.1 hc)
  refine ⟨hpos, horder.sorted, List.Pairwise.imp_of_mem (fun {c d} hc hd h => ?_) (horder.pairwise hdisjoint)⟩
  have hcpos := hpos c hc
  have hdpos := hpos d hd
  simp only [Span.overlaps_eq_false_iff] at h
  omega

namespace View

variable {v : View} {root : NodeId}

/-! ## Nodes beside each other -/

theorem visible_iff_mem_unfolding (hacyclic : v.Acyclic root) (hwhole : v.Whole root) {ref : NodeRef} :
    v.Visible root ref ↔ ref ∈ (v.unfolding root).refs :=
  (hacyclic.unfolds.mem_refs hwhole ref).symm

/-- of two nodes of a parted tree one lies below the other or the two do not overlap -/
theorem Parted.related (hn : v.Parted root) (hacyclic : v.Acyclic root) (hwhole : v.Whole root) {a b : NodeRef}
    (ha : v.Visible root a) (hb : v.Visible root b) :
    v.Reaches a.id b.id ∨ v.Reaches b.id a.id ∨ a.node.span.overlaps b.node.span = false := by
  have hrefs := hacyclic.unfolds.refs_nest hn reaches_top (List.pairwise_singleton _ _)
  have hrelated : (v.unfolding root).refs.Pairwise fun a b =>
      v.Reaches a.id b.id ∨ v.Reaches b.id a.id ∨ a.node.span.overlaps b.node.span = false :=
    hrefs.imp fun h => h.imp_right .inr
  have hsymm : Std.Symm fun a b : NodeRef =>
      v.Reaches a.id b.id ∨ v.Reaches b.id a.id ∨ a.node.span.overlaps b.node.span = false := by
    refine ⟨fun a b h => ?_⟩
    rcases h with hab | hba | hapart
    · exact .inr (.inl hab)
    · exact .inl hba
    · exact .inr (.inr (Span.overlaps_comm _ _ ▸ hapart))
  by_cases heq : a = b
  · exact .inl (heq ▸ .refl)
  · exact hrelated.forall ((visible_iff_mem_unfolding hacyclic hwhole).1 ha)
      ((visible_iff_mem_unfolding hacyclic hwhole).1 hb) heq

/-- nothing that is below the node starts at or after the start of the range -/
def AllBelowStart (v : View) (b : NodeRef) (range : Span) : Prop :=
  ∀ d, v.Visible b.id d → d.id ≠ b.id → d.node.span.start < range.start

/-- **Only an empty node takes a comment from a node it is not in.** Behind all that is below a node, the next node to start
lies outside, so it is in a node of this part of the tree only if it is empty, and then it is at the end. -/
theorem empty_of_takes (hn : v.Parted root) (hacyclic : v.Acyclic root) (hwhole : v.Whole root) {range : Span}
    {b e : NodeRef} (hb : v.Visible root b) (hin : b.node.span.contains range = true) (hbelow : v.AllBelowStart b range)
    (he : v.Visible root e) (hbe : v.Reaches b.id e.id) {next : Extent}
    (h : Takes (v.sweepOrder root) e.node.span range next) :
    ¬ v.Reaches b.id next.id ∧ next.span.stop ≤ next.span.start ∧
      (next.span.Ordered → next.span = Span.empty b.node.span.stop) := by
  obtain ⟨hnext, hcontains, hstop⟩ := h
  obtain ⟨ref, hvisible, rfl⟩ := (mem_sweepOrder_iff hacyclic hwhole).1 (List.mem_of_find?_eq_some hnext)
  have hfound := List.find?_some hnext
  have hstart : range.start < ref.node.span.start := of_decide_eq_true hfound
  rw [Span.contains_iff] at hin hcontains
  have hinside := Span.contains_iff.1 (hn.contains_of_reaches hb hbe e he.2)
  have hout : ¬ v.Reaches b.id ref.id := by
    intro hreach
    have hne : ref.id ≠ b.id := by
      intro hid
      have hsame := hb.2
      rw [← hid, hvisible.2] at hsame
      cases hsame
      omega
    have := hbelow ref ⟨hreach, hvisible.2⟩ hne
    omega
  have hapart : b.node.span.overlaps ref.node.span = false := by
    rcases hn.related hacyclic hwhole hb hvisible with hbr | hrb | hapart
    · exact absurd hbr hout
    · -- a node around `b` does not start after the range in `b`
      have := Span.contains_iff.1 (hn.contains_of_reaches hvisible hrb b hb.2)
      omega
    · exact hapart
  rw [Span.overlaps_eq_false_iff] at hapart
  simp only [Extent.ofRef] at *
  refine ⟨hout, by omega, fun hordered => ?_⟩
  rw [Span.Ordered] at hordered
  have hends : ref.node.span.start = b.node.span.stop ∧ ref.node.span.stop = b.node.span.stop := by omega
  rw [Span.empty, ← hends.1]
  exact congrArg (Span.mk _) (hends.2.trans hends.1.symm)

end View

/-! ## Main result -/

/-- **A comment behind all children stays inside, unless an empty node takes it.** In a parted tree, empty nodes included,
and for every list of comments that are not empty and do not overlap: let a comment lie in a node `b` below which nothing
starts at or after the start of the comment. Then the innermost node `e` around it is `b` or below it, and the comment is
inner to `e` if and only if the next node to start does not take it. One that takes it is outside `b` and empty, it stands at
the end of `b` if its bounds are in order, and the comment leads it. -/
theorem attachComments_after_children {γ : Type} [HasSpan γ] (v : View) (root : NodeId) (comments : List γ)
    (hacyclic : v.Acyclic root) (hwhole : v.Whole root) (hparted : v.Parted root)
    (hnonempty : ∀ c ∈ comments, (HasSpan.span c).start < (HasSpan.span c).stop)
    (hdisjoint : comments.Pairwise fun c d => (HasSpan.span c).overlaps (HasSpan.span d) = false) :
    ∃ (nodes : List NodeRef) (sorted : List Extent) (out : List (Attachment γ)),
      v.nodes (some root) = .ok nodes ∧ InStartOrder (nodes.map Extent.ofRef) sorted ∧
      v.attachComments (some root) comments = .ok out ∧ InStartOrder comments (out.map Attachment.comment) ∧
      ∀ a ∈ out, ∀ b, v.Visible root b → b.node.span.contains (HasSpan.span a.comment) = true →
        v.AllBelowStart b (HasSpan.span a.comment) →
        ∃ e, v.Innermost root (HasSpan.span a.comment) e ∧ v.Reaches b.id e.id ∧
          (a = ⟨a.comment, e.id, .inner⟩ ↔ ¬ ∃ next, Takes sorted e.node.span (HasSpan.span a.comment) next) ∧
          ∀ next, Takes sorted e.node.span (HasSpan.span a.comment) next →
            a = ⟨a.comment, next.id, .leading⟩ ∧ ¬ v.Reaches b.id next.id ∧ next.span.stop ≤ next.span.start ∧
            (next.span.Ordered → next.span = Span.empty b.node.span.stop) := by
  obtain ⟨last, hlast⟩ := exists_last hacyclic hwhole
  have horder := byStart_inStartOrder comments
  refine ⟨(v.unfolding root).refs, v.sweepOrder root, (byStart comments).map (placed (v.sweepOrder root) last),
    v.nodes_eq_refs hacyclic hwhole hacyclic.unfolds, byStart_inStartOrder _, ?_, ?_, ?_⟩
  · rw [attachComments_eq hacyclic hwhole, attachSorted_eq_placed (hparted.nests hacyclic hwhole) hlast
      (advancing_of_disjoint horder hnonempty hdisjoint)]
  · rw [List.map_map, show Attachment.comment ∘ placed (γ := γ) (v.sweepOrder root) last = id from rfl, List.map_id]
    exact horder
  · intro a ha b hb hin hbelow
    obtain ⟨c, hc, rfl⟩ := List.mem_map.1 ha
    have hrange := hnonempty c (horder.mem.1 hc)
    simp only [placed] at hin hbelow ⊢
    -- there is a node around the comment, so there is an innermost one, and `b` is above it
    cases hfind : enclosing (v.sweepOrder root) (HasSpan.span c) with
    | none =>
      rw [View.enclosing_eq_none_iff hacyclic hwhole] at hfind
      rw [hfind b hb] at hin
      cases hin
    | some around =>
      obtain ⟨e, he, rfl⟩ := hparted.innermost_enclosing hacyclic hwhole hrange hfind
      have hbe := he.above b hb hin
      have htaken : ∀ next, Takes (v.sweepOrder root) e.node.span (HasSpan.span c) next →
          place (v.sweepOrder root) last (HasSpan.span c) = (next.id, .leading) :=
        fun next hnext => place_of_takes hfind hnext
      refine ⟨e, he, hbe, ⟨?_, fun hnone => ?_⟩, fun next hnext => ⟨?_, ?_⟩⟩
      · rintro hinner ⟨next, hnext⟩
        rw [htaken next hnext] at hinner
        exact absurd (congrArg Attachment.relation hinner) (by simp)
      · rw [place_of_not_takes hfind hnone]
        rfl
      · rw [htaken next hnext]
      · exact View.empty_of_takes hparted hacyclic hwhole hb hin hbelow he.visible hbe hnext

/-- a list with a name in it, an empty name where this list ends, and a list that ends where a name starts -/
def touchingView : View where
  schema := sharedView.schema
  tree := {
    names := sharedTree.names
    nodes := #[
      ⟨0, ⟨0, 30⟩, [(1, .sequence [some 1, some 3, some 4, some 5])], []⟩,
      ⟨0, ⟨0, 10⟩, [(3, .node 2)], []⟩,
      ⟨2, ⟨1, 4⟩, [], []⟩,
      ⟨2, ⟨10, 10⟩, [], []⟩,
      ⟨0, ⟨12, 20⟩, [], []⟩,
      ⟨2, ⟨20, 25⟩, [], []⟩]
    root := some 0 }

/-- Behind the name in the first list a comment is taken by the empty name. In the other list, which is empty inside, a
comment is not taken by the name that starts where the list ends. -/
theorem attachComments_after_children_touching :
    let first : NodeRef := ⟨1, "List", ⟨0, ⟨0, 10⟩, [(3, .node 2)], []⟩⟩
    let second : NodeRef := ⟨4, "List", ⟨0, ⟨12, 20⟩, [], []⟩⟩
    touchingView.Acyclic 0 ∧ touchingView.Whole 0 ∧ touchingView.Parted 0 ∧
    touchingView.Visible 0 first ∧ touchingView.AllBelowStart first ⟨5, 8⟩ ∧
    touchingView.Visible 0 second ∧ touchingView.AllBelowStart second ⟨14, 18⟩ ∧
    touchingView.attachComments (some 0) [(⟨14, 18⟩ : Span), ⟨5, 8⟩] =
      .ok [⟨⟨5, 8⟩, 3, .leading⟩, ⟨⟨14, 18⟩, 4, .inner⟩] ∧
    ∃ nodes sorted e f next, touchingView.nodes (some 0) = .ok nodes ∧ InStartOrder (nodes.map Extent.ofRef) sorted ∧
      touchingView.Innermost 0 ⟨5, 8⟩ e ∧ Takes sorted e.node.span ⟨5, 8⟩ next ∧ next.id = 3 ∧
      ¬ touchingView.Reaches 1 next.id ∧ next.span.stop ≤ next.span.start ∧
      touchingView.Innermost 0 ⟨14, 18⟩ f ∧ f.id = 4 ∧ ¬ ∃ next, Takes sorted f.node.span ⟨14, 18⟩ next := by
  intro first second
  have hacyclic : ∀ id, touchingView.Acyclic id := View.acyclic_of_rising (by decide +kernel)
  have hwhole : ∀ id < 6, touchingView.Whole id := fun id hid => View.whole_of_closed (by decide +kernel) hid
  have hparted : touchingView.Parted 0 := View.forall_visible_of_all (by decide +kernel) 0
  have hvisible : ∀ id < 6, ∀ ref, touchingView.Visible id ref ↔ ref ∈ (touchingView.unfolding id).refs :=
    fun id hid ref => View.visible_iff_mem_unfolding (hacyclic id) (hwhole id hid)
  have hfirst : touchingView.Visible 0 first := (hvisible 0 (by decide) first).2 (by decide +kernel)
  have hsecond : touchingView.Visible 0 second := (hvisible 0 (by decide) second).2 (by decide +kernel)
  have hbehind : touchingView.AllBelowStart first ⟨5, 8⟩ := by
    simp only [View.AllBelowStart, hvisible first.id (by decide)]
    decide +kernel
  have halone : touchingView.AllBelowStart second ⟨14, 18⟩ := by
    simp only [View.AllBelowStart, hvisible second.id (by decide)]
    decide +kernel
  have hresult : touchingView.attachComments (some 0) [(⟨14, 18⟩ : Span), ⟨5, 8⟩] =
      .ok [⟨⟨5, 8⟩, 3, .leading⟩, ⟨⟨14, 18⟩, 4, .inner⟩] := by
    rw [attachComments_eq (hacyclic 0) (hwhole 0 (by decide))]
    cbv
  obtain ⟨nodes, sorted, out, hnodes, hsorted, hout, -, hall⟩ := attachComments_after_children touchingView 0
    [(⟨14, 18⟩ : Span), ⟨5, 8⟩] (hacyclic 0) (hwhole 0 (by decide)) hparted (by decide) (by decide)
  cases Except.ok.inj (hout.symm.trans hresult)
  obtain ⟨e, he, -, hinner, htaken⟩ := hall ⟨⟨5, 8⟩, 3, .leading⟩ (by simp) first hfirst (by decide) hbehind
  obtain ⟨f, hf, -, hinner', htaken'⟩ := hall ⟨⟨14, 18⟩, 4, .inner⟩ (by simp) second hsecond (by decide) halone
  obtain ⟨next, hnext⟩ : ∃ next, Takes sorted e.node.span ⟨5, 8⟩ next := by
    by_contra hnone
    exact absurd (hinner.2 hnone) (by simp)
  have hnone : ¬ ∃ next, Takes sorted f.node.span ⟨14, 18⟩ next := by
    rintro ⟨other, hother⟩
    exact absurd (htaken' other hother).1 (by simp)
  obtain ⟨hleading, hout', hempty, -⟩ := htaken next hnext
  exact ⟨hacyclic 0, hwhole 0 (by decide), hparted, hfirst, hbehind, hsecond, halone, hresult, nodes, sorted, e, f, next, hnodes,
    hsorted, he, hnext, (congrArg Attachment.node hleading).symm, hout', hempty, hf,
    (congrArg Attachment.node (hinner'.2 hnone)).symm, hnone⟩

/-- a list with nothing in it and an empty name where the list ends -/
def trailedView : View where
  schema := sharedView.schema
  tree := {
    names := sharedTree.names
    nodes := #[
      ⟨0, ⟨0, 20⟩, [(1, .sequence [some 1, some 2])], []⟩,
      ⟨0, ⟨0, 10⟩, [], []⟩,
      ⟨2, ⟨10, 10⟩, [], []⟩]
    root := some 0 }

/-- A comment inside a list that has no children does not stay inside: it leads the empty name behind the list, although no
node is visited twice, children lie within their parents, and no two children overlap. -/
theorem attachComments_taken_by_empty :
    let list : NodeRef := ⟨1, "List", ⟨0, ⟨0, 10⟩, [], []⟩⟩
    trailedView.VisitsOnce (some 0) ∧ trailedView.Parted 0 ∧ trailedView.Visible 0 list ∧
      list.node.span.contains ⟨5, 8⟩ = true ∧ (∀ d, trailedView.Visible list.id d → d.id = list.id) ∧
      trailedView.attachComments (some 0) [(⟨5, 8⟩ : Span)] = .ok [⟨⟨5, 8⟩, 2, .leading⟩] ∧
      ¬ trailedView.Reaches list.id 2 := by
  intro list
  have hacyclic : ∀ id, trailedView.Acyclic id := View.acyclic_of_rising (by decide +kernel)
  have hwhole : ∀ id < 3, trailedView.Whole id := fun id hid => View.whole_of_closed (by decide +kernel) hid
  have hvisible : ∀ id < 3, ∀ ref, trailedView.Visible id ref ↔ ref ∈ (trailedView.unfolding id).refs :=
    fun id hid ref => View.visible_iff_mem_unfolding (hacyclic id) (hwhole id hid)
  have hleaf : ∀ d, trailedView.Visible list.id d → d.id = list.id := by
    simp only [hvisible list.id (by decide)]
    decide +kernel
  refine ⟨View.visitsOnce_of_nodup (hacyclic 0) (by cbv) (by decide +kernel), View.forall_visible_of_all (by decide +kernel) 0,
    (hvisible 0 (by decide) list).2 (by decide +kernel), by decide, hleaf, ?_, fun hreach => ?_⟩
  · rw [attachComments_eq (hacyclic 0) (hwhole 0 (by decide))]
    cbv
  · obtain ⟨name, hname⟩ := hwhole 1 (by decide) 2 hreach
    have hid := Tree.ref_id hname
    have hlist := hleaf name ⟨hid ▸ hreach, hid ▸ hname⟩
    rw [hid] at hlist
    exact absurd hlist (by decide)

end Arbor
