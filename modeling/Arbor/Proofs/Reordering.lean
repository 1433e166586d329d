/-
Comments that are given in another order. The sweep sees comments only in the order of their starts, so what it does not see is
how comments with different starts are mixed in the list that is given; it does see the order of those that start together.

`Reordered` says that one list is another one in a different order of this kind, by the places that its things had there.

- `reordered_iff_filter`: this is so just when the lists agree on the things that start together, for each start.
- `byStart_eq_iff`: hence just when both are the same in order of the starts.
- `attachComments_reordered`: attaching the comments of two lists gives the same just when one is a reordering of the other.
-/
import Arbor.Proofs.Sweep

namespace Arbor

section Lists

variable {α : Type} [HasSpan α]

/-- `moved` is the second list with the places that its things have in the first one; things that start together come in the
order of these places -/
structure MovedAs (xs ys : List α) (moved : List (α × Nat)) : Prop where
  places : moved.Perm xs.zipIdx
  things : moved.map Prod.fst = ys
  kept : moved.Pairwise fun a b => (HasSpan.span a.1).start = (HasSpan.span b.1).start → a.2 < b.2

/-- the second list is the first one in another order, in which things that start together have kept theirs -/
def Reordered (xs ys : List α) : Prop := ∃ moved, MovedAs xs ys moved

omit [HasSpan α] in
theorem zipIdx_pairwise (xs : List α) : xs.zipIdx.Pairwise fun a b => a.2 < b.2 := by
  rw [← List.pairwise_map (R := (· < ·)) (f := Prod.snd), List.zipIdx_map_snd]
  exact List.pairwise_lt_range'

theorem filter_map_fst (moved : List (α × Nat)) (pos : Nat) :
    ((moved.map Prod.fst).filter fun a => (HasSpan.span a).start = pos) =
      (moved.filter fun a => (HasSpan.span a.1).start = pos).map Prod.fst := by
  rw [List.filter_map]
  rfl

/-- the things that start together are the same before and after -/
theorem MovedAs.filter_start {xs ys : List α} {moved : List (α × Nat)} (h : MovedAs xs ys moved) (pos : Nat) :
    (ys.filter fun a => (HasSpan.span a).start = pos) = xs.filter fun a => (HasSpan.span a).start = pos := by
  set p : α × Nat → Bool := fun a => (HasSpan.span a.1).start = pos with hp
  -- both come in the order of their places in the first list, and no two have the same place
  have hmoved : (moved.filter p).Pairwise fun a b => a.2 < b.2 := by
    refine (h.kept.filter p).imp_of_mem fun ha hb hkept => hkept ?_
    have hsa : (HasSpan.span _).start = pos := of_decide_eq_true (List.mem_filter.1 ha).2
    have hsb : (HasSpan.span _).start = pos := of_decide_eq_true (List.mem_filter.1 hb).2
    rw [hsa, hsb]
  have hgiven : (xs.zipIdx.filter p).Pairwise fun a b => a.2 < b.2 := (zipIdx_pairwise xs).filter p
  have heq : moved.filter p = xs.zipIdx.filter p :=
    List.Perm.eq_of_pairwise (fun a b _ _ hab hba => absurd hba (Nat.lt_asymm hab)) hmoved hgiven (h.places.filter p)
  calc (ys.filter fun a => (HasSpan.span a).start = pos)
    _ = (moved.filter p).map Prod.fst := by rw [← h.things, filter_map_fst]
    _ = (xs.zipIdx.filter p).map Prod.fst := by rw [heq]
    _ = xs.filter fun a => (HasSpan.span a).start = pos := by rw [← filter_map_fst, List.zipIdx_map_fst]

/-- a list that agrees with numbered things on those that start together can be numbered in the same way -/
theorem exists_moved {given : List (α × Nat)} (hgiven : given.Pairwise fun a b => a.2 < b.2) {ys : List α}
    (h : ∀ pos : Nat, (ys.filter fun a => (HasSpan.span a).start = pos) =
      (given.map Prod.fst).filter fun a => (HasSpan.span a).start = pos) :
    ∃ moved : List (α × Nat), moved.Perm given ∧ moved.map Prod.fst = ys ∧
      moved.Pairwise fun a b => (HasSpan.span a.1).start = (HasSpan.span b.1).start → a.2 < b.2 := by
  induction ys generalizing given with
  | nil =>
    have hnone : given = [] := List.map_eq_nil_iff.1 <| List.eq_nil_iff_forall_not_mem.2 fun a ha => by
      simpa using (mem_iff_of_filter_start h a).2 ha
    exact ⟨[], by rw [hnone], rfl, List.Pairwise.nil⟩
  | cons y ys ih =>
    -- the first of the numbered things that starts with `y` is `y` itself
    have hy := h (HasSpan.span y).start
    rw [List.filter_cons_of_pos (by simp), filter_map_fst, eq_comm, List.map_eq_cons_iff] at hy
    obtain ⟨⟨x, i⟩, rest, hfirst, rfl, -⟩ := hy
    obtain ⟨before, after, rfl, hbefore, -, -⟩ := List.filter_eq_cons_iff.1 hfirst
    have hnone : ((before.map Prod.fst).filter fun a => (HasSpan.span a).start = (HasSpan.span x).start) = [] := by
      rw [filter_map_fst, List.filter_eq_nil_iff.2 hbefore, List.map_nil]
    have hrest : ∀ pos : Nat, (ys.filter fun a => (HasSpan.span a).start = pos) =
        ((before ++ after).map Prod.fst).filter fun a => (HasSpan.span a).start = pos := by
      intro pos
      have hpos := h pos
      simp only [List.map_append, List.map_cons, List.filter_append, List.filter_cons] at hpos ⊢
      by_cases hx : (HasSpan.span x).start = pos
      · subst hx
        simpa [hnone] using hpos
      · simpa [hx] using hpos
    have hsub : (before ++ after).Sublist (before ++ (x, i) :: after) :=
      (List.Sublist.refl before).append (List.sublist_cons_self _ _)
    obtain ⟨moved, hplaces, hthings, hkept⟩ := ih (hgiven.sublist hsub) hrest
    refine ⟨(x, i) :: moved, (hplaces.cons _).trans List.perm_middle.symm, by rw [List.map_cons, hthings],
      List.Pairwise.cons (fun b hb hstart => ?_) hkept⟩
    rcases List.mem_append.1 (hplaces.mem_iff.1 hb) with hb | hb
    · exact absurd (decide_eq_true hstart.symm) (hbefore b hb)
    · exact (List.pairwise_cons.1 (List.pairwise_append.1 hgiven).2.1).1 b hb

/-- **What a reordering keeps.** -/
theorem reordered_iff_filter {xs ys : List α} : Reordered xs ys ↔
    ∀ pos : Nat, (ys.filter fun a => (HasSpan.span a).start = pos) = xs.filter fun a => (HasSpan.span a).start = pos := by
  constructor
  · rintro ⟨moved, h⟩
    exact h.filter_start
  · intro h
    obtain ⟨moved, hplaces, hthings, hkept⟩ := exists_moved (zipIdx_pairwise xs) (by rwa [List.zipIdx_map_fst])
    exact ⟨moved, hplaces, hthings, hkept⟩

/-- if no two things start together, every order will do -/
theorem reordered_of_perm {xs ys : List α} (h : ys.Perm xs) (hstarts : (xs.map fun a => (HasSpan.span a).start).Nodup) :
    Reordered xs ys := by
  refine reordered_iff_filter.2 fun pos => ?_
  have hapart : xs.Pairwise fun a b => (HasSpan.span a).start ≠ (HasSpan.span b).start := List.pairwise_map.1 hstarts
  have hapart' : ys.Pairwise fun a b => (HasSpan.span a).start ≠ (HasSpan.span b).start :=
    List.pairwise_map.1 ((h.map _).nodup_iff.2 hstarts)
  refine List.Perm.eq_of_pairwise (fun a b ha hb hne _ => absurd ?_ hne) (hapart'.filter _) (hapart.filter _) (h.filter _)
  have hsa := of_decide_eq_true (List.mem_filter.1 ha).2
  have hsb := of_decide_eq_true (List.mem_filter.1 hb).2
  exact hsa.trans hsb.symm

/-- in order of the starts two lists are the same just when one is a reordering of the other -/
theorem byStart_eq_iff {xs ys : List α} : byStart xs = byStart ys ↔ Reordered xs ys := by
  have hx := byStart_inStartOrder xs
  have hy := byStart_inStartOrder ys
  rw [reordered_iff_filter]
  constructor
  · intro h pos
    rw [← hx.stable, h, hy.stable]
  · exact fun h => eq_of_filter_start hx.sorted hy.sorted fun pos => by rw [hx.stable, hy.stable, h]

end Lists

/-! ## Main result -/

/-- **The order in which comments are given does not show, except between comments that start together.** For every tree that is
acyclic below the root, whatever its spans are, and for all lists of comments:
- attaching gives the same comments on the same nodes in the same relations, in the same order, if and only if the second list is
  the first one in another order in which comments that start together have kept theirs;
- if no two comments start together, every order of them is such an order. -/
theorem attachComments_reordered {γ : Type} [HasSpan γ] (v : View) (root : NodeId) (hacyclic : v.Acyclic root)
    (hwhole : v.Whole root) (xs ys : List γ) :
    (Reordered xs ys ↔ ∃ attachments : List (Attachment γ),
      v.attachComments (some root) xs = .ok attachments ∧ v.attachComments (some root) ys = .ok attachments) ∧
    (ys.Perm xs → (xs.map fun c => (HasSpan.span c).start).Nodup → Reordered xs ys) := by
  obtain ⟨last, hlast⟩ := exists_last hacyclic hwhole
  have hcomments : ∀ zs : List γ,
      (attachSorted (byStart zs) (v.sweepOrder root)).map Attachment.comment = byStart zs := by
    intro zs
    obtain ⟨placed, rest, hout, hsorted, -⟩ := attachSorted_complete (byStart zs) hlast
    rw [hout, hsorted]
  refine ⟨?_, reordered_of_perm⟩
  rw [← byStart_eq_iff]
  simp only [attachComments_eq hacyclic hwhole, Except.ok.injEq]
  constructor
  · intro h
    exact ⟨_, rfl, by rw [h]⟩
  · rintro ⟨attachments, hx, hy⟩
    -- the comments of the result are the sorted ones
    rw [← hcomments xs, ← hcomments ys, hx, hy]

/-- two of the comments start together; they may be moved among the others, but not past each other -/
theorem attachComments_reordered_tangled :
    let given : List Span := [⟨5, 8⟩, ⟨20, 22⟩, ⟨5, 6⟩, ⟨0, 3⟩]
    let mixed : List Span := [⟨0, 3⟩, ⟨5, 8⟩, ⟨5, 6⟩, ⟨20, 22⟩]
    let swapped : List Span := [⟨5, 6⟩, ⟨20, 22⟩, ⟨5, 8⟩, ⟨0, 3⟩]
    tangledView.Acyclic 0 ∧ tangledView.Whole 0 ∧
    (Reordered given mixed ∧ ∃ attachments, tangledView.attachComments (some 0) given = .ok attachments ∧
      tangledView.attachComments (some 0) mixed = .ok attachments) ∧
    (swapped.Perm given ∧ ¬∃ attachments, tangledView.attachComments (some 0) given = .ok attachments ∧
      tangledView.attachComments (some 0) swapped = .ok attachments) ∧
    Reordered (given.drop 1) (given.drop 1).reverse := by
  intro given mixed swapped
  have hacyclic := View.acyclic_of_rising (v := tangledView) (by decide +kernel) 0
  have hwhole : tangledView.Whole 0 := View.whole_of_closed (by decide +kernel) (by decide)
  have hmixed : Reordered given mixed :=
    ⟨[(⟨0, 3⟩, 3), (⟨5, 8⟩, 0), (⟨5, 6⟩, 2), (⟨20, 22⟩, 1)], by decide, rfl, by decide⟩
  have hswapped : ¬Reordered given swapped := fun h => absurd (reordered_iff_filter.1 h 5) (by decide)
  obtain ⟨hsame, -⟩ := attachComments_reordered tangledView 0 hacyclic hwhole given mixed
  obtain ⟨hother, -⟩ := attachComments_reordered tangledView 0 hacyclic hwhole given swapped
  obtain ⟨-, hdistinct⟩ := attachComments_reordered tangledView 0 hacyclic hwhole (given.drop 1) (given.drop 1).reverse
  exact ⟨hacyclic, hwhole, ⟨hmixed, hsame.1 hmixed⟩, ⟨by decide, mt hother.2 hswapped⟩,
    hdistinct (List.reverse_perm _) (by decide)⟩

end Arbor
