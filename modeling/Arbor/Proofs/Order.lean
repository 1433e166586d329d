/-
Order by start. Comments and nodes are swept in the order of their starts; things that start together keep the order they
had. `InStartOrder` says this without naming an algorithm, and `byStart_inStartOrder` that `byStart` does it. There is only
one such order (`InStartOrder.unique`).

`InStartOrder.pairwise` carries what is known about each two things over to the sorted list: of two that start together
the first one was the first before, of two others either may have been.
-/
import Mathlib.Data.List.Pairwise
import Mathlib.Data.List.Permutation
import Arbor.Comment.Attach

namespace Arbor

variable {α : Type} [HasSpan α]

/-- the second list is the first one in order of the starts; equal starts keep their order -/
structure InStartOrder (xs ys : List α) : Prop where
  perm : ys.Perm xs
  sorted : ys.Pairwise fun a b => (HasSpan.span a).start ≤ (HasSpan.span b).start
  stable : ∀ pos : Nat, (ys.filter fun a => (HasSpan.span a).start = pos) =
    xs.filter fun a => (HasSpan.span a).start = pos

theorem byStart_inStartOrder (xs : List α) : InStartOrder xs (byStart xs) := by
  have htrans : ∀ a b c : α, decide ((HasSpan.span a).start ≤ (HasSpan.span b).start) = true →
      decide ((HasSpan.span b).start ≤ (HasSpan.span c).start) = true →
      decide ((HasSpan.span a).start ≤ (HasSpan.span c).start) = true := by
    intro a b c hab hbc
    simp only [decide_eq_true_eq] at hab hbc ⊢
    exact Nat.le_trans hab hbc
  have htotal : ∀ a b : α, (decide ((HasSpan.span a).start ≤ (HasSpan.span b).start) ||
      decide ((HasSpan.span b).start ≤ (HasSpan.span a).start)) = true := by
    intro a b
    simp only [Bool.or_eq_true, decide_eq_true_eq]
    exact Nat.le_total _ _
  have hperm : (byStart xs).Perm xs := List.mergeSort_perm xs _
  refine ⟨hperm, ?_, fun pos => ?_⟩
  · exact (List.pairwise_mergeSort htrans htotal xs).imp fun h => of_decide_eq_true h
  · -- the things that start at `pos` are a sorted sublist before, so a sublist after, and there are as many of them
    set p : α → Bool := fun a => (HasSpan.span a).start = pos
    have hsorted : (xs.filter p).Pairwise fun a b => decide ((HasSpan.span a).start ≤ (HasSpan.span b).start) = true := by
      refine List.pairwise_of_forall_mem_list fun a ha b hb => ?_
      have ha := of_decide_eq_true (List.mem_filter.1 ha).2
      have hb := of_decide_eq_true (List.mem_filter.1 hb).2
      simp [ha, hb]
    have hsub : (xs.filter p).Sublist (byStart xs) :=
      List.sublist_mergeSort htrans htotal hsorted List.filter_sublist
    have hsub' : (xs.filter p).Sublist ((byStart xs).filter p) := by
      have := hsub.filter p
      rwa [List.filter_filter, funext (fun a => Bool.and_self (p a))] at this
    exact (hsub'.eq_of_length (hperm.filter p).length_eq.symm).symm

/-- lists that agree on the things that start together have the same members -/
theorem mem_iff_of_filter_start {ys zs : List α}
    (h : ∀ pos : Nat, (ys.filter fun a => (HasSpan.span a).start = pos) =
      zs.filter fun a => (HasSpan.span a).start = pos) (a : α) : a ∈ ys ↔ a ∈ zs := by
  have hiff : a ∈ (ys.filter fun b => (HasSpan.span b).start = (HasSpan.span a).start) ↔
      a ∈ zs.filter fun b => (HasSpan.span b).start = (HasSpan.span a).start := by rw [h]
  simpa using hiff

/-- sorted lists that agree on the things that start together are the same -/
theorem eq_of_filter_start {ys zs : List α}
    (hy : ys.Pairwise fun a b => (HasSpan.span a).start ≤ (HasSpan.span b).start)
    (hz : zs.Pairwise fun a b => (HasSpan.span a).start ≤ (HasSpan.span b).start)
    (h : ∀ pos : Nat, (ys.filter fun a => (HasSpan.span a).start = pos) =
      zs.filter fun a => (HasSpan.span a).start = pos) : ys = zs := by
  induction ys generalizing zs with
  | nil => exact (List.eq_nil_iff_forall_not_mem.2 fun a ha => by simpa using (mem_iff_of_filter_start h a).2 ha).symm
  | cons a ys ih =>
    have hmem := mem_iff_of_filter_start h
    cases zs with
    | nil => simpa using (hmem a).1 List.mem_cons_self
    | cons b zs =>
      obtain ⟨hay, hys⟩ := List.pairwise_cons.1 hy
      obtain ⟨hbz, hzs⟩ := List.pairwise_cons.1 hz
      -- each of the two heads starts no later than anything in the other list
      have hstart : (HasSpan.span a).start = (HasSpan.span b).start := by
        refine Nat.le_antisymm ?_ ?_
        · rcases List.mem_cons.1 ((hmem b).2 List.mem_cons_self) with rfl | hb
          · exact Nat.le_refl _
          · exact hay b hb
        · rcases List.mem_cons.1 ((hmem a).1 List.mem_cons_self) with rfl | ha
          · exact Nat.le_refl _
          · exact hbz a ha
      have hab : a = b := by
        have hfirst := h (HasSpan.span b).start
        simp only [List.filter_cons, hstart, decide_true, if_true] at hfirst
        exact (List.cons.inj hfirst).1
      subst hab
      refine congrArg (a :: ·) (ih hys hzs fun pos => ?_)
      have hpos := h pos
      by_cases hp : (HasSpan.span a).start = pos
      · simpa [hp] using hpos
      · simpa [hp] using hpos

namespace InStartOrder

theorem unique {xs ys zs : List α} (hy : InStartOrder xs ys) (hz : InStartOrder xs zs) : ys = zs :=
  eq_of_filter_start hy.sorted hz.sorted fun pos => (hy.stable pos).trans (hz.stable pos).symm

theorem mem {xs ys : List α} (h : InStartOrder xs ys) {a : α} : a ∈ ys ↔ a ∈ xs := h.perm.mem_iff

/-- **What sorting keeps.** A relation between each two things of a list, the earlier one first, still holds between two
that start together; between two others it holds in one direction or the other. -/
theorem pairwise {xs ys : List α} (h : InStartOrder xs ys) {R : α → α → Prop} (hR : xs.Pairwise R) :
    ys.Pairwise fun a b =>
      ((HasSpan.span a).start < (HasSpan.span b).start ∧ (R a b ∨ R b a)) ∨
      ((HasSpan.span a).start = (HasSpan.span b).start ∧ R a b) := by
  rw [List.pairwise_iff_forall_sublist]
  intro a b hab
  have ha : a ∈ ys := hab.subset (by simp)
  have hb : b ∈ ys := hab.subset (by simp)
  rcases Nat.lt_or_eq_of_le (List.pairwise_iff_forall_sublist.1 h.sorted hab) with hlt | heq
  · refine Or.inl ⟨hlt, ?_⟩
    have hsymm : Std.Symm fun a b => R a b ∨ R b a := ⟨fun _ _ => Or.symm⟩
    have hne : a ≠ b := by rintro rfl; exact Nat.lt_irrefl _ hlt
    have hboth : xs.Pairwise fun a b => R a b ∨ R b a := hR.imp Or.inl
    exact hboth.forall (h.mem.1 ha) (h.mem.1 hb) hne
  · refine Or.inr ⟨heq, List.pairwise_iff_forall_sublist.1 hR ?_⟩
    have hsub := hab.filter fun c => (HasSpan.span c).start = (HasSpan.span b).start
    rw [h.stable] at hsub
    simp only [List.filter_cons, heq, decide_true, if_true, List.filter_nil] at hsub
    exact hsub.trans List.filter_sublist

end InStartOrder

end Arbor
