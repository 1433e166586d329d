/-
Tokens and gaps tile the source. In a `Lined` list each token ends at or before the next one starts, so the gap behind it is the
exact distance, and the token and its gap together lead from its start to the start of the next one. Step by step they lead from
the first token to every other one, and with the last token, behind which there is no gap, to the end of the list.

So lengths and gaps are distances that lie side by side between the first start and the last end. No sum of them, whichever are
picked and in whatever order they are added, passes the last end, and words of 32 bits that hold the last end hold the sum.

- `stop_add_gapAfter`: a gap closes the distance to the next token; the subtraction in it is never cut off at zero.
- `start_of_strides`: the way from the first token to any other one.
- `lengths_and_gaps_tile`: the sum over all tokens is the last end, and no partial sum passes it.
-/
import Mathlib.Algebra.BigOperators.Group.Finset.Basic
import Mathlib.Algebra.Order.BigOperators.Group.List
import Mathlib.Algebra.Order.Group.Nat
import Arbor.Proofs.Intervals
import Arbor.Proofs.TokenLookup

namespace Arbor

namespace TokenIndex

/-- the numbers are the lengths of the tokens, each at the place of its token -/
def Measures (index : TokenIndex) (length : Nat → Nat) : Prop :=
  ∀ (i : Nat) (t : Token), index.toList[i]? = some t → t.span.length = .ok (length i)

/-- the lengths of the first tokens, each with the gap behind its token -/
def strips (index : TokenIndex) (length : Nat → Nat) (count : Nat) : List Nat :=
  (List.range count).flatMap fun i => [length i, index.gapAfter i]

theorem sum_strips (index : TokenIndex) (length : Nat → Nat) (count : Nat) :
    (index.strips length count).sum = ∑ i ∈ Finset.range count, (length i + index.gapAfter i) := by
  induction count with
  | zero => rfl
  | succ count ih =>
    have hlast : index.strips length (count + 1) = index.strips length count ++ [length count, index.gapAfter count] := by
      simp only [strips, List.range_succ, List.flatMap_append, List.flatMap_cons, List.flatMap_nil, List.append_nil]
    rw [hlast, List.sum_append, ih, Finset.sum_range_succ, List.sum_pair]

theorem gapAfter_last {index : TokenIndex} {i : Nat} (hnext : index.toList[i + 1]? = none) : index.gapAfter i = 0 := by
  rw [toList, Array.getElem?_toList] at hnext
  rw [gapAfter, next?, get?, get?, hnext]
  cases index.tokens[i]? <;> rfl

/-! ## From token to token -/

section Strides

variable {index : TokenIndex} (h : Lined index.toList)
include h

theorem stop_le_next {i : Nat} {t next : Token} (ht : index.toList[i]? = some t) (hnext : index.toList[i + 1]? = some next) :
    t.span.stop ≤ next.span.start := by
  obtain ⟨hi, rfl⟩ := List.getElem?_eq_some_iff.1 ht
  obtain ⟨hlt, rfl⟩ := List.getElem?_eq_some_iff.1 hnext
  exact List.isChain_iff_getElem.1 h.chain i hlt

/-- the gap behind a token is the distance to the next one -/
theorem stop_add_gapAfter {i : Nat} {t next : Token} (ht : index.toList[i]? = some t)
    (hnext : index.toList[i + 1]? = some next) : t.span.stop + index.gapAfter i = next.span.start := by
  have hle := stop_le_next h ht hnext
  rw [toList, Array.getElem?_toList] at ht hnext
  rw [gapAfter, next?, get?, get?, ht, hnext]
  exact Nat.add_sub_cancel' hle

theorem exists_measures : ∃ length, index.Measures length := by
  refine ⟨fun i => (index.toList[i]?.map fun t => t.span.stop - t.span.start).getD 0, fun i t ht => ?_⟩
  have hordered := h.ordered t (List.mem_of_getElem? ht)
  refine Span.length_eq_ok_iff.2 ?_
  simp only [ht, Option.map_some, Option.getD_some]
  exact Nat.add_sub_cancel' hordered

variable {length : Nat → Nat} (hlength : index.Measures length)
include hlength

/-- **One step.** A token and the gap behind it lead to the next token. -/
theorem start_add_stride {i : Nat} {t next : Token} (ht : index.toList[i]? = some t)
    (hnext : index.toList[i + 1]? = some next) :
    t.span.start + (length i + index.gapAfter i) = next.span.start := by
  have hend : t.span.start + length i = t.span.stop := Span.length_eq_ok_iff.1 (hlength i t ht)
  rw [← Nat.add_assoc, hend, stop_add_gapAfter h ht hnext]

/-- **All steps.** The tokens before a place and the gaps behind them lead from the first token to the one at this place. -/
theorem start_of_strides {first : Token} (hfirst : index.toList[0]? = some first) (i : Nat) :
    ∀ t, index.toList[i]? = some t →
      first.span.start + ∑ j ∈ Finset.range i, (length j + index.gapAfter j) = t.span.start := by
  induction i with
  | zero =>
    intro t ht
    rw [hfirst] at ht
    cases ht
    rfl
  | succ i ih =>
    intro next hnext
    have hi : i < index.toList.length := Nat.lt_of_succ_lt (List.getElem?_eq_some_iff.1 hnext).1
    have ht := List.getElem?_eq_getElem hi
    rw [Finset.sum_range_succ, ← Nat.add_assoc, ih _ ht, start_add_stride h hlength ht hnext]

/-- the last token leads from its start to its end -/
theorem stop_of_strides {first last : Token} (hfirst : index.toList[0]? = some first)
    (hlast : index.toList.getLast? = some last) :
    first.span.start + ∑ i ∈ Finset.range index.size, (length i + index.gapAfter i) = last.span.stop := by
  have hsize : index.size = index.toList.length := Array.length_toList.symm
  obtain ⟨count, hcount⟩ : ∃ count, index.toList.length = count + 1 :=
    Nat.exists_eq_succ_of_ne_zero (List.length_pos_of_mem (List.mem_of_getLast? hlast)).ne'
  rw [List.getLast?_eq_getElem?, hcount, Nat.add_sub_cancel] at hlast
  have hnone : index.toList[count + 1]? = none := List.getElem?_eq_none hcount.le
  have hend : last.span.start + length count = last.span.stop := Span.length_eq_ok_iff.1 (hlength count last hlast)
  rw [hsize, hcount, Finset.sum_range_succ, gapAfter_last hnone, Nat.add_zero, ← Nat.add_assoc,
    start_of_strides h hlength hfirst count last hlast, hend]

end Strides

/-! ## Sums in words -/

/-- a number and others added to it one after the other, in words of 32 bits -/
def wordSum (start : Nat) (parts : List Nat) : UInt32 :=
  parts.foldl (fun sum part => sum + UInt32.ofNat part) (UInt32.ofNat start)

theorem wordSum_eq (start : Nat) (parts : List Nat) : wordSum start parts = UInt32.ofNat (start + parts.sum) := by
  induction parts generalizing start with
  | nil => rfl
  | cons part rest ih =>
    have hfirst : wordSum start (part :: rest) = wordSum (start + part) rest := by
      rw [wordSum, List.foldl_cons, wordSum, UInt32.ofNat_add]
    rw [hfirst, ih, List.sum_cons, Nat.add_assoc]

/-! ## Main result -/

/-- **Token lengths and gaps tile the source.** For every token list that is not empty and that is lined once it is put in order of
the starts, where equal starts keep their order, and for its index:
- every token has a length, and the first start with all lengths and all gaps is the last end;
- up to any place, the lengths and gaps lead from the first start to the start of the token there;
- each gap but the last is the exact distance to the next token, which starts at or after the end of the one before it;
- lengths and gaps picked in any number and in any order, added to the first start, do not pass the last end, so a sum of them in
  words that hold the last end is the sum of the numbers. -/
theorem lengths_and_gaps_tile (tokens sorted : List Token) (hne : tokens ≠ []) (hsorted : InStartOrder tokens sorted)
    (hlined : Lined sorted) :
    let index := ofList tokens
    ∃ (first last : Token) (length : Nat → Nat), sorted.head? = some first ∧ sorted.getLast? = some last ∧
      (∀ (i : Nat) (t : Token), sorted[i]? = some t → t.span.length = .ok (length i)) ∧
      first.span.start + ∑ i ∈ Finset.range index.size, (length i + index.gapAfter i) = last.span.stop ∧
      (∀ (i : Nat) (t : Token), sorted[i]? = some t →
        first.span.start + ∑ j ∈ Finset.range i, (length j + index.gapAfter j) = t.span.start) ∧
      (∀ (i : Nat) (t next : Token), sorted[i]? = some t → sorted[i + 1]? = some next →
        t.span.stop ≤ next.span.start ∧ t.span.stop + index.gapAfter i = next.span.start) ∧
      ∀ parts : List Nat, parts.Subperm (index.strips length index.size) →
        first.span.start + parts.sum ≤ last.span.stop ∧
        (last.span.stop < 2 ^ 32 → (wordSum first.span.start parts).toNat = first.span.start + parts.sum) := by
  intro index
  have hlist : index.toList = sorted := toList_ofList hsorted
  have hsome : sorted ≠ [] := fun hnil => hne (List.perm_nil.1 (hnil ▸ hsorted.perm.symm))
  rw [← hlist] at hlined hsome ⊢
  obtain ⟨length, hlength⟩ := exists_measures hlined
  have hfirst : index.toList.head? = some (index.toList.head hsome) := List.head?_eq_some_head hsome
  have hlast : index.toList.getLast? = some (index.toList.getLast hsome) := List.getLast?_eq_some_getLast hsome
  have hplace : index.toList[0]? = some (index.toList.head hsome) := List.head?_eq_getElem?.symm.trans hfirst
  have hwhole := stop_of_strides hlined hlength hplace hlast
  refine ⟨_, _, length, hfirst, hlast, hlength, hwhole, start_of_strides hlined hlength hplace,
    fun i t next ht hnext => ⟨stop_le_next hlined ht hnext, stop_add_gapAfter hlined ht hnext⟩, fun parts hparts => ?_⟩
  have hbound : (index.toList.head hsome).span.start + parts.sum ≤ (index.toList.getLast hsome).span.stop := by
    obtain ⟨picked, hperm, hsub⟩ := hparts
    calc (index.toList.head hsome).span.start + parts.sum
        = (index.toList.head hsome).span.start + picked.sum := by rw [hperm.sum_eq]
      _ ≤ (index.toList.head hsome).span.start + (index.strips length index.size).sum :=
        Nat.add_le_add_left (hsub.sum_le_sum fun _ _ => Nat.zero_le _) _
      _ = (index.toList.getLast hsome).span.stop := by rw [sum_strips, hwhole]
  refine ⟨hbound, fun hfits => ?_⟩
  rw [wordSum_eq, UInt32.toNat_ofNat_of_lt' (Nat.lt_of_le_of_lt hbound hfits)]

/-- tokens out of order: an empty one between gaps, and two that touch -/
def spreadTokens : List Token :=
  [⟨.identifier, ⟨9, 12⟩, "def"⟩, ⟨.template, ⟨7, 7⟩, ""⟩, ⟨.punctuator, ⟨12, 13⟩, ";"⟩, ⟨.keyword, ⟨3, 5⟩, "do"⟩]

/-- From 3 on the lengths 2, 0, 3, 1 and the gaps 2, 2, 0 behind all tokens but the last lead to 13, also in words. -/
theorem lengths_and_gaps_tile_spread :
    let sorted : List Token :=
      [⟨.keyword, ⟨3, 5⟩, "do"⟩, ⟨.template, ⟨7, 7⟩, ""⟩, ⟨.identifier, ⟨9, 12⟩, "def"⟩, ⟨.punctuator, ⟨12, 13⟩, ";"⟩]
    let index := ofList spreadTokens
    spreadTokens ≠ [] ∧ InStartOrder spreadTokens sorted ∧ Lined sorted ∧ ∃ length : Nat → Nat,
      (length 0 = 2 ∧ length 1 = 0 ∧ length 2 = 3 ∧ length 3 = 1) ∧
      (index.gapAfter 0 = 2 ∧ index.gapAfter 1 = 2 ∧ index.gapAfter 2 = 0) ∧
      3 + ∑ i ∈ Finset.range index.size, (length i + index.gapAfter i) = 13 ∧
      (wordSum 3 (index.strips length index.size)).toNat = 13 := by
  intro sorted index
  have hne : spreadTokens ≠ [] := List.cons_ne_nil _ _
  have hsame : byStart spreadTokens = sorted := by cbv
  have hsorted : InStartOrder spreadTokens sorted := hsame ▸ byStart_inStartOrder spreadTokens
  have hlined : Lined sorted := ⟨by decide, by decide⟩
  obtain ⟨first, last, length, hfirst, hlast, hlength, hwhole, -, hgaps, hparts⟩ :=
    lengths_and_gaps_tile spreadTokens sorted hne hsorted hlined
  cases hfirst
  cases hlast
  have hwords := (hparts _ (.refl _)).2 (by decide)
  rw [sum_strips, hwhole] at hwords
  refine ⟨hne, hsorted, hlined, length, ⟨?_, ?_, ?_, ?_⟩, ⟨?_, ?_, ?_⟩, hwhole, hwords⟩
  · exact (Except.ok.inj (hlength 0 _ rfl)).symm
  · exact (Except.ok.inj (hlength 1 _ rfl)).symm
  · exact (Except.ok.inj (hlength 2 _ rfl)).symm
  · exact (Except.ok.inj (hlength 3 _ rfl)).symm
  · exact Nat.add_left_cancel (hgaps 0 _ _ rfl rfl).2
  · exact Nat.add_left_cancel (hgaps 1 _ _ rfl rfl).2
  · exact Nat.add_left_cancel (hgaps 2 _ _ rfl rfl).2

end TokenIndex

end Arbor
