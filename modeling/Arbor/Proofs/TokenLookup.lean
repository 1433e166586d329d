/-
Look-ups in a token list, against scans of the whole list. A look-up halves the list by a test on starts or on ends; it is
right where the test splits the list in two. In a `Lined` list every test of the index does so: each token ends at or before
the start of the next one, so the ends ascend as well as the starts. Tokens without a position of their own may stand
anywhere between the others.

- `take_partitionPoint`, `drop_partitionPoint`: the two parts at the partition point are the elements that satisfy the test
  and those that do not.
- `before_eq`, `after_eq`, `within_eq`, `at?_eq_some_iff`, `placeAfter?_eq_some_iff`: what each look-up returns.
- `lookups_eq_scans`: all of them for the index of any list that is lined once it is sorted.
-/
import Arbor.Proofs.Lookup
import Arbor.Proofs.Positions
import Arbor.Token.Index

namespace Arbor

/-! ## Partition points -/

section PartitionPoint

variable {α : Type} {p : α → Bool}

/-- **Bisection finds the border.** Where the test holds of a first part and of nothing after it, the partition point is the
length of that part. -/
theorem partitionPoint_append {front back : List α} (hfront : ∀ a ∈ front, p a = true)
    (hback : ∀ a ∈ back, p a = false) : partitionPoint (front ++ back).toArray p = front.length := by
  have hholds : ∀ i : Nat, (front ++ back)[i]?.any p = decide (i < front.length) := by
    intro i
    by_cases hi : i < front.length
    · rw [List.getElem?_append_left hi, List.getElem?_eq_getElem hi]
      simp [hi, hfront _ (List.getElem_mem hi)]
    · rw [List.getElem?_append_right (Nat.le_of_not_lt hi)]
      cases hb : back[i - front.length]? with
      | none => simp [hi]
      | some b => simp [hi, hback b (List.mem_of_getElem? hb)]
  simp only [partitionPoint, List.getElem?_toArray, hholds, List.size_toArray, List.length_append, decide_eq_true_iff]
  by_cases hsize : 0 < front.length + back.length
  · obtain ⟨-, hlt, htested, hafter⟩ :=
      @bisect_spec (fun i => decide (i < front.length)) (fun i j hij hj => by simp at hj ⊢; omega) 0 _ hsize
    set last := bisect (fun i => decide (i < front.length)) 0 (front.length + back.length)
    have hnext := hafter (last + 1) (by omega)
    simp only [decide_eq_true_iff, decide_eq_false_iff_not] at htested hnext
    split_ifs <;> omega
  · have hfirst : bisect (fun i => decide (i < front.length)) 0 (front.length + back.length) = 0 := by
      rw [bisect, if_neg (by omega)]
    rw [hfirst, if_neg (by omega)]
    omega

/-- a test that holds of everything before what it holds of splits the list in two -/
theorem filter_append_filter_not {xs : List α} (hsplit : xs.Pairwise fun a b => p b = true → p a = true) :
    (xs.filter p ++ xs.filter fun a => !p a) = xs := by
  induction xs with
  | nil => rfl
  | cons a rest ih =>
    obtain ⟨ha, hrest⟩ := List.pairwise_cons.1 hsplit
    by_cases hpa : p a = true
    · simpa [hpa] using ih hrest
    · have hnone : ∀ b ∈ rest, ¬ p b = true := fun b hb hpb => hpa (ha b hb hpb)
      have hall : (rest.filter fun b => !p b) = rest := List.filter_eq_self.2 fun b hb => by simp [hnone b hb]
      simp [hpa, List.filter_eq_nil_iff.2 hnone, hall]

variable {xs : Array α} (hsplit : xs.toList.Pairwise fun a b => p b = true → p a = true)
include hsplit

theorem partitionPoint_eq : partitionPoint xs p = (xs.toList.filter p).length := by
  have hpoint := @partitionPoint_append α p (xs.toList.filter p) (xs.toList.filter fun a => !p a)
    (fun a ha => (List.mem_filter.1 ha).2) (fun a ha => by simpa using (List.mem_filter.1 ha).2)
  rwa [filter_append_filter_not hsplit] at hpoint

theorem take_partitionPoint : xs.toList.take (partitionPoint xs p) = xs.toList.filter p :=
  calc xs.toList.take (partitionPoint xs p)
      = (xs.toList.filter p ++ xs.toList.filter fun a => !p a).take (xs.toList.filter p).length := by
        rw [filter_append_filter_not hsplit, partitionPoint_eq hsplit]
    _ = xs.toList.filter p := List.take_left

theorem drop_partitionPoint : xs.toList.drop (partitionPoint xs p) = xs.toList.filter fun a => !p a :=
  calc xs.toList.drop (partitionPoint xs p)
      = (xs.toList.filter p ++ xs.toList.filter fun a => !p a).drop (xs.toList.filter p).length := by
        rw [filter_append_filter_not hsplit, partitionPoint_eq hsplit]
    _ = xs.toList.filter fun a => !p a := List.drop_left

/-- an element satisfies the test if and only if its place is before the partition point -/
theorem lt_partitionPoint_iff {i : Nat} {a : α} (ha : xs[i]? = some a) : i < partitionPoint xs p ↔ p a = true := by
  rw [← Array.getElem?_toList] at ha
  constructor
  · intro hi
    have htake : a ∈ xs.toList.take (partitionPoint xs p) :=
      List.mem_of_getElem? ((List.getElem?_take_of_lt hi).trans ha)
    rw [take_partitionPoint hsplit] at htake
    exact (List.mem_filter.1 htake).2
  · intro hpa
    by_contra hi
    have hdrop : a ∈ xs.toList.drop (partitionPoint xs p) := by
      refine List.mem_of_getElem? (i := i - partitionPoint xs p) ?_
      rw [List.getElem?_drop, Nat.add_sub_cancel' (Nat.le_of_not_lt hi), ha]
    rw [drop_partitionPoint hsplit] at hdrop
    simpa [hpa] using (List.mem_filter.1 hdrop).2

end PartitionPoint

/-! ## Lined tokens -/

/-- the tokens have their bounds in order, and each ends at or before the start of the next one -/
structure Lined (tokens : List Token) : Prop where
  ordered : ∀ t ∈ tokens, t.span.Ordered
  chain : tokens.IsChain fun a b => a.span.stop ≤ b.span.start

/-- each token ends at or before the start of every later one -/
theorem Lined.pairwise {tokens : List Token} (h : Lined tokens) :
    tokens.Pairwise fun a b => a.span.stop ≤ b.span.start := by
  induction tokens with
  | nil => exact .nil
  | cons t rest ih =>
    have hrest := ih ⟨fun s hs => h.ordered s (List.mem_cons_of_mem t hs), h.chain.of_cons⟩
    refine List.pairwise_cons.2 ⟨fun s hs => ?_, hrest⟩
    cases rest with
    | nil => simp at hs
    | cons next more =>
      have hnext : t.span.stop ≤ next.span.start := (List.isChain_cons_cons.1 h.chain).1
      rcases List.mem_cons.1 hs with rfl | hs
      · exact hnext
      · have hordered : next.span.start ≤ next.span.stop := h.ordered next (by simp)
        exact (hnext.trans hordered).trans ((List.pairwise_cons.1 hrest).1 s hs)

namespace TokenIndex

/-- what a range look-up searches are the tokens that do not start before the range -/
theorem toList_extract (index : TokenIndex) (pos : Nat) :
    (index.tokens.extract (index.startsBefore pos) index.size).toList = index.after pos := by
  rw [after, size, Array.toList_extract, List.extract_eq_take_drop]
  simp [toList]

section Lookups

variable {index : TokenIndex} (h : Lined index.toList)
include h

/-- a test that is passed on from a token to the ones that end before it splits the list in two -/
theorem split_of_lined {p : Token → Bool}
    (hp : ∀ a b : Token, a.span.Ordered → b.span.Ordered → a.span.stop ≤ b.span.start → p b = true → p a = true) :
    index.toList.Pairwise fun a b => p b = true → p a = true :=
  List.Pairwise.imp_of_mem (fun ha hb hab => hp _ _ (h.ordered _ ha) (h.ordered _ hb) hab) h.pairwise

theorem starts_split (test : Nat → Bool) (htest : ∀ i j, i ≤ j → test j = true → test i = true) :
    index.toList.Pairwise fun a b => test b.span.start = true → test a.span.start = true :=
  split_of_lined h (p := fun t => test t.span.start) fun _ _ ha _ hab => htest _ _ (Nat.le_trans ha hab)

theorem startsBefore_split (pos : Nat) :
    index.toList.Pairwise fun a b => decide (b.span.start < pos) = true → decide (a.span.start < pos) = true :=
  starts_split h (fun start => decide (start < pos)) fun i j hij hj => by
    rw [decide_eq_true_iff] at hj ⊢
    omega

/-! ## Positions -/

theorem before_eq (pos : Nat) : index.before pos = index.toList.filter fun t => t.span.stop ≤ pos := by
  refine take_partitionPoint (split_of_lined h fun a b _ hb hab hpos => ?_)
  rw [Span.Ordered] at hb
  rw [decide_eq_true_iff] at hpos ⊢
  omega

theorem after_eq (pos : Nat) : index.after pos = index.toList.filter fun t => pos ≤ t.span.start := by
  rw [after, startsBefore, toList, drop_partitionPoint (startsBefore_split h pos)]
  refine List.filter_congr fun t _ => ?_
  rw [← decide_not, decide_eq_decide]
  exact Nat.not_lt

/-- a token starts before a position if and only if its place is before the place where the search ends -/
theorem lt_startsBefore_iff {pos i : Nat} {t : Token} (ht : index.toList[i]? = some t) :
    i < index.startsBefore pos ↔ t.span.start < pos := by
  rw [toList, Array.getElem?_toList] at ht
  rw [startsBefore, lt_partitionPoint_iff (startsBefore_split h pos) ht, decide_eq_true_iff]

/-- the place after a position is the first one whose token starts there or later -/
theorem placeAfter?_eq_some_iff (pos i : Nat) :
    index.placeAfter? pos = some i ↔ (∃ t, index.toList[i]? = some t ∧ pos ≤ t.span.start) ∧
      ∀ j < i, ∀ t, index.toList[j]? = some t → t.span.start < pos := by
  have hplace : index.placeAfter? pos = some i ↔ index.startsBefore pos < index.toList.length ∧
      index.startsBefore pos = i := by
    simp only [placeAfter?, size, toList, Array.length_toList]
    split_ifs with hlt <;> simp [hlt]
  rw [hplace]
  constructor
  · rintro ⟨hsize, rfl⟩
    have hthere := List.getElem?_eq_getElem hsize
    refine ⟨⟨_, hthere, Nat.le_of_not_lt fun hstart => ?_⟩, fun j hj t ht => (lt_startsBefore_iff h ht).1 hj⟩
    exact Nat.lt_irrefl _ ((lt_startsBefore_iff h hthere).2 hstart)
  · rintro ⟨⟨t, ht, hstart⟩, hearlier⟩
    have hi : i < index.toList.length := (List.getElem?_eq_some_iff.1 ht).1
    have hle : index.startsBefore pos ≤ i :=
      Nat.le_of_not_lt fun hlt => Nat.not_lt.2 hstart ((lt_startsBefore_iff h ht).1 hlt)
    rcases Nat.lt_or_eq_of_le hle with hlt | heq
    · -- the token where the search ends would start before the position
      have hthere := List.getElem?_eq_getElem (hlt.trans hi)
      exact absurd ((lt_startsBefore_iff h hthere).2 (hearlier _ hlt _ hthere)) (Nat.lt_irrefl _)
    · exact ⟨heq ▸ hi, heq⟩

theorem placeAfter?_eq_none_iff (pos : Nat) :
    index.placeAfter? pos = none ↔ ∀ t ∈ index.toList, t.span.start < pos := by
  have hplace : index.placeAfter? pos = none ↔ index.toList.length ≤ index.startsBefore pos := by
    simp only [placeAfter?, size, toList, Array.length_toList]
    split_ifs with hlt <;> simp [hlt, Nat.le_of_not_lt]
  rw [hplace]
  constructor
  · intro hsize t ht
    obtain ⟨j, hj⟩ := List.mem_iff_getElem?.1 ht
    exact (lt_startsBefore_iff h hj).1 (Nat.lt_of_lt_of_le (List.getElem?_eq_some_iff.1 hj).1 hsize)
  · intro hall
    refine Nat.le_of_not_lt fun hsize => ?_
    have hthere := List.getElem?_eq_getElem hsize
    exact Nat.lt_irrefl _ ((lt_startsBefore_iff h hthere).2 (hall _ (List.getElem_mem hsize)))

/-- what comes after a token that covers a position starts after the position -/
theorem start_of_later {pos i j : Nat} {s t : Token} (hs : index.toList[i]? = some s) (hcovers : s.span.covers pos = true)
    (hij : i < j) (ht : index.toList[j]? = some t) : pos < t.span.start := by
  obtain ⟨hi, rfl⟩ := List.getElem?_eq_some_iff.1 hs
  obtain ⟨hj, rfl⟩ := List.getElem?_eq_some_iff.1 ht
  exact Nat.lt_of_lt_of_le (Span.covers_iff.1 hcovers).2 (List.pairwise_iff_getElem.1 h.pairwise i j hi hj hij)

/-- **The token at a position** is the one that covers it: the last that does not start after the position. -/
theorem at?_eq_some_iff (pos i : Nat) (t : Token) :
    index.at? pos = some (i, t) ↔ index.toList[i]? = some t ∧ t.span.covers pos = true := by
  have hsplit := starts_split h (fun start => decide (start ≤ pos)) fun i j hij hj => by
    rw [decide_eq_true_iff] at hj ⊢
    omega
  have hlt : ∀ {j : Nat} {s : Token}, index.toList[j]? = some s →
      (j < partitionPoint index.tokens (fun t => decide (t.span.start ≤ pos)) ↔ s.span.start ≤ pos) := by
    intro j s hs
    rw [toList, Array.getElem?_toList] at hs
    rw [lt_partitionPoint_iff hsplit hs, decide_eq_true_iff]
  constructor
  · intro hat
    simp only [at?] at hat
    split at hat
    · cases hat
    · obtain ⟨s, hs, hfound⟩ := Option.bind_eq_some_iff.1 hat
      split_ifs at hfound with hcovers
      cases hfound
      exact ⟨by rwa [toList, Array.getElem?_toList], hcovers⟩
  · rintro ⟨ht, hcovers⟩
    have hend : partitionPoint index.tokens (fun t => decide (t.span.start ≤ pos)) = i + 1 := by
      refine Nat.le_antisymm (Nat.le_of_not_lt fun hbehind => ?_) ((hlt ht).2 (Span.covers_iff.1 hcovers).1)
      -- the token after the one that covers the position would not start after it
      have hsize : i + 1 < index.toList.length := by
        have hfilter := partitionPoint_eq hsplit
        have hle := List.length_filter_le (fun t : Token => decide (t.span.start ≤ pos)) index.toList
        rw [toList] at hle ⊢
        omega
      have hnext := List.getElem?_eq_getElem hsize
      exact Nat.not_lt.2 ((hlt hnext).1 hbehind) (start_of_later h ht hcovers (Nat.lt_succ_self i) hnext)
    rw [toList, Array.getElem?_toList] at ht
    simp [at?, hend, get?, ht, hcovers]

/-! ## Ranges -/

/-- **The tokens within a span.** Of the tokens that do not start before it, those within it are a first part. -/
theorem within_eq (range : Span) : index.within range = index.toList.filter fun t => range.contains t.span := by
  set later := index.tokens.extract (index.startsBefore range.start) index.size with hlater
  have hlist : later.toList = index.toList.filter fun t => range.start ≤ t.span.start := by
    rw [hlater, toList_extract, after_eq h]
  have hsplit : later.toList.Pairwise fun a b => range.contains b.span = true → range.contains a.span = true := by
    rw [hlist]
    refine List.Pairwise.imp_of_mem (fun {a b} ha hb hab hcontains => ?_) (h.pairwise.sublist List.filter_sublist)
    have hstart := of_decide_eq_true (List.mem_filter.1 ha).2
    have hordered := h.ordered b (List.mem_filter.1 hb).1
    rw [Span.contains_iff] at hcontains ⊢
    rw [Span.Ordered] at hordered
    omega
  calc index.within range
      = later.toList.filter fun t => range.contains t.span := take_partitionPoint hsplit
    _ = index.toList.filter fun t => range.contains t.span && decide (range.start ≤ t.span.start) := by
        rw [hlist, List.filter_filter]
    _ = index.toList.filter fun t => range.contains t.span := by
        refine List.filter_congr fun t _ => ?_
        rw [Bool.and_eq_left_iff_imp, decide_eq_true_iff]
        exact fun hcontains => (Span.contains_iff.1 hcontains).1

end Lookups

/-! ## Main result -/

/-- the tokens of an index are the list that it was made of, in order of their starts -/
theorem toList_ofList {tokens sorted : List Token} (hsorted : InStartOrder tokens sorted) :
    (ofList tokens).toList = sorted :=
  (byStart_inStartOrder tokens).unique hsorted

/-- **Look-ups are scans.** For every token list that is lined once it is put in order of the starts, where equal starts keep
their order, and for its index:
- the tokens of the index are this sorted list;
- before and after a position are the tokens that end at or before it and those that start at or after it;
- between two positions and within a span, of a node or of anything else, are the tokens that lie inside, and the first and
  last token of the span are the first and last of these;
- a token is found at a position, with its place, if and only if it stands at this place and covers the position, and
  there is at most one such place;
- the place after a position is the least one whose token starts at or after it, and there is none if no token does. -/
theorem lookups_eq_scans (tokens sorted : List Token) (hsorted : InStartOrder tokens sorted) (hlined : Lined sorted) :
    let index := ofList tokens
    index.toList = sorted ∧
    (∀ pos, index.before pos = sorted.filter (fun t => t.span.stop ≤ pos) ∧
      index.after pos = sorted.filter fun t => pos ≤ t.span.start) ∧
    (∀ start stop, index.inRange start stop = sorted.filter fun t => (Span.of start stop).contains t.span) ∧
    (∀ range : Span, index.within range = sorted.filter (fun t => range.contains t.span) ∧
      index.firstOf? range = (sorted.filter fun t => range.contains t.span).head? ∧
      index.lastOf? range = (sorted.filter fun t => range.contains t.span).getLast?) ∧
    (∀ pos i t, index.at? pos = some (i, t) ↔ sorted[i]? = some t ∧ t.span.covers pos = true) ∧
    (∀ (pos i j : Nat) (s t : Token), sorted[i]? = some s → s.span.covers pos = true → sorted[j]? = some t →
      t.span.covers pos = true → i = j) ∧
    (∀ pos i, index.placeAfter? pos = some i ↔ (∃ t, sorted[i]? = some t ∧ pos ≤ t.span.start) ∧
      ∀ j < i, ∀ t, sorted[j]? = some t → t.span.start < pos) ∧
    ∀ pos, index.placeAfter? pos = none ↔ ∀ t ∈ sorted, t.span.start < pos := by
  intro index
  have hlist : index.toList = sorted := toList_ofList hsorted
  rw [← hlist] at hlined ⊢
  refine ⟨rfl, fun pos => ⟨before_eq hlined pos, after_eq hlined pos⟩, fun start stop => within_eq hlined (.of start stop),
    fun range => ⟨within_eq hlined range, ?_, ?_⟩, at?_eq_some_iff hlined, fun pos i j s t hs hcs ht hct => ?_,
    placeAfter?_eq_some_iff hlined, placeAfter?_eq_none_iff hlined⟩
  · rw [firstOf?, within_eq hlined]
  · rw [lastOf?, within_eq hlined]
  · have hfirst := (at?_eq_some_iff hlined pos i s).2 ⟨hs, hcs⟩
    have hsecond := (at?_eq_some_iff hlined pos j t).2 ⟨ht, hct⟩
    rw [hfirst] at hsecond
    exact congrArg Prod.fst (Option.some.inj hsecond)

/-- tokens out of order, some of which touch; two have no position of their own -/
def touchingTokens : List Token :=
  [⟨.punctuator, ⟨4, 5⟩, "+"⟩, ⟨.identifier, ⟨0, 3⟩, "abc"⟩, ⟨.template, ⟨5, 5⟩, ""⟩, ⟨.template, ⟨3, 3⟩, ""⟩,
    ⟨.identifier, ⟨5, 8⟩, "def"⟩]

/-- At the border 5, where three tokens meet, the one that covers it is found, and the place after it is that of the empty
one before; the empty tokens at 3 and 5 lie within the range from 3 to 5. -/
theorem lookups_eq_scans_touching :
    let sorted : List Token :=
      [⟨.identifier, ⟨0, 3⟩, "abc"⟩, ⟨.template, ⟨3, 3⟩, ""⟩, ⟨.punctuator, ⟨4, 5⟩, "+"⟩, ⟨.template, ⟨5, 5⟩, ""⟩,
        ⟨.identifier, ⟨5, 8⟩, "def"⟩]
    let index := ofList touchingTokens
    InStartOrder touchingTokens sorted ∧ Lined sorted ∧ index.toList = sorted ∧
      index.before 5 = sorted.take 4 ∧ index.after 5 = sorted.drop 3 ∧ index.inRange 3 5 = (sorted.drop 1).take 3 ∧
      index.lastOf? ⟨3, 5⟩ = some ⟨.template, ⟨5, 5⟩, ""⟩ ∧ index.at? 5 = some (4, ⟨.identifier, ⟨5, 8⟩, "def"⟩) ∧
      index.at? 3 = none ∧ index.placeAfter? 5 = some 3 ∧ index.placeAfter? 6 = none := by
  intro sorted index
  have hsame : byStart touchingTokens = sorted := by cbv
  have hsorted : InStartOrder touchingTokens sorted := hsame ▸ byStart_inStartOrder touchingTokens
  have hlined : Lined sorted := ⟨by decide, by decide⟩
  obtain ⟨hlist, hpositions, hrange, hwithin, hat, -, hplace, hnone⟩ :=
    lookups_eq_scans touchingTokens sorted hsorted hlined
  refine ⟨hsorted, hlined, hlist, (hpositions 5).1.trans ?_, (hpositions 5).2.trans ?_, (hrange 3 5).trans ?_,
    (hwithin ⟨3, 5⟩).2.2.trans ?_, (hat 5 4 _).2 ?_, ?_, (hplace 5 3).2 ?_, (hnone 6).2 ?_⟩
  · decide
  · decide
  · decide
  · decide
  · decide
  · refine Option.eq_none_iff_forall_ne_some.2 fun found hfound => ?_
    obtain ⟨hmem, hcovers⟩ := (hat 3 found.1 found.2).1 hfound
    have hnot : ∀ t ∈ sorted, t.span.covers 3 = false := by decide
    rw [hnot _ (List.mem_of_getElem? hmem)] at hcovers
    cases hcovers
  · refine ⟨⟨_, rfl, by decide⟩, fun j hj t ht => ?_⟩
    have hearlier : ∀ t ∈ sorted.take 3, t.span.start < 5 := by decide
    exact hearlier t (List.mem_of_getElem? ((List.getElem?_take_of_lt hj).trans ht))
  · decide

end TokenIndex

end Arbor
