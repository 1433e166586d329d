/-
Listing the tokens of a range. The tokens to list and the place of the first one are looked up apart from each other, and the
gap after a token is looked up once more under the place that is counted on from there. Both searches end at the same border,
though: the number of tokens that start before the range. So the whole listing falls into three parts, and a listing of the
range is the middle one.

- `selectTokens_eq`: the place of the first selected token is the border, also where no token follows it.
- `toList_eq_parts`: what is before the border, what is selected, what follows.
- `linesFrom_append`: lines are numbered on from part to part.
- `range_listing_window`: a listing of a range shows a window of the whole listing.
-/
import Arbor.Command.Run
import Arbor.Proofs.TokenLookup

namespace Arbor

namespace TokenIndex

variable {index : TokenIndex}

theorem startsBefore_le_size (h : Lined index.toList) (pos : Nat) : index.startsBefore pos ≤ index.toList.length := by
  have hpoint : index.startsBefore pos = (index.toList.filter fun t => t.span.start < pos).length :=
    partitionPoint_eq (startsBefore_split h pos)
  rw [hpoint]
  exact List.length_filter_le _ _

/-- the place after a position, or the end of the list, is the number of tokens that start before it -/
theorem placeAfter?_getD (h : Lined index.toList) (pos : Nat) :
    (index.placeAfter? pos).getD index.size = index.startsBefore pos := by
  have hle := startsBefore_le_size h pos
  have hsize : index.size = index.toList.length := by simp [size, toList]
  simp only [placeAfter?]
  split_ifs with hlt
  · rfl
  · rw [Option.getD_none]
    omega

/-- **Three parts.** The tokens within a span stand together, right behind those that start before it. -/
theorem toList_eq_parts (index : TokenIndex) (range : Span) :
    ∃ back, index.toList = index.toList.take (index.startsBefore range.start) ++ index.within range ++ back := by
  set later := index.tokens.extract (index.startsBefore range.start) index.size with hlater
  have hafter : later.toList = index.after range.start := index.toList_extract range.start
  refine ⟨later.toList.drop (partitionPoint later fun t => range.contains t.span), ?_⟩
  calc index.toList
      = index.toList.take (index.startsBefore range.start) ++ index.after range.start := (List.take_append_drop _ _).symm
    _ = index.toList.take (index.startsBefore range.start) ++ (index.within range ++
          later.toList.drop (partitionPoint later fun t => range.contains t.span)) := by
        rw [within, ← hlater, List.take_append_drop, hafter]
    _ = _ := (List.append_assoc _ _ _).symm

end TokenIndex

namespace Command

/-! ## Lines -/

/-- the lines of tokens that stand from a place on -/
def linesFrom (index : TokenIndex) (p : Palette) (place : Nat) (tokens : List Token) : List String :=
  (tokens.zipIdx place).map fun (t, i) => tokenLine index p i t

section Lines

variable (index : TokenIndex) (p : Palette)

theorem linesFrom_append (place : Nat) (xs ys : List Token) :
    linesFrom index p place (xs ++ ys) = linesFrom index p place xs ++ linesFrom index p (place + xs.length) ys := by
  rw [linesFrom, List.zipIdx_append, List.map_append]
  rfl

theorem length_linesFrom (place : Nat) (tokens : List Token) :
    (linesFrom index p place tokens).length = tokens.length := by
  simp [linesFrom]

theorem getElem?_linesFrom (place : Nat) {tokens : List Token} {i : Nat} {t : Token} (ht : tokens[i]? = some t) :
    (linesFrom index p place tokens)[i]? = some (tokenLine index p (place + i) t) := by
  simp [linesFrom, List.getElem?_zipIdx, ht]

/-- a listing gives its tokens the places from that of the first one on -/
theorem tokenLines_eq (range : Option Span) :
    tokenLines index range p = linesFrom index p (selectTokens index range).1 (selectTokens index range).2 := by
  rw [tokenLines, linesFrom, List.zipIdx_eq_map_add, List.map_map]
  rfl

end Lines

/-- **What is selected.** The selected tokens are those within the range, and the place of the first is the number of tokens
that start before it. -/
theorem selectTokens_eq {index : TokenIndex} (h : Lined index.toList) {range : Span} (hrange : range.Ordered) :
    selectTokens index (some range) = (index.startsBefore range.start, index.within range) := by
  have hspan : Span.of range.start range.stop = range := by
    rw [Span.of, if_neg (Nat.not_lt.2 hrange)]
  rw [selectTokens, TokenIndex.placeAfter?_getD h, TokenIndex.inRange, hspan]

/-! ## Main result -/

/-- **A listing of a range is a window of the whole listing.** For every input whose tokens are lined once they are put in order
of the starts, where equal starts keep their order, and every range whose bounds are in order, the tokens within the range
stand together between others, and what a command prints with the range is this middle part of what it prints without it, line
for line, each line with a line feed after it. Each line is that of its token under its place in the whole list; so the place
that is printed with the `i`-th token of the range, counted on from that of the first, is its place in the whole list. -/
theorem range_listing_window (input : Input) (sorted : List Token) (hsorted : InStartOrder input.document.tokens sorted)
    (hlined : Lined sorted) (range : Span) (hrange : range.Ordered) (p : Palette) :
    let index := TokenIndex.ofList input.document.tokens
    let selected := sorted.filter fun t => range.contains t.span
    ∃ (front back : List Token) (above block below : List String),
      sorted = front ++ selected ++ back ∧
      (Action.tokens none p).print input = .ok (String.join ((above ++ block ++ below).map fun line => line ++ "\n")) ∧
      (Action.tokens (some range) p).print input = .ok (String.join (block.map fun line => line ++ "\n")) ∧
      above.length = front.length ∧ block.length = selected.length ∧ below.length = back.length ∧
      (∀ i t, sorted[i]? = some t → (above ++ block ++ below)[i]? = some (tokenLine index p i t)) ∧
      selectTokens index (some range) = (front.length, selected) ∧
      ∀ i t, selected[i]? = some t → sorted[front.length + i]? = some t ∧
        block[i]? = some (tokenLine index p (front.length + i) t) := by
  intro index selected
  have hlist : index.toList = sorted := TokenIndex.toList_ofList hsorted
  rw [← hlist] at hlined
  have hwithin : index.within range = selected := by
    rw [TokenIndex.within_eq hlined, hlist]
  obtain ⟨back, hparts⟩ := index.toList_eq_parts range
  set front := index.toList.take (index.startsBefore range.start) with hfront
  have hlength : index.startsBefore range.start = front.length := by
    rw [hfront, List.length_take, Nat.min_eq_left (TokenIndex.startsBefore_le_size hlined _)]
  have hselect : selectTokens index (some range) = (front.length, selected) := by
    rw [selectTokens_eq hlined hrange, hwithin, hlength]
  rw [hwithin, hlist] at hparts
  have hwhole : tokenLines index none p = linesFrom index p 0 sorted := by
    rw [tokenLines_eq, selectTokens, hlist]
  have hblock : tokenLines index (some range) p = linesFrom index p front.length selected := by
    rw [tokenLines_eq, hselect]
  have hjoined : linesFrom index p 0 sorted = linesFrom index p 0 front ++ linesFrom index p front.length selected ++
      linesFrom index p (front ++ selected).length back := by
    rw [hparts, linesFrom_append, linesFrom_append, Nat.zero_add, Nat.zero_add]
  refine ⟨front, back, linesFrom index p 0 front, linesFrom index p front.length selected,
    linesFrom index p (front ++ selected).length back, hparts, ?_, ?_, length_linesFrom _ _ _ _, length_linesFrom _ _ _ _,
    length_linesFrom _ _ _ _, fun i t ht => ?_, hselect, fun i t ht => ⟨?_, getElem?_linesFrom _ _ _ ht⟩⟩
  · rw [← hjoined, ← hwhole]
    rfl
  · rw [← hblock]
    rfl
  · rw [← hjoined, getElem?_linesFrom _ _ _ ht, Nat.zero_add]
  · have hi : i < selected.length := (List.getElem?_eq_some_iff.1 ht).1
    rw [hparts, List.append_assoc, List.getElem?_append_right (Nat.le_add_right _ _), Nat.add_sub_cancel_left,
      List.getElem?_append_left hi, ht]

/-- an input that has tokens out of order, some of which touch, and nothing else -/
def touchingInput : Input := ⟨⟨Builder.empty.finishEmpty, [], TokenIndex.touchingTokens⟩, Estree.schema⟩

/-- The range from 3 to 5 holds the second to the fourth of the tokens, an empty one at each of its ends; the gap that is shown
after the first of them is that before the next token of the whole list. -/
theorem range_listing_window_touching :
    let sorted : List Token :=
      [⟨.identifier, ⟨0, 3⟩, "abc"⟩, ⟨.template, ⟨3, 3⟩, ""⟩, ⟨.punctuator, ⟨4, 5⟩, "+"⟩, ⟨.template, ⟨5, 5⟩, ""⟩,
        ⟨.identifier, ⟨5, 8⟩, "def"⟩]
    let shown := "   1  Template           \"\"  [3..3] +1\n" ++ "   2  Punctuator         \"+\"  [4..5]  (binary, unary)\n" ++
      "   3  Template           \"\"  [5..5]\n"
    InStartOrder touchingInput.document.tokens sorted ∧ Lined sorted ∧ Span.Ordered ⟨3, 5⟩ ∧
    (Action.tokens none .plain).print touchingInput =
      .ok ("   0  Identifier         \"abc\"  [0..3]\n" ++ shown ++ "   4  Identifier         \"def\"  [5..8]\n") ∧
    (Action.tokens (some ⟨3, 5⟩) .plain).print touchingInput = .ok shown := by
  intro sorted shown
  have hsame : byStart TokenIndex.touchingTokens = sorted := by cbv
  have hsorted : InStartOrder touchingInput.document.tokens sorted :=
    hsame ▸ byStart_inStartOrder TokenIndex.touchingTokens
  have hlined : Lined sorted := ⟨by decide, by decide⟩
  have hrange : Span.Ordered ⟨3, 5⟩ := by decide
  have hindex : TokenIndex.ofList touchingInput.document.tokens = ⟨sorted.toArray⟩ := by
    rw [← hsame]
    rfl
  obtain ⟨front, back, above, block, below, hparts, hwhole, hblock, habove, hlength, hbelow, hall, hselect, -⟩ :=
    range_listing_window touchingInput sorted hsorted hlined ⟨3, 5⟩ hrange .plain
  have hfront : front.length = 1 := by
    have hplace : (selectTokens (.ofList TokenIndex.touchingTokens) (some ⟨3, 5⟩)).1 = 1 := by cbv
    exact (congrArg Prod.fst hselect).symm.trans hplace
  have hselected : (sorted.filter fun t => Span.contains ⟨3, 5⟩ t.span).length = 3 := by decide
  have hback : back.length = 1 := by
    have hcount : 5 = _ := congrArg List.length hparts
    rw [List.length_append, List.length_append, hfront, hselected] at hcount
    omega
  -- as many lines as tokens, and each of them is that of its token
  rw [hindex] at hall
  obtain ⟨first, rfl⟩ := List.length_eq_one_iff.1 (habove.trans hfront)
  obtain ⟨second, third, fourth, rfl⟩ := List.length_eq_three.1 (hlength.trans hselected)
  obtain ⟨fifth, rfl⟩ := List.length_eq_one_iff.1 (hbelow.trans hback)
  have hfirst : first = "   0  Identifier         \"abc\"  [0..3]" :=
    (Option.some.inj (hall 0 ⟨.identifier, ⟨0, 3⟩, "abc"⟩ rfl)).trans (by decide +kernel)
  have hsecond : second = "   1  Template           \"\"  [3..3] +1" :=
    (Option.some.inj (hall 1 ⟨.template, ⟨3, 3⟩, ""⟩ rfl)).trans (by decide +kernel)
  have hthird : third = "   2  Punctuator         \"+\"  [4..5]  (binary, unary)" :=
    (Option.some.inj (hall 2 ⟨.punctuator, ⟨4, 5⟩, "+"⟩ rfl)).trans (by decide +kernel)
  have hfourth : fourth = "   3  Template           \"\"  [5..5]" :=
    (Option.some.inj (hall 3 ⟨.template, ⟨5, 5⟩, ""⟩ rfl)).trans (by decide +kernel)
  have hfifth : fifth = "   4  Identifier         \"def\"  [5..8]" :=
    (Option.some.inj (hall 4 ⟨.identifier, ⟨5, 8⟩, "def"⟩ rfl)).trans (by decide +kernel)
  subst hfirst hsecond hthird hfourth hfifth
  exact ⟨hsorted, hlined, hrange, hwhole, hblock⟩

end Command

end Arbor
