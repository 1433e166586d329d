/-
Which range an object has. Two spellings are known, a pair of numbers under `start` and `end` and a pair under `range`. Each
of the three properties may be missing or be no offset, on its own. `Gives` says what an object should have by this: the
range of a usable `start` and `end`, or else that of a usable `range`.

The keys alone decide which of the two is read, though, and not whether they can be used. Where both `start` and `end` are
there and one of them is no offset (`Shadowed`), the `range` is not looked at.

- `spanOf?_eq_some_iff`: an object has the range that it should have, unless it is shadowed.
- `usable_range_refused_iff_shadowed`: so this is what is read exactly for the objects that do not hide a usable `range`, and
  nodes, comments and tokens are refused for their range exactly if they have none that is usable, or are shadowed.
-/
import Arbor.Proofs.Problems

namespace Arbor

open Json (Value member?)

namespace Load

/-! ## Usable ranges -/

/-- the value is the offset `n`: a whole number from 0 to 2^32 - 1 -/
def IsOffset (v : Value) (n : Nat) : Prop := v = .nat n ∧ n < 0x100000000

/-- both `start` and `end` are there, with these offsets -/
def StartEnd (members : List (String × Value)) (start stop : Nat) : Prop :=
  ∃ v w, member? members "start" = some v ∧ member? members "end" = some w ∧ IsOffset v start ∧ IsOffset w stop

/-- under `range` there are two offsets, these ones -/
def RangePair (members : List (String × Value)) (start stop : Nat) : Prop :=
  ∃ v w, member? members "range" = some (.array [v, w]) ∧ IsOffset v start ∧ IsOffset w stop

/-- the range that an object should have: that of `start` and `end` if they are usable, else that of a usable `range` -/
inductive Gives (members : List (String × Value)) : Span → Prop
  | startEnd {start stop : Nat} : StartEnd members start stop → Gives members (Span.of start stop)
  | range {start stop : Nat} : (¬ ∃ s e, StartEnd members s e) → RangePair members start stop →
      Gives members (Span.of start stop)

/-- the object has a range in one of the two spellings -/
def Usable (members : List (String × Value)) : Prop :=
  (∃ start stop, StartEnd members start stop) ∨ ∃ start stop, RangePair members start stop

/-- both `start` and `end` are there, but they are not both offsets -/
def Shadowed (members : List (String × Value)) : Prop :=
  (∃ v w, member? members "start" = some v ∧ member? members "end" = some w) ∧ ¬ ∃ start stop, StartEnd members start stop

theorem usable_iff_gives {members : List (String × Value)} : Usable members ↔ ∃ span, Gives members span := by
  constructor
  · rintro h
    by_cases hends : ∃ start stop, StartEnd members start stop
    · obtain ⟨start, stop, hends⟩ := hends
      exact ⟨_, .startEnd hends⟩
    · obtain ⟨start, stop, hpair⟩ := h.resolve_left hends
      exact ⟨_, .range hends hpair⟩
  · rintro ⟨_, @⟨start, stop, hends⟩ | @⟨start, stop, -, hpair⟩⟩
    · exact .inl ⟨start, stop, hends⟩
    · exact .inr ⟨start, stop, hpair⟩

/-! ## What is read -/

theorem offset?_eq_some_iff {v : Value} {n : Nat} : offset? v = some n ↔ IsOffset v n := by
  rw [position?_eq, IsOffset]
  cases v with
  | number number =>
    cases number with
    | integer i =>
      simp only [Shape.position?, Value.nat, Value.number.injEq, Json.Number.integer.injEq]
      split_ifs with hbounds
      · rw [Option.some.injEq]
        omega
      · simp only [false_iff]
        omega
    | double x => simp [Shape.position?, Value.nat]
  | _ => simp [Shape.position?, Value.nat]

theorem spanBetween?_eq_some_iff {v w : Value} {span : Span} :
    spanBetween? v w = some span ↔ ∃ start stop, IsOffset v start ∧ IsOffset w stop ∧ Span.of start stop = span := by
  simp only [spanBetween?, ← offset?_eq_some_iff, bind, Option.bind_eq_some_iff, pure, Option.some.injEq]
  constructor
  · rintro ⟨start, hstart, stop, hstop, hspan⟩
    exact ⟨start, stop, hstart, hstop, hspan⟩
  · rintro ⟨start, stop, hstart, hstop, hspan⟩
    exact ⟨start, hstart, stop, hstop, hspan⟩

/-- where both keys are there, only they are read -/
theorem spanOf?_of_keys {members : List (String × Value)} {v w : Value} (hstart : member? members "start" = some v)
    (hend : member? members "end" = some w) {span : Span} :
    spanOf? members = some span ↔ ∃ start stop, StartEnd members start stop ∧ Span.of start stop = span := by
  simp only [spanOf?, hstart, hend, spanBetween?_eq_some_iff, StartEnd, Option.some.injEq]
  constructor
  · rintro ⟨start, stop, hv, hw, hspan⟩
    exact ⟨start, stop, ⟨v, w, rfl, rfl, hv, hw⟩, hspan⟩
  · rintro ⟨start, stop, ⟨_, _, rfl, rfl, hv, hw⟩, hspan⟩
    exact ⟨start, stop, hv, hw, hspan⟩

/-- where one of the keys is missing, the pair under `range` is read -/
theorem spanOf?_of_missing {members : List (String × Value)}
    (h : ¬ ∃ v w, member? members "start" = some v ∧ member? members "end" = some w) {span : Span} :
    spanOf? members = some span ↔ ∃ start stop, RangePair members start stop ∧ Span.of start stop = span := by
  unfold spanOf?
  split
  · rename_i v w hstart hend
    exact absurd ⟨v, w, hstart, hend⟩ h
  split
  · rename_i v w hrange
    simp only [spanBetween?_eq_some_iff, RangePair, hrange, Option.some.injEq, Value.array.injEq, List.cons.injEq, and_true]
    constructor
    · rintro ⟨start, stop, hv, hw, hspan⟩
      exact ⟨start, stop, ⟨v, w, ⟨rfl, rfl⟩, hv, hw⟩, hspan⟩
    · rintro ⟨start, stop, ⟨_, _, ⟨rfl, rfl⟩, hv, hw⟩, hspan⟩
      exact ⟨start, stop, hv, hw, hspan⟩
  · rename_i hnone
    simp only [reduceCtorEq, false_iff]
    rintro ⟨start, stop, ⟨v, w, hrange, -, -⟩, -⟩
    exact hnone v w hrange

/-- **What is read is what an object should have, unless it is shadowed.** -/
theorem spanOf?_eq_some_iff {members : List (String × Value)} {span : Span} :
    spanOf? members = some span ↔ Gives members span ∧ ¬ Shadowed members := by
  by_cases hkeys : ∃ v w, member? members "start" = some v ∧ member? members "end" = some w
  · obtain ⟨v, w, hstart, hend⟩ := id hkeys
    rw [spanOf?_of_keys hstart hend]
    constructor
    · rintro ⟨start, stop, hends, rfl⟩
      exact ⟨.startEnd hends, fun hshadow => hshadow.2 ⟨start, stop, hends⟩⟩
    · rintro ⟨@⟨start, stop, hends⟩ | @⟨start, stop, hnone, -⟩, hshadow⟩
      · exact ⟨start, stop, hends, rfl⟩
      · exact absurd ⟨hkeys, hnone⟩ hshadow
  · have hnone : ¬ ∃ start stop, StartEnd members start stop := by
      rintro ⟨-, -, v, w, hstart, hend, -⟩
      exact hkeys ⟨v, w, hstart, hend⟩
    rw [spanOf?_of_missing hkeys]
    constructor
    · rintro ⟨start, stop, hpair, rfl⟩
      exact ⟨.range hnone hpair, fun hshadow => hkeys hshadow.1⟩
    · rintro ⟨@⟨start, stop, hends⟩ | @⟨start, stop, -, hpair⟩, -⟩
      · exact absurd ⟨start, stop, hends⟩ hnone
      · exact ⟨start, stop, hpair, rfl⟩

theorem spanOf?_eq_none_iff {members : List (String × Value)} :
    spanOf? members = none ↔ ¬ Usable members ∨ Shadowed members := by
  rw [Option.eq_none_iff_forall_ne_some, usable_iff_gives]
  simp only [ne_eq, spanOf?_eq_some_iff]
  by_cases hshadow : Shadowed members <;> simp [hshadow]

/-! ## Who is refused -/

/-- a node is refused for its own range exactly if nothing is read -/
theorem node_invalidSpan_iff {schema : Schema} {path : List PathStep} {members : List (String × Value)} {b : Builder}
    {kind : String} :
    node schema path (.object members) b = .error (.invalidSpan kind path) ↔
      member? members "type" = some (.string kind) ∧ spanOf? members = none := by
  rw [← failure?_eq_some_iff, node_first schema _ path b, span?_eq]
  constructor
  · intro hfirst
    -- the reported path is that of the object, so the problem is its own and not one of a child
    obtain ⟨steps, members', hpath, hfollow, hkind, hspan⟩ :=
      Problems.ofNode_locates schema _ path _ (List.mem_of_head? hfirst)
    have hsteps : steps = [] := by simpa using hpath
    subst hsteps
    cases Option.some.inj hfollow
    exact ⟨hkind, hspan⟩
  · rintro ⟨hkind, hspan⟩
    rw [Problems.ofNode, hkind]
    simp [hspan]

/-- an item of a list is refused for its range exactly if its type is known and nothing is read -/
theorem ofListed?_missingSpan_iff {list : ListName} {members : List (String × Value)} :
    Problems.ofListed? list (.object members) = some .missingSpan ↔
      (∃ tag, member? members "type" = some (.string tag) ∧ list.knows tag = true) ∧ spanOf? members = none := by
  rw [span?_eq, Problems.ofListed?]
  split
  · rename_i tag htag
    cases hknown : list.knows tag <;> by_cases hspan : Shape.span? members = none <;> simp [htag, hknown, hspan]
  · rename_i hnone
    have htype : ¬ ∃ tag, member? members "type" = some (.string tag) ∧ list.knows tag = true := by
      rintro ⟨tag, htag, -⟩
      exact hnone tag htag
    simp [htype]

/-! ## Main result -/

/-- **A usable range is refused exactly where it is shadowed.** For every object:
- it has the range that it should have, `start` and `end` before `range`, unless `start` and `end` are there and not usable;
- so what is read is what the object should have exactly if it does not hide a usable `range` in this way;
- a node of any kind, at any path and into any arena, is refused for its range exactly if it has none that is usable or it is
  shadowed; so is a comment and so is a token whose type is known. -/
theorem usable_range_refused_iff_shadowed (members : List (String × Value)) :
    (∀ span, spanOf? members = some span ↔ Gives members span ∧ ¬ Shadowed members) ∧
    ((∀ span, spanOf? members = some span ↔ Gives members span) ↔
      ¬ (Shadowed members ∧ ∃ start stop, RangePair members start stop)) ∧
    (∀ schema path b kind, node schema path (.object members) b = .error (.invalidSpan kind path) ↔
      member? members "type" = some (.string kind) ∧ (¬ Usable members ∨ Shadowed members)) ∧
    (comment (.object members) = .error .missingSpan ↔
      (∃ tag, member? members "type" = some (.string tag) ∧ ListName.comments.knows tag = true) ∧
        (¬ Usable members ∨ Shadowed members)) ∧
    (token (.object members) = .error .missingSpan ↔
      (∃ tag, member? members "type" = some (.string tag) ∧ ListName.tokens.knows tag = true) ∧
        (¬ Usable members ∨ Shadowed members)) := by
  refine ⟨fun span => spanOf?_eq_some_iff, ⟨?_, fun hopen span => ?_⟩, fun schema path b kind => ?_, ?_, ?_⟩
  · rintro hall ⟨hshadow, start, stop, hpair⟩
    exact (spanOf?_eq_some_iff.1 ((hall _).2 (.range hshadow.2 hpair))).2 hshadow
  · rw [spanOf?_eq_some_iff, and_iff_left_iff_imp]
    rintro (@⟨start, stop, hends⟩ | @⟨start, stop, -, hpair⟩) hshadow
    · exact hshadow.2 ⟨start, stop, hends⟩
    · exact hopen ⟨hshadow, start, stop, hpair⟩
  · rw [node_invalidSpan_iff, spanOf?_eq_none_iff]
  · rw [← failure?_eq_some_iff, comment_first, ofListed?_missingSpan_iff, spanOf?_eq_none_iff]
  · rw [← failure?_eq_some_iff, token_first, ofListed?_missingSpan_iff, spanOf?_eq_none_iff]

/-- a statement whose `start` and `end` are `null`, with a usable `range` -/
def shadowedMembers : List (String × Value) :=
  [("end", .null), ("range", .array [.nat 0, .nat 3]), ("start", .null), ("type", .string "EmptyStatement")]

/-- The statement should have the range from 0 to 3, and it is refused for its range. -/
theorem usable_range_refused :
    Usable shadowedMembers ∧ Gives shadowedMembers ⟨0, 3⟩ ∧ spanOf? shadowedMembers = none ∧
      ∀ schema, failure? (Tree.ofValue schema (.object shadowedMembers)) = some (.invalidSpan "EmptyStatement" []) := by
  have hpair : RangePair shadowedMembers 0 3 := ⟨.nat 0, .nat 3, rfl, ⟨rfl, by decide⟩, ⟨rfl, by decide⟩⟩
  have hnone : ¬ ∃ start stop, StartEnd shadowedMembers start stop := by
    rintro ⟨start, stop, v, w, hstart, -, hv, -⟩
    cases Option.some.inj hstart
    cases hv.1
  refine ⟨.inr ⟨0, 3, hpair⟩, .range hnone hpair, rfl, fun schema => ?_⟩
  rw [Tree.ofValue_first, Problems.ofNode]
  rfl

end Load

end Arbor
