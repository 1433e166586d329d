/-
The laws of the interval relations. Spans are half-open: they overlap when each starts before the other one ends, and one
comes before another when it ends by the start of the other. An empty span has a place but no position of its own. At the
edge of another span it lies before or after it; strictly inside it overlaps it, although the two share no position; and
two empty spans at one place stand in no relation but equality.

- `one_relation`: two spans whose bounds are in order stand in exactly one of four relations.
- `before_trans`: going before is a strict order.
- Containment makes the spans a semilattice whose join is the cover.
- `overlaps_mono`, `overlaps_iff_shared`: what overlaps still does when both grow, and for spans that have positions,
  overlapping is sharing one.
- `interval_laws`: all of this, and that no constructor makes a reversed span.
-/
import Mathlib.Order.Lattice
import Arbor.Span

namespace Arbor

namespace Span

variable {a b c d : Span}

/-! ## Containment and cover -/

theorem contains_iff {a b : Span} : a.contains b = true ↔ a.start ≤ b.start ∧ b.stop ≤ a.stop := by
  simp [contains]

theorem contains_refl (a : Span) : a.contains a = true := contains_iff.2 ⟨Nat.le_refl _, Nat.le_refl _⟩

theorem contains_trans {a b c : Span} (hab : a.contains b = true) (hbc : b.contains c = true) :
    a.contains c = true := by
  rw [contains_iff] at hab hbc ⊢
  exact ⟨Nat.le_trans hab.1 hbc.1, Nat.le_trans hbc.2 hab.2⟩

theorem contains_antisymm (hab : a.contains b = true) (hba : b.contains a = true) : a = b := by
  rw [contains_iff] at hab hba
  have hstart : a.start = b.start := Nat.le_antisymm hab.1 hba.1
  have hstop : a.stop = b.stop := Nat.le_antisymm hba.2 hab.2
  cases a; cases b
  exact congrArg₂ Span.mk hstart hstop

theorem contains_cover_left (a b : Span) : (a.cover b).contains a = true :=
  contains_iff.2 ⟨Nat.min_le_left _ _, Nat.le_max_left _ _⟩

theorem contains_cover_right (a b : Span) : (a.cover b).contains b = true :=
  contains_iff.2 ⟨Nat.min_le_right _ _, Nat.le_max_right _ _⟩

/-- a span around both is around their cover -/
theorem contains_cover (hca : c.contains a = true) (hcb : c.contains b = true) : c.contains (a.cover b) = true := by
  rw [contains_iff] at hca hcb ⊢
  exact ⟨Nat.le_min.2 ⟨hca.1, hcb.1⟩, Nat.max_le.2 ⟨hca.2, hcb.2⟩⟩

/-- spans by containment, the one around the other being the larger; the join of two is their cover -/
instance : SemilatticeSup Span where
  le a b := b.contains a = true
  le_refl := contains_refl
  le_trans _ _ _ hab hbc := contains_trans hbc hab
  le_antisymm _ _ hab hba := contains_antisymm hba hab
  sup := cover
  le_sup_left := contains_cover_left
  le_sup_right := contains_cover_right
  sup_le _ _ _ := contains_cover

theorem cover_comm (a b : Span) : a.cover b = b.cover a := sup_comm a b

theorem cover_assoc (a b c : Span) : (a.cover b).cover c = a.cover (b.cover c) := sup_assoc a b c

theorem cover_self (a : Span) : a.cover a = a := sup_idem a

/-! ## Overlap -/

theorem overlaps_iff : a.overlaps b = true ↔ a.start < b.stop ∧ b.start < a.stop := by
  simp [overlaps]

theorem overlaps_eq_false_iff {a b : Span} : a.overlaps b = false ↔ b.stop ≤ a.start ∨ a.stop ≤ b.start := by
  by_cases h : b.stop ≤ a.start
  · simp [overlaps, h, Nat.not_lt.2 h]
  · simp [overlaps, h, Nat.lt_of_not_le h]

theorem overlaps_comm (a b : Span) : a.overlaps b = b.overlaps a := Bool.and_comm _ _

/-- spans around spans that overlap overlap -/
theorem overlaps_mono (hca : c.contains a = true) (hdb : d.contains b = true) (h : a.overlaps b = true) :
    c.overlaps d = true := by
  rw [contains_iff] at hca hdb
  rw [overlaps_iff] at h ⊢
  exact ⟨by omega, by omega⟩

/-- what lies in spans that do not overlap does not overlap -/
theorem overlaps_eq_false_of_contains {a b c d : Span} (h : a.overlaps b = false) (hac : a.contains c = true)
    (hbd : b.contains d = true) : c.overlaps d = false := by
  rw [overlaps_eq_false_iff] at h ⊢
  rw [contains_iff] at hac hbd
  omega

/-! ## Positions -/

theorem covers_iff {a : Span} {pos : Nat} : a.covers pos = true ↔ a.start ≤ pos ∧ pos < a.stop := by
  simp [covers]

theorem covers_of_contains {a b : Span} {pos : Nat} (h : a.contains b = true) (hb : b.covers pos = true) :
    a.covers pos = true := by
  rw [contains_iff] at h
  rw [covers_iff] at hb ⊢
  omega

/-- spans that share a position overlap -/
theorem overlaps_of_covers {a b : Span} {pos : Nat} (ha : a.covers pos = true) (hb : b.covers pos = true) :
    a.overlaps b = true := by
  rw [covers_iff] at ha hb
  rw [overlaps_iff]
  omega

/-- spans with positions of their own overlap just when they share one -/
theorem overlaps_iff_shared (ha : a.start < a.stop) (hb : b.start < b.stop) :
    a.overlaps b = true ↔ ∃ pos, a.covers pos = true ∧ b.covers pos = true := by
  constructor
  · intro h
    rw [overlaps_iff] at h
    -- the later one of the two starts
    refine ⟨max a.start b.start, ?_, ?_⟩
    · exact covers_iff.2 ⟨Nat.le_max_left _ _, Nat.max_lt.2 ⟨ha, h.2⟩⟩
    · exact covers_iff.2 ⟨Nat.le_max_right _ _, Nat.max_lt.2 ⟨h.1, hb⟩⟩
  · rintro ⟨pos, hpa, hpb⟩
    exact overlaps_of_covers hpa hpb

/-! ## Before and after -/

theorem before_iff : a.before b = true ↔ a.stop ≤ b.start ∧ a.start < b.stop := by
  simp [before]

theorem before_irrefl (a : Span) : a.before a = false := by
  rw [Bool.eq_false_iff, Ne, before_iff]
  omega

theorem before_trans (hb : b.Ordered) (hc : c.Ordered) (hab : a.before b = true) (hbc : b.before c = true) :
    a.before c = true := by
  rw [before_iff] at hab hbc ⊢
  unfold Ordered at hb hc
  exact ⟨by omega, by omega⟩

/-- a span before another one is not after it, does not overlap it and is another one -/
theorem before_excludes (h : a.before b = true) : a.after b = false ∧ a.overlaps b = false ∧ a ≠ b := by
  have hbounds := before_iff.1 h
  refine ⟨?_, overlaps_eq_false_iff.2 (.inr hbounds.1), ?_⟩
  · rw [after, Bool.eq_false_iff, Ne, before_iff]
    omega
  · rintro rfl
    exact absurd h (Bool.eq_false_iff.1 (before_irrefl a))

/-- spans that do not overlap are in order, or they are one empty span -/
theorem apart_cases (ha : a.Ordered) (hb : b.Ordered) (h : a.overlaps b = false) :
    a.before b = true ∨ a.after b = true ∨ a = b ∧ a.isEmpty = true := by
  obtain ⟨start, stop⟩ := a
  obtain ⟨start', stop'⟩ := b
  simp only [after, before_iff, overlaps_eq_false_iff, isEmpty, beq_iff_eq, Span.mk.injEq, Ordered] at *
  omega

/-- an empty span does not overlap itself -/
theorem overlaps_self_of_isEmpty (h : a.isEmpty = true) : a.overlaps a = false := by
  rw [isEmpty, beq_iff_eq] at h
  exact overlaps_eq_false_iff.2 (.inl (Nat.le_of_eq h.symm))

/-- **Two spans stand in exactly one relation.** Before, after, overlapping, or one and the same empty span. -/
theorem one_relation (ha : a.Ordered) (hb : b.Ordered) :
    [a.before b, a.after b, a.overlaps b, decide (a = b ∧ a.isEmpty = true)].count true = 1 := by
  cases hoverlaps : a.overlaps b with
  | true =>
    have hbefore : a.before b = false := Bool.eq_false_iff.2 fun h => by simp [(before_excludes h).2.1] at hoverlaps
    have hafter : a.after b = false :=
      Bool.eq_false_iff.2 fun h => by simp [overlaps_comm a b, (before_excludes h).2.1] at hoverlaps
    have hsame : ¬(a = b ∧ a.isEmpty = true) := by
      rintro ⟨rfl, hempty⟩
      simp [overlaps_self_of_isEmpty hempty] at hoverlaps
    simp [hbefore, hafter, hsame]
  | false =>
    rcases apart_cases ha hb hoverlaps with h | h | ⟨rfl, hempty⟩
    · have hother := before_excludes h
      simp [h, hother.1, hother.2.2]
    · have hother := before_excludes h
      have hbefore : a.before b = false := hother.1
      simp [h, hbefore, hother.2.2.symm]
    · simp [after, before_irrefl, hempty]

/-! ## Bounds in order -/

theorem ordered_of (start stop : Nat) : (of start stop).Ordered := by
  unfold of Ordered
  split
  · exact Nat.le_refl _
  · exact Nat.le_of_not_lt ‹_›

theorem ordered_empty (pos : Nat) : (empty pos).Ordered := Nat.le_refl pos

theorem ordered_cover (ha : a.Ordered) (b : Span) : (a.cover b).Ordered :=
  calc min a.start b.start
    _ ≤ a.start := Nat.min_le_left _ _
    _ ≤ a.stop := ha
    _ ≤ max a.stop b.stop := Nat.le_max_left _ _

/-- the length is the distance of the bounds, and there is one just when they are in order -/
theorem length_eq_ok_iff {n : Nat} : a.length = .ok n ↔ a.start + n = a.stop := by
  unfold length
  split
  · simp only [reduceCtorEq, false_iff]
    omega
  · simp only [Except.ok.injEq]
    omega

theorem exists_length (ha : a.Ordered) : ∃ n, a.length = .ok n ∧ a.start + n = a.stop := by
  obtain ⟨n, hn⟩ := Nat.exists_eq_add_of_le ha
  exact ⟨n, length_eq_ok_iff.2 hn.symm, hn.symm⟩

/-! ## Main result -/

/-- **The interval relations form one algebra.** For spans whose bounds are in order:
- exactly one of before, after, overlapping and being the same empty span holds between two of them;
- before is irreflexive and transitive;
- containment is reflexive, antisymmetric and transitive, and the cover of two is the least span around both; so covering is
  commutative, associative and idempotent;
- overlapping is symmetric, and it stays when each of the two gives way to a span around it; between spans that are not empty
  it means that some position is in both;
- spans made of two bounds in any order, empty spans and covers have their bounds in order, so that each has a length. -/
theorem interval_laws {a b c : Span} (ha : a.Ordered) (hb : b.Ordered) (hc : c.Ordered) :
    [a.before b, a.after b, a.overlaps b, decide (a = b ∧ a.isEmpty = true)].count true = 1 ∧
    a.before a = false ∧ (a.before b = true → b.before c = true → a.before c = true) ∧
    a.contains a = true ∧ (a.contains b = true → b.contains a = true → a = b) ∧
    (a.contains b = true → b.contains c = true → a.contains c = true) ∧
    (a.cover b).contains a = true ∧ (a.cover b).contains b = true ∧
    (c.contains a = true → c.contains b = true → c.contains (a.cover b) = true) ∧
    a.cover b = b.cover a ∧ (a.cover b).cover c = a.cover (b.cover c) ∧ a.cover a = a ∧
    a.overlaps b = b.overlaps a ∧
    (∀ d : Span, c.contains a = true → d.contains b = true → a.overlaps b = true → c.overlaps d = true) ∧
    (a.isEmpty = false → b.isEmpty = false →
      (a.overlaps b = true ↔ ∃ pos, a.covers pos = true ∧ b.covers pos = true)) ∧
    ∀ made : Span, (∃ start stop, made = of start stop) ∨ (∃ pos, made = empty pos) ∨ made = a.cover b →
      made.Ordered ∧ ∃ n, made.length = .ok n ∧ made.start + n = made.stop := by
  have hwide : ∀ {s : Span}, s.Ordered → s.isEmpty = false → s.start < s.stop := fun hs hempty =>
    Nat.lt_of_le_of_ne hs (beq_eq_false_iff_ne.1 hempty)
  refine ⟨one_relation ha hb, before_irrefl a, before_trans hb hc, contains_refl a, contains_antisymm, contains_trans,
    contains_cover_left a b, contains_cover_right a b, contains_cover, cover_comm a b, cover_assoc a b c, cover_self a,
    overlaps_comm a b, fun d => overlaps_mono, fun hea heb => overlaps_iff_shared (hwide ha hea) (hwide hb heb),
    fun made hmade => ?_⟩
  have hordered : made.Ordered := by
    rcases hmade with ⟨start, stop, rfl⟩ | ⟨pos, rfl⟩ | rfl
    · exact ordered_of start stop
    · exact ordered_empty pos
    · exact ordered_cover ha b
  exact ⟨hordered, exists_length hordered⟩

/-- an empty span strictly inside another one and one at its end: the first overlaps it without a common position, the second
comes after it -/
theorem interval_laws_degenerate :
    let wide : Span := ⟨2, 5⟩
    let inner : Span := ⟨3, 3⟩
    let edge : Span := ⟨5, 5⟩
    (wide.Ordered ∧ inner.Ordered ∧ edge.Ordered) ∧
    [wide.before inner, wide.after inner, wide.overlaps inner, decide (wide = inner ∧ wide.isEmpty = true)].count true = 1 ∧
    wide.overlaps inner = true ∧ (∀ pos, inner.covers pos = false) ∧
    [wide.before edge, wide.after edge, wide.overlaps edge, decide (wide = edge ∧ wide.isEmpty = true)].count true = 1 ∧
    wide.before edge = true ∧ (inner.cover edge).length = .ok 2 := by
  intro wide inner edge
  have hw : wide.Ordered := by decide
  have hi : inner.Ordered := by decide
  have he : edge.Ordered := by decide
  obtain ⟨hinner, -⟩ := interval_laws hw hi he
  obtain ⟨hedge, -⟩ := interval_laws hw he hi
  refine ⟨⟨hw, hi, he⟩, hinner, by decide, fun pos => ?_, hedge, by decide, by decide⟩
  rw [Bool.eq_false_iff, Ne, covers_iff]
  exact fun h => absurd h.2 (Nat.not_lt.2 h.1)

end Span

end Arbor
