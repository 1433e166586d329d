/-
Half-open source ranges and the interval relations over them. Every node, comment and token occupies a range
`[start, stop)`; all position queries reduce to the predicates defined here.

The bounds are plain numbers: the readers admit only offsets below 2^32, and nothing here adds or multiplies them.
A span is ordinary data and may be reversed when it is written down field by field; `Span.of`, `Span.empty` and
`Span.cover` of ordered spans never make a reversed one.
-/
import Arbor.Fault

namespace Arbor

/-- the positions from `start` up to, not including, `stop` -/
structure Span where
  start : Nat
  stop : Nat
  deriving DecidableEq, Repr, Inhabited

namespace Span

/-- the span between two bounds; a reversed pair collapses to the empty span at its start -/
def of (start stop : Nat) : Span := if stop < start then ⟨start, start⟩ else ⟨start, stop⟩

/-- the span that holds no position, placed at `pos` -/
def empty (pos : Nat) : Span := ⟨pos, pos⟩

/-- the bounds are in order -/
def Ordered (a : Span) : Prop := a.start ≤ a.stop

instance (a : Span) : Decidable a.Ordered := inferInstanceAs (Decidable (a.start ≤ a.stop))

/-- number of positions; a reversed span has none to count -/
def length (a : Span) : Except Fault Nat :=
  if a.stop < a.start then .error .reversedLength else .ok (a.stop - a.start)

/-- the bounds coincide -/
def isEmpty (a : Span) : Bool := a.start == a.stop

/-! ## Relations -/

/-- each span starts before the other one ends -/
def overlaps (a b : Span) : Bool := a.start < b.stop && b.start < a.stop

/-- `b` lies within `a`; equal spans contain each other -/
def contains (a b : Span) : Bool := a.start ≤ b.start && b.stop ≤ a.stop

/-- `a` ends at or before the start of `b`; equal empty spans are not ordered -/
def before (a b : Span) : Bool := a.stop ≤ b.start && a.start < b.stop

/-- `a` starts at or after the end of `b`; equal empty spans are not ordered -/
def after (a b : Span) : Bool := b.before a

/-- the position is one of the span's own; the end is outside -/
def covers (a : Span) (pos : Nat) : Bool := a.start ≤ pos && pos < a.stop

/-- the smallest span around both -/
def cover (a b : Span) : Span := ⟨min a.start b.start, max a.stop b.stop⟩

/-- by start, then by end -/
def order (a b : Span) : Ordering := (compare a.start b.start).then (compare a.stop b.stop)

/-! ## Text -/

/-- the span as it is typed, `3..7` -/
def text (a : Span) : String := s!"{a.start}..{a.stop}"

/-- the span as an interval, `[3, 7)` -/
def interval (a : Span) : String := s!"[{a.start}, {a.stop})"

end Span

/-- things that occupy a source range -/
class HasSpan (α : Type) where
  span : α → Span

instance : HasSpan Span := ⟨id⟩

end Arbor
