/-
Looking things up: by key in a list, and by halving in an array that is in order.

Key-value lists keep the order in which their keys were first written. A write to a key that is there changes the value
in place, a write to a new key goes last; so the order of the keys is the order of their first writes. Slots,
attributes, schemas, comment groups and histograms are all kept this way.

Binary search halves a window of positions. The window always keeps the last position that the test sent right; on a list
that the test splits in two, what remains at the end is the border between its halves. Schema tables, token positions and
ranges of characters are found this way.
-/

namespace Arbor

/-! ## Key-value lists -/

/-- values under keys, in order of first write -/
abbrev Keyed (κ ν : Type) := List (κ × ν)

namespace Keyed

variable {κ ν : Type} [DecidableEq κ]

/-- the value under a key -/
def get? : Keyed κ ν → κ → Option ν
  | [], _ => none
  | (k, v) :: rest, key => if k = key then some v else get? rest key

/-- change the value under a key; `change` sees `none` for a new key, which goes last -/
def alter : Keyed κ ν → κ → (Option ν → ν) → Keyed κ ν
  | [], key, change => [(key, change none)]
  | (k, v) :: rest, key, change => if k = key then (k, change (some v)) :: rest else (k, v) :: alter rest key change

/-- write a value under a key, whatever was there -/
def put (entries : Keyed κ ν) (key : κ) (value : ν) : Keyed κ ν := entries.alter key fun _ => value

/-- the keys, in order -/
def keys (entries : Keyed κ ν) : List κ := entries.map Prod.fst

end Keyed

/-! ## Binary search -/

/-- halve the window of `size` positions from `base` until one is left, going right where `right` says so -/
def bisect (right : Nat → Bool) (base size : Nat) : Nat :=
  if 1 < size then
    let half := size / 2
    bisect right (if right (base + half) then base + half else base) (size - half)
  else base
termination_by size

/-- number of leading elements that satisfy `p`, found by binary search; exact when no element after them does -/
def partitionPoint {α : Type} (xs : Array α) (p : α → Bool) : Nat :=
  let holds (i : Nat) : Bool := xs[i]?.any p
  let last := bisect holds 0 xs.size
  if holds last then last + 1 else last

end Arbor
