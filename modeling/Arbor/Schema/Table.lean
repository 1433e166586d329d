/-
A schema as a table in ascending order of its kinds, looked up by binary search.
-/
import Arbor.Lookup
import Arbor.Schema.Field

namespace Arbor

/-- node kinds with their fields; look-ups rely on ascending order of the kinds -/
structure Table where
  entries : Array (String × List Field)
  deriving DecidableEq, Repr, Inhabited

namespace Table

/-- the fields of a kind, by binary search -/
def get? (t : Table) (kind : String) : Option (List Field) :=
  let notAbove (i : Nat) : Bool := t.entries[i]?.any fun entry => !decide (kind < entry.1)
  match t.entries[bisect notAbove 0 t.entries.size]? with
  | some entry => if entry.1 = kind then some entry.2 else none
  | none => none

/-- number of entries -/
def size (t : Table) : Nat := t.entries.size

/-- there are no entries -/
def isEmpty (t : Table) : Bool := t.entries.isEmpty

/-- the kinds in the order of the table -/
def kinds (t : Table) : List String := t.entries.toList.map Prod.fst

/-- each of the strings comes before the next one -/
def ascending : List String → Bool
  | a :: b :: rest => decide (a < b) && ascending (b :: rest)
  | _ => true

/-- the kinds ascend strictly, as the look-ups need it -/
def isSorted (t : Table) : Bool := ascending t.kinds

/-- the table as a schema -/
def toSchema (t : Table) : Schema := ⟨t.get?⟩

end Table

end Arbor
