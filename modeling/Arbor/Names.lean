/-
The name list of a tree. Node kinds, field names and attribute names repeat all over a tree, so each distinct string
is kept once and addressed by a symbol: its position in order of first occurrence. Comparing names is then comparing
numbers.
-/
import Arbor.Fault

namespace Arbor

/-- position of a string in a name list -/
abbrev Symbol := Nat

/-- distinct strings in order of first occurrence -/
structure Names where
  strings : Array String
  deriving DecidableEq, Repr, Inhabited

namespace Names

/-- no name yet -/
def empty : Names := ⟨#[]⟩

/-- the symbol of a string that is in the list -/
def find? (names : Names) (s : String) : Option Symbol := names.strings.idxOf? s

/-- the symbol of a string, which is appended unless it is there -/
def intern (names : Names) (s : String) : Names × Symbol :=
  match names.find? s with
  | some symbol => (names, symbol)
  | none => (⟨names.strings.push s⟩, names.strings.size)

/-- the string of a symbol, if the symbol was issued -/
def resolve? (names : Names) (symbol : Symbol) : Option String := names.strings[symbol]?

/-- the string of a symbol, which must have been issued -/
def resolve (names : Names) (symbol : Symbol) : Except Fault String :=
  match names.resolve? symbol with
  | some s => .ok s
  | none => .error (.unknownSymbol symbol names.strings.size)

/-- number of distinct strings -/
def size (names : Names) : Nat := names.strings.size

/-- there is no string yet -/
def isEmpty (names : Names) : Bool := names.strings.isEmpty

/-- every string with its symbol, in order -/
def toList (names : Names) : List (Symbol × String) := names.strings.toList.zipIdx.map fun (s, i) => (i, s)

end Names

end Arbor
