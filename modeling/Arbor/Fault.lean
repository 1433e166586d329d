/-
Misuse of handles and positions. A handle is only good in the arena or name list that issued it, and only a span
whose bounds are in order has a length. An operation that is given anything else answers with a `Fault`; the causes
are data, and their wording is in `Fault.message` alone.
-/

namespace Arbor

/-- a call that broke the promise its operation rests on -/
inductive Fault where
  /-- a node id that the finished tree does not have -/
  | missingNode (id count : Nat)
  /-- a node id that the builder has not handed out -/
  | unallocatedNode (id count : Nat)
  /-- a symbol that the name list has not issued -/
  | unknownSymbol (symbol count : Nat)
  /-- the length of a span whose end lies before its start -/
  | reversedLength
  deriving DecidableEq, Repr

/-- the report for a fault -/
def Fault.message : Fault → String
  | .missingNode id count => s!"Ast: node #{id} not found ({count} nodes; handle from another tree?)"
  | .unallocatedNode id count => s!"AstBuilder: node #{id} not allocated ({count} nodes)"
  | .unknownSymbol symbol count => s!"Interner: symbol {symbol} out of range ({count} strings interned)"
  | .reversedLength => "attempt to subtract with overflow"

end Arbor
