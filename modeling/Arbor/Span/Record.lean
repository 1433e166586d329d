/-
Spans as JSON records with the fields `start` and `end`. The bounds are taken as they are, also in reversed order.
-/
import Arbor.Span
import Arbor.Json.Parse

namespace Arbor.Span

open Json (Reader Value)

/-- the bounds that were given so far -/
structure Draft where
  start : Option Nat
  stop : Option Nat

/-- what follows a key of a span record -/
def Draft.member (key : String) (d : Draft) : Reader Draft := do
  if key = "start" then return { d with start := ← Reader.once d.start Reader.offset }
  else if key = "end" then return { d with stop := ← Reader.once d.stop Reader.offset }
  else do
    Reader.mark ':'
    Reader.skip
    return d

/-- the span of a record that has both bounds -/
def Draft.finish (d : Draft) : Reader Span := do
  return ⟨← Reader.given d.start, ← Reader.given d.stop⟩

/-- the bounds in order -/
def inOrder : Reader Span := do
  let start ← Reader.given (← Reader.nextItem? true Reader.offset)
  let stop ← Reader.given (← Reader.nextItem? false Reader.offset)
  return ⟨start, stop⟩

/-- a span record -/
def reader : Reader Span := Reader.record inOrder Draft.member ⟨none, none⟩ Draft.finish

/-- the span of a JSON text -/
def parse (text : String) : Except Json.Failure Span := reader.run text

/-- the span as a JSON record -/
def toJson (a : Span) : Value := .object [("start", .nat a.start), ("end", .nat a.stop)]

end Arbor.Span
