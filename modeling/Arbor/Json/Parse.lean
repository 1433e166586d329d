/-
Reading JSON text into values, and into values of a given shape.

A text that is read into a `Value` may nest 127 brackets deep. A text that is read into a shape is followed only where
the shape leads; a record is accepted as an object, in any order and with other members passed over, or as an array of
its fields in order.
-/
import Arbor.Json.Skip

namespace Arbor.Json.Reader

/-! ## Any value -/

/-- a value in which at most `depth` brackets are open at once -/
def value : Nat → Reader Value
  | 0 => do scalarFrom (← peek)
  | depth + 1 => do
    match ← peek with
    | some '[' => do
      advance
      Value.array <$> items (value depth)
    | some '\x7b' => do
      advance
      Value.object <$> members key (fun k all => do
        mark ':'
        let v ← value depth
        pure (insertMember k v all)) []
    | c => scalarFrom c

/-! ## Given shapes -/

/-- refuse the value at the place of reading; an undivided value that is itself broken is reported as such -/
def refuse {α : Type} (c : Option Char) : Reader α := do
  if c = some '[' ∨ c = some '\x7b' then fail .mismatch
  else do
    let _ ← scalarFrom c
    fail .mismatch

/-- a string -/
def text : Reader String := do
  match ← peek with
  | some '"' => do advance; stringTail
  | c => refuse c

/-- a truth value -/
def flag : Reader Bool := do
  match ← peek with
  | some 't' => do word ['t', 'r', 'u', 'e']; pure true
  | some 'f' => do word ['f', 'a', 'l', 's', 'e']; pure false
  | c => refuse c

/-- an integer from 0 to 2^32 - 1 -/
def offset : Reader Nat := do
  let c ← peek
  if c = some '-' ∨ c.any Char.isDigit then do
    match ← number with
    | .integer (.ofNat n) => if n < 0x100000000 then pure n else fail .mismatch
    | _ => fail .mismatch
  else refuse c

/-- an array of items of one shape -/
def list {α : Type} (item : Reader α) : Reader (List α) := do
  match ← peek with
  | some '[' => do advance; items item
  | c => refuse c

/-- the value of a member that must not have been given before -/
def once {α : Type} (given : Option α) (read : Reader α) : Reader (Option α) := do
  if given.isSome then fail .mismatch
  else do
    mark ':'
    some <$> read

/-- a field that has to be given -/
def given {α : Type} : Option α → Reader α
  | some a => pure a
  | none => fail .mismatch

/-- the next item of an array that holds the fields of a record, `none` at its end -/
def nextItem? {α : Type} (isFirst : Bool) (item : Reader α) : Reader (Option α) := do
  match ← peek with
  | none => fail .truncated
  | some ']' => pure none
  | some c =>
    if isFirst then some <$> item
    else if c = ',' then do advance; some <$> item
    else fail .malformed

/-- a record: the fields in order in an array, or by name in an object -/
def record {α σ : Type} (inOrder : Reader α) (member : String → σ → Reader σ) (start : σ) (finish : σ → Reader α) :
    Reader α := do
  match ← peek with
  | some '[' => do
    advance
    let a ← inOrder
    mark ']'
    pure a
  | some '\x7b' => do
    advance
    let all ← members key member start
    finish all
  | c => refuse c

end Arbor.Json.Reader

namespace Arbor.Json

/-- the value of a text -/
def parse (text : String) : Except Failure Value := (Reader.value 127).run text

end Arbor.Json
