/-
JSON values. Integers within 64 bits stay exact; every other number is a binary64 number. The members of an object are
in ascending order of their keys, each key once.
-/
import Arbor.Number.Binary64

namespace Arbor.Json

/-- a number: an integer of 64 bits, signed or not, or a binary64 number -/
inductive Number where
  | integer (n : Int)
  | double (x : Binary64)
  deriving DecidableEq, Repr

/-- a JSON value -/
inductive Value where
  | null
  | bool (b : Bool)
  | number (n : Number)
  | string (s : String)
  | array (items : List Value)
  | object (members : List (String × Value))
  deriving Repr, Inhabited

/-- the number as a binary64 number, rounded to nearest -/
def Number.toBinary64 : Number → Binary64
  | .integer n => .ofInt n
  | .double x => x

/-- the member under a key -/
def member? : List (String × Value) → String → Option Value
  | [], _ => none
  | (k, v) :: rest, key => if k = key then some v else member? rest key

/-- put a member at its place in ascending key order; an earlier member of the same key gives way -/
def insertMember (key : String) (value : Value) : List (String × Value) → List (String × Value)
  | [] => [(key, value)]
  | (k, v) :: rest =>
    if key < k then (key, value) :: (k, v) :: rest
    else if key = k then (key, value) :: rest
    else (k, v) :: insertMember key value rest

namespace Value

/-- a natural number -/
def nat (n : Nat) : Value := .number (.integer n)

/-- the text of a string -/
def asString? : Value → Option String
  | .string s => some s
  | _ => none

/-- the items of an array -/
def asArray? : Value → Option (List Value)
  | .array items => some items
  | _ => none

/-- the members of an object -/
def asObject? : Value → Option (List (String × Value))
  | .object members => some members
  | _ => none

/-- the value of a nonnegative integer; a binary64 number is none, even a whole one -/
def asNat? : Value → Option Nat
  | .number (.integer (.ofNat n)) => some n
  | _ => none

/-! ## Equality -/

mutual

/-- both values are the same, part for part -/
def same : Value → Value → Bool
  | .null, .null => true
  | .bool a, .bool b => a == b
  | .number m, .number n => m == n
  | .string a, .string b => a == b
  | .array items, .array others => sameItems items others
  | .object members, .object others => sameMembers members others
  | _, _ => false

/-- the same values in the same order -/
def sameItems : List Value → List Value → Bool
  | [], [] => true
  | v :: items, w :: others => v.same w && sameItems items others
  | _, _ => false

/-- the same values under the same keys in the same order -/
def sameMembers : List (String × Value) → List (String × Value) → Bool
  | [], [] => true
  | (k, v) :: members, (l, w) :: others => k == l && v.same w && sameMembers members others
  | _, _ => false

end

mutual

theorem same_iff (v w : Value) : v.same w = true ↔ v = w := by
  cases v with
  | array items => cases w <;> simp [same, sameItems_iff items]
  | object members => cases w <;> simp [same, sameMembers_iff members]
  | _ => cases w <;> simp [same]

theorem sameItems_iff (items others : List Value) : sameItems items others = true ↔ items = others := by
  cases items with
  | nil => cases others <;> simp [sameItems]
  | cons v items => cases others <;> simp [sameItems, same_iff v, sameItems_iff items]

theorem sameMembers_iff (members others : List (String × Value)) : sameMembers members others = true ↔ members = others := by
  cases members with
  | nil => cases others <;> simp [sameMembers]
  | cons m members =>
    obtain ⟨k, v⟩ := m
    cases others <;> simp [sameMembers, same_iff v, sameMembers_iff members, Prod.ext_iff]

end

instance : DecidableEq Value := fun v w => decidable_of_iff (v.same w = true) (same_iff v w)

end Value

end Arbor.Json
