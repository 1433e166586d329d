/-
Integers as they are typed: an optional sign and at least one decimal digit, read from the left. A wrong character is
reported before an overflow at the same place, and an overflow before anything after it.
-/

namespace Arbor

/-- why a text is no integer of the wanted range -/
inductive IntegerProblem where
  | empty
  | invalidDigit
  | tooLarge
  | tooSmall
  deriving DecidableEq, Repr

/-- the report for a problem -/
def IntegerProblem.message : IntegerProblem → String
  | .empty => "cannot parse integer from empty string"
  | .invalidDigit => "invalid digit found in string"
  | .tooLarge => "number too large to fit in target type"
  | .tooSmall => "number too small to fit in target type"

/-- value of a decimal digit -/
def digit? (c : Char) : Option Nat := if '0' ≤ c ∧ c ≤ '9' then some (c.toNat - '0'.toNat) else none

/-- the number that digits make after `n`, which must not pass `bound` -/
def digitsUpTo (bound : Nat) (overflow : IntegerProblem) (n : Nat) : List Char → Except IntegerProblem Nat
  | [] => .ok n
  | c :: rest =>
    match digit? c with
    | none => .error .invalidDigit
    | some d => if bound < n * 10 + d then .error overflow else digitsUpTo bound overflow (n * 10 + d) rest

/-- at least one digit, for a number that must not pass `bound` -/
def someDigitsUpTo (bound : Nat) (overflow : IntegerProblem) : List Char → Except IntegerProblem Nat
  | [] => .error .invalidDigit
  | s => digitsUpTo bound overflow 0 s

/-- a natural number from 0 to `bound`; a plus sign may stand before it -/
def readNatural (bound : Nat) : List Char → Except IntegerProblem Nat
  | [] => .error .empty
  | '+' :: rest => someDigitsUpTo bound .tooLarge rest
  | s => someDigitsUpTo bound .tooLarge s

/-- an integer of 64 bits; a sign may stand before it -/
def readInteger : List Char → Except IntegerProblem Int
  | '-' :: rest => (someDigitsUpTo 0x8000000000000000 .tooSmall rest).map fun n => -(n : Int)
  | s => (readNatural 0x7fffffffffffffff s).map Int.ofNat

end Arbor
