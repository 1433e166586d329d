/-
The fewest decimal digits that read back as a given number. Every real between the midpoints to the neighbouring
representable numbers reads back as the number, the midpoints themselves when its mantissa is even. For one, two, three
digits and so on, the two decimals of that many digits around the number are tried against this range; the first
length with a hit wins, and of two hits the nearer one, the upper one at a tie. Seventeen digits always suffice.

A number is written out in full with these digits: never an exponent, no point after a whole number, and a sign before a
negative zero.
-/
import Arbor.Number.Binary64

namespace Arbor

/-- a decimal `digits * 10 ^ exponent` -/
structure Decimal where
  digits : Nat
  exponent : Int
  deriving DecidableEq, Repr, Inhabited

/-- number of decimal digits of the whole part of `num / den`, zero or negative below one tenth -/
def decimalOrder (num den : Nat) : Int :=
  let guess : Int := (Nat.toDigits 10 num).length - (Nat.toDigits 10 den).length
  let (n, d) := shiftRatio 10 num den guess
  if d ≤ n then guess + 1 else guess

namespace Binary64

/-- one of the two decimals of `length` digits around a nonzero magnitude that reads back as it -/
def decimalOfLength? (x : Binary64) (length : Nat) : Option Decimal :=
  let (unitNum, unitDen) := shiftRatio 2 1 1 (2 - x.exponent)
  let value := 4 * x.mantissa
  let lower := if 2 * x.mantissa = mantissaLimit ∧ -1074 < x.exponent then value - 1 else value - 2
  let upper := value + 2
  let e := decimalOrder (value * unitNum) unitDen - length
  let (n, d) := shiftRatio 10 unitNum unitDen e
  let readsBack (digits : Nat) : Bool :=
    if x.mantissa % 2 = 0 then lower * n ≤ digits * d && digits * d ≤ upper * n
    else lower * n < digits * d && digits * d < upper * n
  let down := value * n / d
  let nearest := if value * n - down * d < (down + 1) * d - value * n then down else down + 1
  if readsBack nearest then some ⟨nearest, e⟩
  else if readsBack down then some ⟨down, e⟩
  else if readsBack (down + 1) then some ⟨down + 1, e⟩
  else none

/-- the shortest decimal that reads back as the magnitude, without its sign -/
def shortest (x : Binary64) : Decimal :=
  if x.mantissa = 0 then ⟨0, 0⟩
  else ((List.range 17).findSome? fun n => x.decimalOfLength? (n + 1)).getD ⟨0, 0⟩

end Binary64

/-! ## Text -/

/-- drop the zeros at the end of the digits, at most `fuel` of them -/
def Decimal.trim : Nat → Decimal → Decimal
  | 0, d => d
  | fuel + 1, d => if d.digits ≠ 0 ∧ d.digits % 10 = 0 then trim fuel ⟨d.digits / 10, d.exponent + 1⟩ else d

/-- the decimal in positional form -/
def Decimal.positional (d : Decimal) : String :=
  let d := d.trim 20
  let digits := Nat.toDigits 10 d.digits
  if 0 ≤ d.exponent then
    if d.digits = 0 then "0" else String.ofList (digits ++ List.replicate d.exponent.toNat '0')
  else
    let places := (-d.exponent).toNat
    if places < digits.length then
      String.ofList (digits.take (digits.length - places) ++ '.' :: digits.drop (digits.length - places))
    else String.ofList ('0' :: '.' :: List.replicate (places - digits.length) '0' ++ digits)

/-- the number as text, positional with the fewest digits that read back -/
def Binary64.text (x : Binary64) : String :=
  (if x.negative then "-" else "") ++ x.shortest.positional

end Arbor
