/-
Finite binary64 numbers as exact data: a sign and a magnitude `mantissa * 2 ^ exponent`. Every operation rounds its exact
value once, to the nearest representable number and to the even mantissa at a tie, so nothing depends on machine
arithmetic.

A decimal is read as a whole number that is multiplied or divided by a power of ten. The whole number, the power and the
product are each rounded, so a decimal of many digits may be read as a neighbour of the number nearest to it.
-/

namespace Arbor

/-- a finite binary64 number; mantissa below 2^53, exponent from -1074 to 971 -/
structure Binary64 where
  negative : Bool
  mantissa : Nat
  exponent : Int
  deriving DecidableEq, Repr, Inhabited

/-- two to the power of 53; every mantissa is below it -/
def mantissaLimit : Nat := 0x20000000000000

/-- nearest whole number to `num / den`, the even one of two equally near -/
def roundHalfEven (num den : Nat) : Nat :=
  let q := num / den
  let r := num % den
  if 2 * r < den then q
  else if den < 2 * r then q + 1
  else if q % 2 = 0 then q else q + 1

/-- the ratio `num / den` divided by `base ^ e`, as a ratio -/
def shiftRatio (base num den : Nat) (e : Int) : Nat × Nat :=
  if 0 ≤ e then (num, den * Nat.pow base e.toNat) else (num * Nat.pow base (-e).toNat, den)

namespace Binary64

/-- zero of either sign -/
def zero (negative : Bool) : Binary64 := ⟨negative, 0, -1074⟩

/-- the number nearest to `num / den`, ties to even; `none` beyond the largest finite number -/
def ofRatio (negative : Bool) (num den : Nat) : Option Binary64 :=
  if num = 0 then some (zero negative) else
  let guess : Int := max ((num.log2 : Int) - den.log2 - 53) (-1074)
  let (n, d) := shiftRatio 2 num den guess
  let e := if n / d < mantissaLimit then guess else guess + 1
  let (n, d) := shiftRatio 2 num den e
  let m := roundHalfEven n d
  let (m, e) := if m = mantissaLimit then (mantissaLimit / 2, e + 1) else (m, e)
  if 971 < e then none else some ⟨negative, m, e⟩

/-- the number nearest to an integer below 2^1023 in size -/
def ofInt (n : Int) : Binary64 := (ofRatio (n < 0) n.natAbs 1).getD (zero false)

/-! ## Decimals -/

/-- the number nearest to the product of two magnitudes -/
def mul (x y : Binary64) : Option Binary64 :=
  let (n, d) := shiftRatio 2 (x.mantissa * y.mantissa) 1 (-(x.exponent + y.exponent))
  ofRatio false n d

/-- the number nearest to the quotient of two magnitudes, the second of which is at least one -/
def div (x y : Binary64) : Binary64 :=
  let (n, d) := shiftRatio 2 x.mantissa y.mantissa (y.exponent - x.exponent)
  (ofRatio false n d).getD (zero false)

/-- greatest power of ten in range -/
def maxTenPower : Nat := 308

/-- the number nearest to a power of ten in range -/
def tenPower (k : Nat) : Binary64 := (ofRatio false (Nat.pow 10 k) 1).getD (zero false)

/-- a magnitude multiplied by a power of ten, or divided by one in as few steps as the range of the powers allows; `none`
beyond the largest finite number -/
def scaleTen (x : Binary64) (exponent : Int) : Option Binary64 :=
  if x.mantissa = 0 then some x
  else if 0 ≤ exponent then
    if exponent ≤ maxTenPower then x.mul (tenPower exponent.toNat) else none
  else if -(maxTenPower : Int) ≤ exponent then some (x.div (tenPower (-exponent).toNat))
  else (x.div (tenPower maxTenPower)).scaleTen (exponent + maxTenPower)
termination_by (-exponent).toNat
decreasing_by
  simp only [maxTenPower] at *
  omega

/-- the number that `significand * 10 ^ exponent` is read as; `none` beyond the largest finite number -/
def ofDecimal (negative : Bool) (significand : Nat) (exponent : Int) : Option Binary64 :=
  ((ofInt significand).scaleTen exponent).map fun x => { x with negative }

end Binary64

end Arbor
