/-
Reading the undivided JSON values: the words `null`, `true` and `false`, strings with their escapes, and numbers.
-/
import Arbor.Json.Reader
import Arbor.Json.Value

namespace Arbor.Json.Reader

/-! ## Strings -/

/-- value of a hexadecimal digit -/
def hexDigit? (c : Char) : Option Nat :=
  if '0' ≤ c ∧ c ≤ '9' then some (c.toNat - '0'.toNat)
  else if 'a' ≤ c ∧ c ≤ 'f' then some (c.toNat - 'a'.toNat + 10)
  else if 'A' ≤ c ∧ c ≤ 'F' then some (c.toNat - 'A'.toNat + 10)
  else none

/-- value of four hexadecimal digits -/
def hexValue? (a b c d : Char) : Option Nat := do
  let a ← hexDigit? a
  let b ← hexDigit? b
  let c ← hexDigit? c
  let d ← hexDigit? d
  return ((a * 16 + b) * 16 + c) * 16 + d

/-- number of bytes of a text in UTF-8 -/
def byteCount (s : List Char) : Nat := s.foldl (fun n c => n + c.utf8Size) 0

/-- four hexadecimal digits; a text with fewer than four bytes left has broken off -/
def hexQuad : Reader Nat := fun s =>
  match s with
  | a :: b :: c :: d :: r =>
    match hexValue? a b c d with
    | some n => .ok (n, ⟨r, by simp only [List.length_cons]; omega⟩)
    | none => .error .malformed
  | short => if byteCount short < 4 then .error .truncated else .error .malformed

/-- the second half of a surrogate pair whose first half was read -/
def lowSurrogate (high : Nat) : Reader Char := do
  word ['\\', 'u']
  let low ← hexQuad
  if 0xDC00 ≤ low ∧ low ≤ 0xDFFF then
    pure (Char.ofNat (0x10000 + (high - 0xD800) * 0x400 + (low - 0xDC00)))
  else fail .malformed

/-- the character after a backslash and the letter `u`; surrogates come in pairs -/
def unicodeEscape : Reader Char := do
  let n ← hexQuad
  if 0xDC00 ≤ n ∧ n ≤ 0xDFFF then fail .malformed
  else if 0xD800 ≤ n ∧ n ≤ 0xDBFF then lowSurrogate n
  else pure (Char.ofNat n)

/-- the character of a one-letter escape -/
def simpleEscape? (c : Char) : Option Char :=
  if c = '"' ∨ c = '\\' ∨ c = '/' then some c
  else if c = 'b' then some '\x08'
  else if c = 'f' then some '\x0c'
  else if c = 'n' then some '\n'
  else if c = 'r' then some '\r'
  else if c = 't' then some '\t'
  else none

/-- the character after a backslash -/
def escape : Reader Char := do
  match ← look with
  | none => fail .truncated
  | some c => do
    advance
    if c = 'u' then unicodeEscape
    else
      match simpleEscape? c with
      | some d => pure d
      | none => fail .malformed

/-- the characters of a string up to its closing quote; a bare control character is malformed -/
def stringTail : Reader String := fromStart fun start => loop start []
where
  /-- the same from a later place `s` of the text, with the characters before it in reverse -/
  loop (start acc : List Char) (s : List Char) (hs : s.length ≤ start.length) :
      Except Failure (String × Rest start) :=
    match s with
    | [] => .error .truncated
    | c :: r =>
      if c = '"' then .ok (String.ofList acc.reverse, ⟨r, Nat.le_of_succ_le hs⟩)
      else if c = '\\' then
        match escape r with
        | .error e => .error e
        | .ok (d, ⟨next, hn⟩) => loop start (d :: acc) next (Nat.le_trans hn (Nat.le_of_succ_le hs))
      else if c.toNat < 0x20 then .error .malformed
      else loop start (c :: acc) r (Nat.le_of_succ_le hs)
  termination_by s.length
  decreasing_by
    · exact Nat.lt_succ_of_le hn
    · exact Nat.lt_succ_self _

/-- a string in quotes, as a key must be -/
def key : Reader String := do
  match ← peek with
  | none => fail .truncated
  | some '"' => do advance; stringTail
  | some _ => fail .malformed

/-! ## Numbers -/

/-- value of a run of decimal digits -/
def decimalValue (digits : List Char) : Nat := digits.foldl (fun n c => n * 10 + (c.toNat - '0'.toNat)) 0

/-- a run of at least one decimal digit -/
def digits : Reader (List Char) := do
  match ← passWhile Char.isDigit with
  | [] => do
    match ← look with
    | none => fail .truncated
    | some _ => fail .malformed
  | ds => pure ds

/-- the digits before the point: no zero in front of another digit -/
def wholeDigits : Reader (List Char) := do
  let ds ← digits
  if 1 < ds.length ∧ ds.head? = some '0' then fail .malformed else pure ds

/-- the digits after the point, if there is one -/
def fractionDigits : Reader (List Char) := do
  match ← look with
  | some '.' => do advance; digits
  | _ => pure []

/-- the exponent, if there is one -/
def exponent? : Reader (Option Int) := do
  let c ← look
  if c = some 'e' ∨ c = some 'E' then do
    advance
    let sign ← look
    if sign = some '+' ∨ sign = some '-' then advance
    let n := decimalValue (← digits)
    pure (some (if sign = some '-' then -(n : Int) else n))
  else pure none

/-- the integers below it have 64 bits -/
def wordLimit : Nat := 0x10000000000000000

/-- put digits behind the number `n` as long as it stays within 64 bits; the digits left over -/
def appendDigits (n : Nat) : List Char → Nat × List Char
  | [] => (n, [])
  | c :: rest =>
    let longer := n * 10 + (c.toNat - '0'.toNat)
    if longer < wordLimit then appendDigits longer rest else (n, c :: rest)

/-- the binary64 number of a literal. Its significand is made of the leading digits within 64 bits; digits left over before
the point only count as places, and those left over after the point do not count. -/
def doubleOf? (negative : Bool) (whole fraction : List Char) (power : Int) : Option Number :=
  let (n, dropped) := appendDigits 0 whole
  let (significand, unused) := appendDigits n fraction
  let places : Int := (dropped.length : Int) - ((fraction.length : Int) - unused.length)
  (Binary64.ofDecimal negative significand (places + power)).map .double

/-- the number of an integer literal: exact within 64 bits, a binary64 number beyond them and for minus zero -/
def integerNumber? (negative : Bool) (whole : List Char) : Option Number :=
  let n := decimalValue whole
  if negative then
    if 0 < n ∧ n ≤ 0x8000000000000000 then some (.integer (-(n : Int))) else doubleOf? true whole [] 0
  else if n < wordLimit then some (.integer n) else doubleOf? false whole [] 0

/-- a number; one that is too large for a binary64 number is malformed -/
def number : Reader Number := do
  let negative := (← look) == some '-'
  if negative then advance
  let whole ← wholeDigits
  let fraction ← fractionDigits
  let power ← exponent?
  let result :=
    if fraction.isEmpty && power.isNone then integerNumber? negative whole
    else doubleOf? negative whole fraction (power.getD 0)
  match result with
  | some n => pure n
  | none => fail .malformed

/-! ## Any undivided value -/

/-- an undivided value that starts with the given character, where the reader stands -/
def scalarFrom : Option Char → Reader Value
  | none => fail .truncated
  | some c => do
    if c = '"' then do advance; Value.string <$> stringTail
    else if c = 'n' then do word ['n', 'u', 'l', 'l']; pure .null
    else if c = 't' then do word ['t', 'r', 'u', 'e']; pure (.bool true)
    else if c = 'f' then do word ['f', 'a', 'l', 's', 'e']; pure (.bool false)
    else if c = '-' ∨ c.isDigit then Value.number <$> number
    else fail .malformed

end Arbor.Json.Reader
