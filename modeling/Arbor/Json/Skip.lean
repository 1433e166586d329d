/-
Passing over a JSON value that nobody asks for. Only its form is checked: brackets close in order, strings end, numbers
have their digits. How deep it nests, how large a number is and whether surrogates pair up is not looked at, and a
number that breaks off is malformed like one with a wrong character.
-/
import Arbor.Json.Scalar

namespace Arbor.Json.Reader

/-- pass the escape after a backslash -/
def skipEscape : Reader Unit := do
  match ← look with
  | none => fail .truncated
  | some c => do
    advance
    if c = 'u' then do let _ ← hexQuad; pure ()
    else if (simpleEscape? c).isSome then pure ()
    else fail .malformed

/-- pass the characters of a string and its closing quote -/
def skipStringTail : Reader Unit := fromStart loop
where
  /-- the same from a later place `s` of the text -/
  loop (start s : List Char) (hs : s.length ≤ start.length) : Except Failure (Unit × Rest start) :=
    match s with
    | [] => .error .truncated
    | c :: r =>
      if c = '"' then .ok ((), ⟨r, Nat.le_of_succ_le hs⟩)
      else if c = '\\' then
        match skipEscape r with
        | .error e => .error e
        | .ok (_, ⟨next, hn⟩) => loop start next (Nat.le_trans hn (Nat.le_of_succ_le hs))
      else if c.toNat < 0x20 then .error .malformed
      else loop start r (Nat.le_of_succ_le hs)
  termination_by s.length
  decreasing_by
    · exact Nat.lt_succ_of_le hn
    · exact Nat.lt_succ_self _

/-- pass a run of digits, at least one -/
def skipDigits : Reader (List Char) := do
  match ← passWhile Char.isDigit with
  | [] => fail .malformed
  | ds => pure ds

/-- pass a number whose first character was passed: the digits before the point have no zero in front of others -/
def skipNumberAfter (first : Char) : Reader Unit := do
  let ds ← if first = '-' then skipDigits else (first :: ·) <$> passWhile Char.isDigit
  if 1 < ds.length ∧ ds.head? = some '0' then fail .malformed
  if (← look) = some '.' then do
    advance
    let _ ← skipDigits
  let c ← look
  if c = some 'e' ∨ c = some 'E' then do
    advance
    let sign ← look
    if sign = some '+' ∨ sign = some '-' then advance
    let _ ← skipDigits

/-- pass an undivided value whose first character was passed -/
def skipScalar (first : Char) : Reader Unit := do
  if first = '"' then skipStringTail
  else if first = 'n' then word ['u', 'l', 'l']
  else if first = 't' then word ['r', 'u', 'e']
  else if first = 'f' then word ['a', 'l', 's', 'e']
  else if first = '-' ∨ first.isDigit then skipNumberAfter first
  else fail .malformed

/-- pass a key and the colon after it -/
def skipKey : Reader Unit := do
  match ← peek with
  | none => fail .truncated
  | some '"' => do advance; skipStringTail; mark ':'
  | some _ => fail .malformed

/-- a bracket that is open around the place of reading -/
inductive Bracket where
  | list
  | record
  deriving DecidableEq, Repr

/-- the mark that closes the bracket -/
def Bracket.close : Bracket → Char
  | .list => ']'
  | .record => '\x7d'

/-- the bracket that a mark opens -/
def Bracket.ofOpen? (c : Char) : Option Bracket :=
  if c = '[' then some .list else if c = '\x7b' then some .record else none

/-- pass what stands before an item of the bracket: a key in a record, nothing in a list -/
def Bracket.lead : Bracket → Reader Unit
  | .list => pure ()
  | .record => skipKey

mutual

/-- pass one value, then everything up to the end of the brackets around it -/
def skipValueWithin (start : List Char) (around : List Bracket) (s : List Char) (hs : s.length ≤ start.length) :
    Except Failure (Unit × Rest start) :=
  match h : s.dropWhile isBlank with
  | [] => .error .truncated
  | c :: r =>
    have hr := length_lt_of_dropWhile h
    have hr' := Nat.le_of_lt (Nat.lt_of_lt_of_le hr hs)
    match Bracket.ofOpen? c with
    | some b =>
      match hb : r.dropWhile isBlank with
      | [] => .error .truncated
      | d :: after =>
        have ha := length_lt_of_dropWhile hb
        if d = b.close then skipAfterWithin start around after (Nat.le_of_lt (Nat.lt_of_lt_of_le ha hr'))
        else
          match b.lead r with
          | .error e => .error e
          | .ok (_, ⟨next, hn⟩) => skipValueWithin start (b :: around) next (Nat.le_trans hn hr')
    | none =>
      match skipScalar c r with
      | .error e => .error e
      | .ok (_, ⟨next, hn⟩) => skipAfterWithin start around next (Nat.le_trans hn hr')
termination_by s.length

/-- pass everything after a value up to the end of the brackets around it -/
def skipAfterWithin (start : List Char) (around : List Bracket) (s : List Char) (hs : s.length ≤ start.length) :
    Except Failure (Unit × Rest start) :=
  match around with
  | [] => .ok ((), ⟨s, hs⟩)
  | b :: outer =>
    match h : s.dropWhile isBlank with
    | [] => .error .truncated
    | c :: r =>
      have hr := length_lt_of_dropWhile h
      have hr' := Nat.le_of_lt (Nat.lt_of_lt_of_le hr hs)
      if c = b.close then skipAfterWithin start outer r hr'
      else if c = ',' then
        match b.lead r with
        | .error e => .error e
        | .ok (_, ⟨next, hn⟩) => skipValueWithin start (b :: outer) next (Nat.le_trans hn hr')
      else .error .malformed
termination_by s.length

end

/-- pass one value of any form and depth -/
def skip : Reader Unit := fromStart fun start => skipValueWithin start []

end Arbor.Json.Reader
