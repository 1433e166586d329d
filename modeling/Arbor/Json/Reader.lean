/-
Reading JSON text from left to right. A reader takes the characters that are left and answers with a value and what is
left after it, or with the first problem it meets. That what is left never grows is part of the type, so the loops over
items and members end by the length of the text.

Readers come in two families that share everything here: those that take any value, and those that expect a certain
shape. Either way the first problem in the text is the one reported, so a wrong shape early in a text wins over a text
that breaks off later.
-/

namespace Arbor.Json

/-- why a text could not be read -/
inductive Failure where
  /-- the text is not JSON -/
  | malformed
  /-- the text ends inside a value -/
  | truncated
  /-- the text holds a value of another shape than the one asked for -/
  | mismatch
  deriving DecidableEq, Repr

/-- the report for a failure -/
def Failure.message : Failure → String
  | .malformed => "the text is not JSON"
  | .truncated => "the text ends inside a value"
  | .mismatch => "a value has the wrong shape"

/-- what may be left of `s` after some of it was read -/
abbrev Rest (s : List Char) := { r : List Char // r.length ≤ s.length }

/-- a value read from the front of a text, with what is left of the text -/
def Reader (α : Type) := (s : List Char) → Except Failure (α × Rest s)

namespace Reader

instance : Monad Reader where
  pure a := fun s => .ok (a, ⟨s, Nat.le_refl _⟩)
  bind p f := fun s =>
    match p s with
    | .error e => .error e
    | .ok (a, ⟨r, h⟩) =>
      match f a r with
      | .error e => .error e
      | .ok (b, ⟨r', h'⟩) => .ok (b, ⟨r', Nat.le_trans h' h⟩)

/-- stop with a failure -/
def fail {α : Type} (e : Failure) : Reader α := fun _ => .error e

/-- read with a loop over the text: it is given the whole text and what is left of it, which is all of it at first -/
def fromStart {α : Type}
    (loop : (start s : List Char) → s.length ≤ start.length → Except Failure (α × Rest start)) : Reader α :=
  fun start => loop start start (Nat.le_refl _)

/-! ## Characters -/

/-- space, tab, line feed and carriage return may stand between any two parts -/
def isBlank (c : Char) : Bool := c == ' ' || c == '\t' || c == '\n' || c == '\r'

theorem length_lt_of_dropWhile {p : Char → Bool} {c : Char} {r s : List Char} (h : s.dropWhile p = c :: r) :
    r.length < s.length := by
  have hle : (s.dropWhile p).length ≤ s.length := (List.dropWhile_suffix p).length_le
  rw [h] at hle
  exact Nat.lt_of_succ_le hle

/-- pass the characters that satisfy `p` -/
def passWhile (p : Char → Bool) : Reader (List Char) := fun s =>
  .ok (s.takeWhile p, ⟨s.dropWhile p, (List.dropWhile_suffix p).length_le⟩)

/-- the next character, which stays where it is -/
def look : Reader (Option Char) := fun s => .ok (s.head?, ⟨s, Nat.le_refl _⟩)

/-- the next character after blanks, which are passed -/
def peek : Reader (Option Char) := do
  let _ ← passWhile isBlank
  look

/-- pass one character -/
def advance : Reader Unit := fun s => .ok ((), ⟨s.tail, by simp [List.length_tail]⟩)

/-- pass the rest of a word; another character makes the text malformed, its end breaks it off -/
def word : List Char → Reader Unit
  | [] => pure ()
  | c :: w => do
    match ← look with
    | none => fail .truncated
    | some d => if c = d then do advance; word w else fail .malformed

/-- pass the given mark, which must be the next character after blanks -/
def mark (c : Char) : Reader Unit := do
  match ← peek with
  | none => fail .truncated
  | some d => if c = d then advance else fail .malformed

/-! ## Items and members -/

/-- the items after one that was read, up to the closing bracket; a comma stands between two items -/
def moreItems {α : Type} (item : Reader α) (acc : List α) : Reader (List α) := fromStart fun start => loop start acc
where
  /-- the same from a later place `s` of the text, with the items before it in reverse -/
  loop (start : List Char) (acc : List α) (s : List Char) (hs : s.length ≤ start.length) :
      Except Failure (List α × Rest start) :=
    match h : s.dropWhile isBlank with
    | [] => .error .truncated
    | c :: r =>
      have hr := length_lt_of_dropWhile h
      have hr' := Nat.le_of_lt (Nat.lt_of_lt_of_le hr hs)
      if c = ']' then .ok (acc.reverse, ⟨r, hr'⟩)
      else if c = ',' then
        match item r with
        | .error e => .error e
        | .ok (a, ⟨next, hn⟩) => loop start (a :: acc) next (Nat.le_trans hn hr')
      else .error .malformed
  termination_by s.length

/-- the items after an opening bracket, up to the closing one -/
def items {α : Type} (item : Reader α) : Reader (List α) := do
  match ← peek with
  | none => fail .truncated
  | some ']' => do advance; pure []
  | some _ => do
    let a ← item
    moreItems item [a]

/-- the members after one that was read, up to the closing brace; `member` reads what follows a key -/
def moreMembers {σ : Type} (key : Reader String) (member : String → σ → Reader σ) (acc : σ) : Reader σ :=
  fromStart fun start => loop start acc
where
  /-- the same from a later place `s` of the text -/
  loop (start : List Char) (acc : σ) (s : List Char) (hs : s.length ≤ start.length) :
      Except Failure (σ × Rest start) :=
    match h : s.dropWhile isBlank with
    | [] => .error .truncated
    | c :: r =>
      have hr := length_lt_of_dropWhile h
      have hr' := Nat.le_of_lt (Nat.lt_of_lt_of_le hr hs)
      if c = '\x7d' then .ok (acc, ⟨r, hr'⟩)
      else if c = ',' then
        match (key >>= fun k => member k acc) r with
        | .error e => .error e
        | .ok (acc, ⟨next, hn⟩) => loop start acc next (Nat.le_trans hn hr')
      else .error .malformed
  termination_by s.length

/-- the members after an opening brace, up to the closing one, folded from the left -/
def members {σ : Type} (key : Reader String) (member : String → σ → Reader σ) (acc : σ) : Reader σ := do
  match ← peek with
  | none => fail .truncated
  | some '\x7d' => do advance; pure acc
  | some _ => do
    let k ← key
    let acc ← member k acc
    moreMembers key member acc

end Reader

/-- read a whole text: one value and nothing but blanks after it -/
def Reader.run {α : Type} (p : Reader α) (text : String) : Except Failure α :=
  match p text.toList with
  | .error e => .error e
  | .ok (a, ⟨r, _⟩) => if r.all Reader.isBlank then .ok a else .error .malformed

end Arbor.Json
