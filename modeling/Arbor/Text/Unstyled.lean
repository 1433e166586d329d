/-
Texts without terminal control sequences, for reports that do not go to a terminal. The text is read the way a terminal
reads it, and only what a terminal would set down is kept: visible characters, spaces and the characters that end or
advance a line. Escape sequences, the strings that some of them open, and other control characters are passed over.

The reader either passes over characters or copies them. Passing over, it follows the modes of a terminal. The first
character that can be set down makes it copy, and it goes on copying as long as the characters are plain text, even if
they stand inside a sequence that was not finished: a line end inside a sequence is set down and takes the rest of the
sequence with it. A sequence that was left in this way is taken up again where the plain text ends, unless the text
held a character beyond ASCII.
-/

namespace Arbor.Text

/-- what a terminal expects next -/
inductive TerminalMode where
  /-- plain text -/
  | plain
  /-- the rest of an escape sequence -/
  | escape
  /-- the end of an escape sequence, after its intermediate characters -/
  | escapeEnd
  /-- the rest of a control sequence -/
  | control
  /-- the head of a device control string -/
  | device
  /-- more parameters of a device control string -/
  | deviceParams
  /-- the end of the head of a device control string, after its intermediate characters -/
  | deviceEnd
  /-- a string that the string terminator ends -/
  | string
  /-- a command that a bell ends -/
  | command
  deriving DecidableEq, Repr, Inhabited

namespace TerminalMode

/-- the mode after the character that follows an escape character -/
def afterEscape (n : Nat) : TerminalMode :=
  if n < 0x20 ∨ n = 0x7f then .escape
  else if n < 0x30 then .escapeEnd
  else if n = 0x5b then .control
  else if n = 0x5d then .command
  else if n = 0x50 then .device
  else if n = 0x58 ∨ n = 0x5e ∨ n = 0x5f then .string
  else .plain

/-- the mode after an ASCII character that does not break off a sequence -/
def advance : TerminalMode → Nat → TerminalMode
  | .plain, _ => .plain
  | .escape, n => afterEscape n
  | .escapeEnd, n => if n < 0x30 ∨ n = 0x7f then .escapeEnd else .plain
  | .control, n => if n < 0x40 ∨ n = 0x7f then .control else .plain
  | .device, n =>
    if n < 0x20 ∨ n = 0x7f then .device
    else if n < 0x30 then .deviceEnd
    else if n < 0x40 then .deviceParams
    else .string
  | .deviceParams, n =>
    if n < 0x20 ∨ n = 0x7f then .deviceParams
    else if n < 0x30 then .deviceEnd
    else if n < 0x3c then .deviceParams
    else .string
  | .deviceEnd, n => if n < 0x30 ∨ n = 0x7f then .deviceEnd else .string
  | .string, _ => .string
  | .command, n => if n = 0x07 then .plain else .command

/-- the mode that a character enters from everywhere, if it breaks off a sequence -/
def interrupt? (n : Nat) : Option TerminalMode :=
  if n = 0x18 ∨ n = 0x1a then some .plain else if n = 0x1b then some .escape else none

/-- the mode after an ASCII character -/
def next (m : TerminalMode) (n : Nat) : TerminalMode := (interrupt? n).getD (m.advance n)

/-- the encoding of a character holds the byte of the string terminator -/
def holdsTerminator (c : Char) : Bool := (String.utf8EncodeChar c).any fun byte => byte == 0x9c

/-- the mode after a character beyond ASCII, which only the string terminator's byte in its encoding can change -/
def nextWide (m : TerminalMode) (c : Char) : TerminalMode := if m = .string ∧ holdsTerminator c then .plain else m

/-- line ends and the like are set down in this mode -/
def setsBlanks : TerminalMode → Bool
  | .plain | .escape | .escapeEnd | .control => true
  | _ => false

end TerminalMode

/-- tab, line feed, form feed and carriage return -/
def isLayout (n : Nat) : Bool := n == 0x09 || n == 0x0a || n == 0x0c || n == 0x0d

/-- the character is visible in plain text; a character beyond ASCII always is -/
def isPlain (n : Nat) : Bool := (0x20 ≤ n && n < 0x7f) || 0x80 ≤ n

/-- where the reader stands -/
structure TerminalScan where
  mode : TerminalMode
  copying : Bool
  deriving DecidableEq, Repr, Inhabited

namespace TerminalScan

/-- read a character while passing over; whether it is set down -/
def pass (m : TerminalMode) (c : Char) : TerminalScan × Bool :=
  let n := c.toNat
  if 0x80 ≤ n then (⟨m.nextWide c, m = .plain⟩, m = .plain)
  else
    let shown := (m = .plain && isPlain n) || (m.setsBlanks && isLayout n)
    (⟨m.next n, shown⟩, shown)

/-- read a character; whether it is set down -/
def step (s : TerminalScan) (c : Char) : TerminalScan × Bool :=
  let n := c.toNat
  if s.copying then
    if isPlain n || isLayout n then (⟨if 0x80 ≤ n then .plain else s.mode, true⟩, true)
    else pass ((TerminalMode.interrupt? n).getD s.mode) c
  else pass s.mode c

/-- the characters that are set down -/
def shown (s : TerminalScan) : List Char → List Char
  | [] => []
  | c :: rest =>
    match s.step c with
    | (next, true) => c :: next.shown rest
    | (next, false) => next.shown rest

end TerminalScan

/-- the text without terminal control sequences -/
def unstyled (s : String) : String := String.ofList (TerminalScan.shown ⟨.plain, false⟩ s.toList)

end Arbor.Text
