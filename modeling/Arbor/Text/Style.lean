/-
How texts are set: in quotes, in columns and in colours.

Text in double quotes has no character that cannot be seen, and its end is plain. A quote and a backslash get a backslash,
the usual blanks and the zero character their letter, and every other concealed character its code point in lower-case
hexadecimal between braces. All other characters stand for themselves.

Columns have a fixed width, counted in characters; a text that is too wide is kept whole. In colour, node kinds are blue,
strings green, field labels and ranges dim.
-/
import Arbor.Text.Concealed

namespace Arbor

namespace Text

/-! ## Quotes -/

/-- lower-case hexadecimal digits of a number -/
def hex (n : Nat) : String := String.ofList (Nat.toDigits 16 n)

/-- one character as it stands between double quotes -/
def quotedChar (c : Char) : String :=
  if c = '"' then "\\\""
  else if c = '\\' then "\\\\"
  else if c = '\t' then "\\t"
  else if c = '\n' then "\\n"
  else if c = '\r' then "\\r"
  else if c.toNat = 0 then "\\0"
  else if isConcealed c then "\\u\x7b" ++ hex c.toNat ++ "\x7d"
  else c.toString

/-- the text between double quotes, with what cannot stand there escaped -/
def quoted (s : String) : String := "\"" ++ String.join (s.toList.map quotedChar) ++ "\""

/-! ## Columns -/

/-- spaces before the text up to the width -/
def alignRight (width : Nat) (s : String) : String := String.ofList (List.replicate (width - s.length) ' ') ++ s

/-- spaces after the text up to the width -/
def alignLeft (width : Nat) (s : String) : String := s ++ String.ofList (List.replicate (width - s.length) ' ')

/-- two spaces for each level of depth -/
def indent (depth : Nat) : String := String.ofList (List.replicate (2 * depth) ' ')

end Text

/-! ## Colours -/

/-- the marks that switch a colour on and off again -/
structure Palette where
  kind : String
  string : String
  dim : String
  reset : String
  deriving DecidableEq, Repr, Inhabited

namespace Palette

/-- ANSI colours -/
def ansi : Palette := ⟨"\x1b[34m", "\x1b[32m", "\x1b[2m", "\x1b[0m"⟩

/-- no colours -/
def plain : Palette := ⟨"", "", "", ""⟩

/-- ANSI colours if so, else none -/
def ofBool (coloured : Bool) : Palette := if coloured then ansi else plain

/-- the palette has colours -/
def isEnabled (p : Palette) : Bool := !p.kind.isEmpty

end Palette

end Arbor
