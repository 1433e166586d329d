/-
Writing JSON values, either on one line without blanks or over several lines with two spaces for each level. Strings
escape the quote, the backslash and the control characters; everything else is written as it is. Objects are written in
the order of their members, so that records keep the order of their fields.
-/
import Arbor.Json.Value
import Arbor.Number.Decimal
import Arbor.Text.Style

namespace Arbor.Json

/-- one character of a string -/
def writtenChar (c : Char) : String :=
  if c = '"' then "\\\""
  else if c = '\\' then "\\\\"
  else if c = '\n' then "\\n"
  else if c = '\r' then "\\r"
  else if c = '\t' then "\\t"
  else if c = '\x08' then "\\b"
  else if c = '\x0c' then "\\f"
  else if c.toNat < 0x20 then
    let digits := Text.hex c.toNat
    "\\u" ++ String.ofList (List.replicate (4 - digits.length) '0') ++ digits
  else c.toString

/-- a string in quotes -/
def writtenString (s : String) : String := "\"" ++ String.join (s.toList.map writtenChar) ++ "\""

namespace Value

/-- a value that divides no further, as it is written in either layout -/
def writtenScalar : Value → String
  | .bool b => if b then "true" else "false"
  | .number (.integer n) => toString n
  | .number (.double x) => x.text
  | .string s => writtenString s
  | _ => "null"

mutual

/-- the value on one line -/
def compact : Value → String
  | .array items => "[" ++ compactItems items ++ "]"
  | .object members => "\x7b" ++ compactMembers members ++ "\x7d"
  | v => v.writtenScalar

/-- items with commas between them -/
def compactItems : List Value → String
  | [] => ""
  | [v] => v.compact
  | v :: rest => v.compact ++ "," ++ compactItems rest

/-- members with commas between them -/
def compactMembers : List (String × Value) → String
  | [] => ""
  | [(k, v)] => writtenString k ++ ":" ++ v.compact
  | (k, v) :: rest => writtenString k ++ ":" ++ v.compact ++ "," ++ compactMembers rest

end

/-- the start of a line at a depth -/
def newLine (depth : Nat) : String := "\n" ++ String.ofList (List.replicate (2 * depth) ' ')

mutual

/-- the value over several lines, where the current line is at `depth` -/
def prettyAt (depth : Nat) : Value → String
  | .array [] => "[]"
  | .array items => "[" ++ prettyItems (depth + 1) items ++ newLine depth ++ "]"
  | .object [] => "\x7b\x7d"
  | .object members => "\x7b" ++ prettyMembers (depth + 1) members ++ newLine depth ++ "\x7d"
  | v => v.writtenScalar

/-- items, each on a line of its own -/
def prettyItems (depth : Nat) : List Value → String
  | [] => ""
  | [v] => newLine depth ++ v.prettyAt depth
  | v :: rest => newLine depth ++ v.prettyAt depth ++ "," ++ prettyItems depth rest

/-- members, each on a line of its own -/
def prettyMembers (depth : Nat) : List (String × Value) → String
  | [] => ""
  | [(k, v)] => newLine depth ++ writtenString k ++ ": " ++ v.prettyAt depth
  | (k, v) :: rest => newLine depth ++ writtenString k ++ ": " ++ v.prettyAt depth ++ "," ++ prettyMembers depth rest

end

/-- the value over several lines -/
def pretty (v : Value) : String := v.prettyAt 0

end Value

end Arbor.Json
