/-
Spans as they are typed on a command line: `START..END`, split at the first two points in a row. White space may stand
around both numbers, each of which is below 2^32, and the end must not lie before the start. White space is meant in the
sense of Unicode.
-/
import Arbor.Number.Integer
import Arbor.Span

namespace Arbor

/-! ## White space -/

namespace Text

/-- the character has the Unicode property White_Space -/
def isBlank (c : Char) : Bool :=
  let n := c.toNat
  (9 ≤ n && n ≤ 13) || n == 0x20 || n == 0x85 || n == 0xa0 || n == 0x1680 || (0x2000 ≤ n && n ≤ 0x200a) ||
    n == 0x2028 || n == 0x2029 || n == 0x202f || n == 0x205f || n == 0x3000

/-- the text without white space at its ends -/
def trim (s : List Char) : List Char := ((s.dropWhile isBlank).reverse.dropWhile isBlank).reverse

end Text

/-! ## Spans -/

/-- why a text is no span -/
inductive SpanProblem where
  /-- there are no two points in a row -/
  | noRange (text : String)
  | badStart (text : String)
  | badEnd (text : String)
  | reversed (start stop : Nat)
  deriving DecidableEq, Repr

/-- the report for a problem -/
def SpanProblem.message : SpanProblem → String
  | .noRange text => s!"expected START..END, got `{text}`"
  | .badStart text => s!"invalid start offset `{text}`"
  | .badEnd text => s!"invalid end offset `{text}`"
  | .reversed start stop => s!"range end {stop} is before start {start}"

namespace Span

/-- what stands before and after the first two points in a row -/
def splitRange? : List Char → Option (List Char × List Char)
  | '.' :: '.' :: rest => some ([], rest)
  | c :: rest => (splitRange? rest).map fun (before, after) => (c :: before, after)
  | [] => none

/-- an offset with white space around it -/
def typedOffset? (s : List Char) : Option Nat := (readNatural 0xffffffff (Text.trim s)).toOption

/-- the span of a typed text -/
def ofTyped (text : String) : Except SpanProblem Span :=
  match splitRange? text.toList with
  | none => .error (.noRange text)
  | some (before, after) =>
    match typedOffset? before with
    | none => .error (.badStart (String.ofList before))
    | some start =>
      match typedOffset? after with
      | none => .error (.badEnd (String.ofList after))
      | some stop => if stop < start then .error (.reversed start stop) else .ok (Span.of start stop)

end Span

end Arbor
