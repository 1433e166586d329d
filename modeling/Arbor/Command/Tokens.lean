/-
Listing tokens with their places in the whole list, their ranges, the gaps after them and their operator families. A
listing of a range shows the tokens within it under the places they have in the whole list.
-/
import Arbor.Text.Style
import Arbor.Token.Index
import Arbor.Token.Operator

namespace Arbor.Command

/-- the distance to the next token, if there is any -/
def gapText (gap : Nat) : String := if gap = 0 then "" else s!" +{gap}"

/-- operator families in parentheses, if there are any -/
def familiesText (families : List Operator) : String :=
  if families.isEmpty then "" else "  (" ++ String.intercalate ", " (families.map Operator.name) ++ ")"

/-- a token on a line, with its place in the whole list -/
def tokenLine (index : TokenIndex) (p : Palette) (place : Nat) (t : Token) : String :=
  Text.alignRight 4 (toString place) ++ "  " ++ Text.alignLeft 18 t.kind.name ++ " " ++
    p.string ++ Text.quoted t.value ++ p.reset ++ "  " ++ p.dim ++ s!"[{t.span.text}]" ++ p.reset ++
    gapText (index.gapAfter place) ++ familiesText t.operators

/-- the tokens to list, and the place of the first of them -/
def selectTokens (index : TokenIndex) : Option Span → Nat × List Token
  | none => (0, index.toList)
  | some range => ((index.placeAfter? range.start).getD index.size, index.inRange range.start range.stop)

/-- the lines of the tokens within a range, or of all tokens -/
def tokenLines (index : TokenIndex) (range : Option Span) (p : Palette) : List String :=
  let (first, tokens) := selectTokens index range
  tokens.zipIdx.map fun (t, i) => tokenLine index p (first + i) t

end Arbor.Command
