/-
Position look-ups over a token list in order of start. Tokens do not overlap, so each of the tests below splits the
list in two, and the look-ups are binary searches.
-/
import Arbor.Lookup
import Arbor.Token.Basic

namespace Arbor

/-- tokens in order of their starts -/
structure TokenIndex where
  tokens : Array Token
  deriving DecidableEq, Repr, Inhabited

namespace TokenIndex

/-- the index of a token list; tokens with the same start keep their order -/
def ofList (tokens : List Token) : TokenIndex :=
  ⟨(tokens.mergeSort fun a b => a.span.start ≤ b.span.start).toArray⟩

/-- number of tokens -/
def size (index : TokenIndex) : Nat := index.tokens.size

/-- there is no token -/
def isEmpty (index : TokenIndex) : Bool := index.tokens.isEmpty

/-- all tokens in order -/
def toList (index : TokenIndex) : List Token := index.tokens.toList

/-- the token at a place of the list -/
def get? (index : TokenIndex) (i : Nat) : Option Token := index.tokens[i]?

/-- the token after the one at a place -/
def next? (index : TokenIndex) (i : Nat) : Option Token := index.get? (i + 1)

/-- the token before the one at a place -/
def previous? (index : TokenIndex) : Nat → Option Token
  | 0 => none
  | i + 1 => index.get? i

/-! ## Positions -/

/-- number of tokens that start before the position -/
def startsBefore (index : TokenIndex) (pos : Nat) : Nat := partitionPoint index.tokens fun t => t.span.start < pos

/-- tokens that end at or before the position -/
def before (index : TokenIndex) (pos : Nat) : List Token :=
  index.toList.take (partitionPoint index.tokens fun t => t.span.stop ≤ pos)

/-- tokens that start at or after the position -/
def after (index : TokenIndex) (pos : Nat) : List Token := index.toList.drop (index.startsBefore pos)

/-- the place of the first token that starts at or after the position -/
def placeAfter? (index : TokenIndex) (pos : Nat) : Option Nat :=
  let i := index.startsBefore pos
  if i < index.size then some i else none

/-- the token that covers the position, with its place -/
def at? (index : TokenIndex) (pos : Nat) : Option (Nat × Token) :=
  match partitionPoint index.tokens fun t => t.span.start ≤ pos with
  | 0 => none
  | i + 1 => (index.get? i).bind fun t => if t.span.covers pos then some (i, t) else none

/-! ## Ranges -/

/-- tokens that lie within the span: from the first that does not start before it, as long as they are inside -/
def within (index : TokenIndex) (range : Span) : List Token :=
  let later := index.tokens.extract (index.startsBefore range.start) index.size
  later.toList.take (partitionPoint later fun t => range.contains t.span)

/-- tokens that lie between two positions; reversed positions hold only what fits into the empty span at the first -/
def inRange (index : TokenIndex) (start stop : Nat) : List Token := index.within (.of start stop)

/-- the first token within the span -/
def firstOf? (index : TokenIndex) (range : Span) : Option Token := (index.within range).head?

/-- the last token within the span -/
def lastOf? (index : TokenIndex) (range : Span) : Option Token := (index.within range).getLast?

/-- distance from the end of the token at a place to the start of the next one, zero where either is missing -/
def gapAfter (index : TokenIndex) (i : Nat) : Nat :=
  match index.get? i, index.next? i with
  | some t, some next => next.span.start - t.span.stop
  | _, _ => 0

end TokenIndex

end Arbor
