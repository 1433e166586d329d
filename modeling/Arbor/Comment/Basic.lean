/-
Source comments. A comment is not part of the tree; it has a kind, a source range and its text without the delimiters.
-/
import Arbor.Span

namespace Arbor

/-- what a comment is -/
inductive CommentKind where
  | line
  | block
  | hashbang
  | html
  deriving DecidableEq, Repr, Inhabited

namespace CommentKind

/-- the name of the kind -/
def name : CommentKind → String
  | .line => "Line"
  | .block => "Block"
  | .hashbang => "Hashbang"
  | .html => "Html"

/-- the kind of an ESTree tag -/
def ofTag? : String → Option CommentKind
  | "Line" | "CommentLine" => some .line
  | "Block" | "CommentBlock" => some .block
  | "Hashbang" | "Shebang" => some .hashbang
  | "HTMLOpen" | "HTMLClose" => some .html
  | _ => none

end CommentKind

/-- a comment of the source -/
structure Comment where
  kind : CommentKind
  span : Span
  text : String
  deriving DecidableEq, Repr, Inhabited

instance : HasSpan Comment := ⟨Comment.span⟩

/-- how a comment relates to the node it is attached to -/
inductive Relation where
  /-- before the node -/
  | leading
  /-- inside the node, and inside none of its children -/
  | inner
  /-- after the last node -/
  | trailing
  deriving DecidableEq, Repr, Inhabited

/-- the name of the relation -/
def Relation.name : Relation → String
  | .leading => "leading"
  | .inner => "inner"
  | .trailing => "trailing"

end Arbor
