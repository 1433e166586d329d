/-
Listing the comments of a document with the nodes they are attached to.
-/
import Arbor.Comment.Attach
import Arbor.Json.Writer
import Arbor.Span.Record
import Arbor.Text.Style

namespace Arbor.Command

/-- an attachment on a line, `leading  Identifier#3 [4..5]  Line " x"` -/
def attachmentLine (t : Tree) (p : Palette) (a : Attachment Comment) : Except Fault String := do
  let ref ← t.ref a.node
  return Text.alignLeft 8 a.relation.name ++ " " ++ p.kind ++ ref.kind ++ idText a.node ++ p.reset ++ " " ++
    p.dim ++ s!"[{ref.node.span.text}]" ++ p.reset ++ "  " ++ a.comment.kind.name ++ " " ++ Text.quoted a.comment.text

/-- an attachment as JSON -/
def attachmentJson (t : Tree) (a : Attachment Comment) : Except Fault Json.Value := do
  let ref ← t.ref a.node
  return .object [("relation", .string a.relation.name), ("node", .nat a.node), ("node_kind", .string ref.kind),
    ("node_span", ref.node.span.toJson), ("comment_kind", .string a.comment.kind.name),
    ("comment_span", a.comment.span.toJson), ("text", .string a.comment.text)]

/-- the lines of the attachments -/
def commentLines (v : View) (comments : List Comment) (p : Palette) : Except Fault (List String) := do
  let attached ← v.attachComments v.tree.root comments
  attached.mapM (attachmentLine v.tree p)

/-- the attachments as JSON -/
def commentsJson (v : View) (comments : List Comment) : Except Fault Json.Value := do
  let attached ← v.attachComments v.tree.root comments
  let records ← attached.mapM (attachmentJson v.tree)
  return .array records

end Arbor.Command
