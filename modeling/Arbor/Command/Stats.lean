/-
Figures of a document: how many nodes are visited and how many are stored, how deep the tree is, how many comments and
tokens there are, and how often each kind occurs, the most frequent first and equally frequent ones by name.
-/
import Arbor.Document
import Arbor.Json.Writer
import Arbor.Text.Style
import Arbor.View.Walk

namespace Arbor.Command

/-- how often a kind occurs -/
structure KindCount where
  kind : String
  count : Nat
  deriving DecidableEq, Repr, Inhabited

/-- the figures of a document -/
structure Stats where
  nodes : Nat
  stored : Nat
  maxDepth : Nat
  comments : Nat
  tokens : Nat
  kinds : List KindCount
  deriving DecidableEq, Repr, Inhabited

/-- figures of the visits so far -/
structure Tally where
  nodes : Nat
  maxDepth : Nat
  kinds : Keyed String Nat
  deriving DecidableEq, Repr, Inhabited

/-- count a visit -/
def Tally.add (t : Tally) (ref : NodeRef) (ctx : Context) : Tally :=
  ⟨t.nodes + 1, max t.maxDepth ctx.depth, t.kinds.alter ref.kind fun count => count.getD 0 + 1⟩

/-- the more frequent kind comes first, of equally frequent ones the lesser name -/
def KindCount.precedes (a b : KindCount) : Bool :=
  if a.count = b.count then !decide (b.kind < a.kind) else decide (b.count < a.count)

/-- the figures of a document that is read through a schema -/
def Stats.collect (doc : Document) (schema : Schema) : Except Fault Stats := do
  let v : View := ⟨doc.tree, schema⟩
  let tally ← v.walkPath doc.tree.root (fun ref ctx t => (.descend, Tally.add t ref ctx)) ⟨0, 0, []⟩
  let kinds := (tally.kinds.map fun (kind, count) => KindCount.mk kind count).mergeSort KindCount.precedes
  return ⟨tally.nodes, doc.tree.size, tally.maxDepth, doc.comments.length, doc.tokens.length, kinds⟩

/-- the figures as JSON -/
def Stats.toJson (s : Stats) : Json.Value :=
  .object [("nodes", .nat s.nodes), ("stored", .nat s.stored), ("max_depth", .nat s.maxDepth),
    ("comments", .nat s.comments), ("tokens", .nat s.tokens),
    ("kinds", .array (s.kinds.map fun k => .object [("kind", .string k.kind), ("count", .nat k.count)]))]

/-- the lines of the kinds, with the counts in a column as wide as the first of them -/
def kindLines (kinds : List KindCount) : List String :=
  match kinds with
  | [] => []
  | first :: _ =>
    let width := (toString first.count).length
    "" :: kinds.map fun k => "  " ++ Text.alignRight width (toString k.count) ++ "  " ++ k.kind

/-- the figures on lines; stored nodes are shown only if some are not visited -/
def Stats.lines (s : Stats) : List String :=
  [s!"nodes      {s.nodes}"] ++ (if s.stored = s.nodes then [] else [s!"stored     {s.stored}"]) ++
    [s!"max depth  {s.maxDepth}", s!"comments   {s.comments}", s!"tokens     {s.tokens}"] ++ kindLines s.kinds

end Arbor.Command
