import Arbor.Fault
import Arbor.Span
import Arbor.Lookup
import Arbor.Names
import Arbor.Number.Binary64
import Arbor.Number.Decimal
import Arbor.Text.Concealed
import Arbor.Text.Style
import Arbor.Text.Unstyled
import Arbor.Json.Value
import Arbor.Json.Reader
import Arbor.Json.Scalar
import Arbor.Json.Skip
import Arbor.Json.Parse
import Arbor.Json.Writer
import Arbor.Span.Record
import Arbor.Schema.Field
import Arbor.Schema.Table
import Arbor.Schema.Catalog
import Arbor.Schema.Document
import Arbor.Schema.Estree
import Arbor.Token.Basic
import Arbor.Token.Operator
import Arbor.Token.Index
import Arbor.Comment.Basic
import Arbor.Tree.Basic
import Arbor.Tree.Builder
import Arbor.Tree.Load
import Arbor.Document
import Arbor.View.Basic
import Arbor.View.Cursor
import Arbor.View.Walk
import Arbor.View.Search
import Arbor.View.Position
import Arbor.View.ParentIndex
import Arbor.View.Outline
import Arbor.Comment.Attach
import Arbor.Comment.Map
import Arbor.Number.Integer
import Arbor.Span.Typed
import Arbor.Command.Argument
import Arbor.Command.Usage
import Arbor.Command.Arguments
import Arbor.Command.Input
import Arbor.Command.Find
import Arbor.Command.Folder
import Arbor.Command.Stats
import Arbor.Command.Comments
import Arbor.Command.Tokens
import Arbor.Command.Run
import Arbor.Main
import Arbor.Proofs.Reach
import Arbor.Proofs.Unfold
import Arbor.Proofs.Recursion
import Arbor.Proofs.Visits
import Arbor.Proofs.Order
import Arbor.Proofs.Sweep
import Arbor.Proofs.Nesting
import Arbor.Proofs.Placement
import Arbor.Proofs.Records
import Arbor.Proofs.Layout
import Arbor.Proofs.Sorted
import Arbor.Proofs.Shape
import Arbor.Proofs.Strict
import Arbor.Proofs.Preorder
import Arbor.Proofs.Problems
import Arbor.Proofs.Building
import Arbor.Proofs.Children
import Arbor.Proofs.ParentLinks
import Arbor.Proofs.Lookup
import Arbor.Proofs.Positions
import Arbor.Proofs.FirstSpots
import Arbor.Proofs.Outline
import Arbor.Proofs.TokenLookup
import Arbor.Proofs.Updates
import Arbor.Proofs.LastSpots
import Arbor.Proofs.AfterChildren
import Arbor.Proofs.UsableRange
import Arbor.Proofs.Built
import Arbor.Proofs.Queries
import Arbor.Proofs.Narrowing
import Arbor.Proofs.Histogram
import Arbor.Proofs.Siblings
import Arbor.Proofs.Layers
import Arbor.Proofs.Groups
import Arbor.Proofs.Listing
import Arbor.Proofs.Intervals
import Arbor.Proofs.Interning
import Arbor.Proofs.TypedSpan
import Arbor.Proofs.Reordering
import Arbor.Proofs.TokenTiling
