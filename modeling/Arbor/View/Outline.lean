/-
Trees printed as nested lists, one line for each node:

    (Program
      body[0]: (ExpressionStatement
        expression: (BinaryExpression operator="+"
          left: (Identifier name="a")
          right: (Identifier name="b"))))

The lines are collected by one walk. A line closes its own list and the lists around it that the next line is no longer
part of, and the last line closes them all; so the number of closing parentheses follows from the depths alone.
-/
import Arbor.Text.Style
import Arbor.View.Walk

namespace Arbor

/-- what an outline shows -/
structure OutlineStyle where
  /-- the range after every kind -/
  spans : Bool := false
  /-- the attributes of every node -/
  attrs : Bool := true
  palette : Palette := .plain
  deriving DecidableEq, Repr, Inhabited

/-- a node to be printed, with its depth and the label of the slot that holds it -/
structure OutlineRow where
  depth : Nat
  field : Option String
  index : Option Nat
  ref : NodeRef
  deriving DecidableEq, Repr

namespace Outline

/-- the label of a child, `body[0]: ` -/
def label (p : Palette) : Option String → Option Nat → String
  | none, _ => ""
  | some field, none => p.dim ++ field ++ ":" ++ p.reset ++ " "
  | some field, some i => p.dim ++ field ++ s!"[{i}]" ++ ":" ++ p.reset ++ " "

/-- an attribute, ` name="a"` -/
def attrText (p : Palette) (name : String) : Scalar → String
  | .string s => " " ++ name ++ "=" ++ p.string ++ (Scalar.string s).text ++ p.reset
  | value => " " ++ name ++ "=" ++ value.text

/-- the opening parenthesis of a node with its kind, range and attributes -/
def header (style : OutlineStyle) (t : Tree) (ref : NodeRef) : Except Fault String := do
  let p := style.palette
  let range := if style.spans then " " ++ p.dim ++ s!"[{ref.node.span.text}]" ++ p.reset else ""
  let attrs ← if style.attrs then t.named ref.node.attrs else pure []
  let shown := String.join (attrs.map fun (name, value) => attrText p name value)
  return "(" ++ p.kind ++ ref.kind ++ p.reset ++ range ++ shown

/-- the line of a node without its closing parentheses, and its depth -/
def line (style : OutlineStyle) (t : Tree) (row : OutlineRow) : Except Fault (Nat × String) := do
  let header ← header style t row.ref
  return (row.depth, Text.indent row.depth ++ label style.palette row.field row.index ++ header)

/-- the lines with their closing parentheses -/
def close : List (Nat × String) → String
  | [] => ""
  | [(depth, text)] => text ++ String.ofList (List.replicate (depth + 1) ')') ++ "\n"
  | (depth, text) :: (next, other) :: rest =>
    let closing := if depth < next then 0 else depth + 1 - next
    text ++ String.ofList (List.replicate closing ')') ++ "\n" ++ close ((next, other) :: rest)

end Outline

namespace View

/-- the rows of an outline, in the order of the walk -/
def outlineRows (v : View) (root : Option NodeId) : Except Fault (List OutlineRow) := do
  let rows ← v.walkPath root (fun ref ctx (rows : Array OutlineRow) =>
    (.descend, rows.push ⟨ctx.depth, ctx.field, ctx.index, ref⟩)) #[]
  return rows.toList

/-- the outline of everything below the root -/
def outline (v : View) (root : Option NodeId) (style : OutlineStyle) : Except Fault String := do
  let rows ← v.outlineRows root
  let lines ← rows.mapM (Outline.line style v.tree)
  return Outline.close lines

end View

end Arbor
