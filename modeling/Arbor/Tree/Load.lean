/-
Loading a tree from a JSON value. An object with a `type` string is a node; its range comes from the numbers `start` and
`end`, or from a pair under `range`. The properties that the schema lists for the kind become child slots: an object is
a child, `null` or a missing property is no child, an array is a sequence in which `null` is a hole. The other
properties with an undivided value become attributes, in the order of their names.

A parent is allocated before its children, so ids follow the order in which the nodes are visited. Names are interned as
they are first needed: the kind when the node is allocated, a field when its slot is written, which is after the whole
subtree below it was loaded, and attributes at the end.
-/
import Arbor.Json.Value
import Arbor.Schema.Field
import Arbor.Tree.Builder

namespace Arbor

open Json (Value member?)

/-- a step from a JSON value into one of its parts -/
inductive PathStep where
  | field (name : String)
  | index (i : Nat)
  deriving DecidableEq, Repr

/-- how a path is printed, `$.body[0].test` -/
def pathText (path : List PathStep) : String :=
  "$" ++ String.join (path.map fun
    | .field name => "." ++ name
    | .index i => s!"[{i}]")

/-- why a JSON value is no tree -/
inductive TreeError where
  /-- no object with a `type` string where a node was expected -/
  | missingType (path : List PathStep)
  /-- a node without a usable range -/
  | invalidSpan (kind : String) (path : List PathStep)
  /-- a child field with a value that cannot be a node -/
  | notANode (kind field : String)
  deriving DecidableEq, Repr

/-- the report for a tree error -/
def TreeError.message : TreeError → String
  | .missingType path => s!"expected a node object with a `type` string at `{pathText path}`"
  | .invalidSpan kind path => s!"node `{kind}` at `{pathText path}` has no usable `start`/`end` or `range`"
  | .notANode kind field => s!"field `{field}` of `{kind}` holds a non-node value"

namespace Load

/-! ## Parts of a node -/

/-- a source offset: an integer from 0 to 2^32 - 1 -/
def offset? (v : Value) : Option Nat := v.asNat?.bind fun n => if n < 0x100000000 then some n else none

/-- the range between two offsets -/
def spanBetween? (start stop : Value) : Option Span := do
  let s ← offset? start
  let e ← offset? stop
  return Span.of s e

/-- the range of an object: from `start` and `end` if both are there, else from the pair under `range` -/
def spanOf? (members : List (String × Value)) : Option Span :=
  match member? members "start", member? members "end" with
  | some start, some stop => spanBetween? start stop
  | _, _ =>
    match member? members "range" with
    | some (.array [start, stop]) => spanBetween? start stop
    | _ => none

/-- the `type` of an object -/
def kindOf? (members : List (String × Value)) : Option String := (member? members "type").bind Value.asString?

/-- the attribute value of an undivided JSON value -/
def scalarOf? : Value → Option Scalar
  | .null => some .null
  | .bool b => some (.bool b)
  | .number n => some (.number n.toBinary64)
  | .string s => some (.string s)
  | .array _ | .object _ => none

/-- properties that never become attributes -/
def reserved : List String := ["type", "start", "end", "range", "loc", "comments", "tokens"]

/-- the attributes of a node: its undivided properties that are neither reserved nor child fields -/
def attributes (fields : List Field) (members : List (String × Value)) : List (String × Scalar) :=
  members.filterMap fun (key, v) =>
    if reserved.contains key || fields.any fun f => f.name == key then none
    else (scalarOf? v).map fun scalar => (key, scalar)

/-- write attributes in order -/
def setAttributes (b : Builder) (id : NodeId) (attrs : List (String × Scalar)) : Builder :=
  attrs.foldl (fun b (name, value) => (b.setAttr id name value).1) b

/-- the slot of a field whose value is missing or `null` -/
def absentSlot (f : Field) : Slot := if f.isSequence then .sequence [] else .optional none

/-- the slot of a field whose value is one node -/
def presentSlot (f : Field) (child : NodeId) : Slot :=
  if f.cardinality.required && !f.isSequence then .node child else .optional (some child)

/-! ## Nodes -/

theorem sizeOf_member?_lt {members : List (String × Value)} {key : String} {v : Value}
    (h : member? members key = some v) : sizeOf v < sizeOf members := by
  induction members with
  | nil => simp [member?] at h
  | cons m rest ih =>
    obtain ⟨k, w⟩ := m
    simp only [member?] at h
    split at h
    · cases h
      simp +arith
    · have := ih h
      simp +arith
      omega

mutual

/-- load the value at a path as a node and everything below it; the node's id and the builder after it -/
def node (schema : Schema) (path : List PathStep) (v : Value) (b : Builder) : Except TreeError (NodeId × Builder) :=
  match v with
  | .object members =>
    match kindOf? members with
    | none => .error (.missingType path)
    | some kind =>
      match spanOf? members with
      | none => .error (.invalidSpan kind path)
      | some span =>
        let fields := schema.fieldsOf kind
        let (b, id) := b.node kind span
        match slots schema path kind members id fields b with
        | .error e => .error e
        | .ok b => .ok (id, setAttributes b id (attributes fields members))
  | _ => .error (.missingType path)
termination_by (sizeOf v, 0)

/-- load the values of the given fields of a node and write their slots, in order -/
def slots (schema : Schema) (path : List PathStep) (kind : String) (members : List (String × Value)) (id : NodeId)
    (fields : List Field) (b : Builder) : Except TreeError Builder :=
  match fields with
  | [] => .ok b
  | f :: rest =>
    let here := path ++ [.field f.name]
    match h : member? members f.name with
    | none | some .null => slots schema path kind members id rest (b.setSlot id f.name (absentSlot f)).1
    | some (.object child) =>
      have := sizeOf_member?_lt h
      match node schema here (.object child) b with
      | .error e => .error e
      | .ok (c, b) => slots schema path kind members id rest (b.setSlot id f.name (presentSlot f c)).1
    | some (.array values) =>
      have := sizeOf_member?_lt h
      match items schema here 0 values b with
      | .error e => .error e
      | .ok (children, b) => slots schema path kind members id rest (b.setSlot id f.name (.sequence children)).1
    | some _ => .error (.notANode kind f.name)
termination_by (sizeOf members, fields.length)
decreasing_by
  all_goals simp_wf
  all_goals simp only [Prod.lex_def]
  all_goals first
    | (right; exact ⟨trivial, Nat.lt_succ_self _⟩)
    | (left; simp at this ⊢; omega)

/-- load the values of a sequence from place `i` on; `null` is a hole -/
def items (schema : Schema) (path : List PathStep) (i : Nat) (values : List Value) (b : Builder) :
    Except TreeError (List (Option NodeId) × Builder) :=
  match values with
  | [] => .ok ([], b)
  | .null :: rest =>
    match items schema path (i + 1) rest b with
    | .error e => .error e
    | .ok (children, b) => .ok (none :: children, b)
  | v :: rest =>
    match node schema (path ++ [.index i]) v b with
    | .error e => .error e
    | .ok (c, b) =>
      match items schema path (i + 1) rest b with
      | .error e => .error e
      | .ok (children, b) => .ok (some c :: children, b)
termination_by (sizeOf values, 0)

end

end Load

/-- the tree of a JSON value -/
def Tree.ofValue (schema : Schema) (v : Value) : Except TreeError Tree :=
  match Load.node schema [] v .empty with
  | .error e => .error e
  | .ok (root, b) => .ok ⟨b.names, b.nodes, some root⟩

end Arbor
