/-
A schema that is put together at run time: kinds with their fields in the order in which the kinds were first given.
A catalog can be made from the entries of a schema document, which may name each kind once and each field of a kind
once; it can be a copy of a table; and one catalog can be laid over another.
-/
import Arbor.Lookup
import Arbor.Schema.Table

namespace Arbor

/-- node kinds with their fields, in order of first mention -/
structure Catalog where
  entries : Keyed String (List Field)
  deriving DecidableEq, Repr, Inhabited

/-- one kind of a schema document -/
structure SchemaEntry where
  kind : String
  fields : List Field
  deriving DecidableEq, Repr, Inhabited

/-- why the entries of a schema document make no catalog -/
inductive SchemaConflict where
  /-- a kind has two entries -/
  | duplicateKind (kind : String)
  /-- an entry names a field twice -/
  | duplicateField (kind field : String)
  deriving DecidableEq, Repr

/-- the report for a conflict -/
def SchemaConflict.message : SchemaConflict → String
  | .duplicateKind kind => s!"duplicate schema entry for node kind `{kind}`"
  | .duplicateField kind field => s!"node kind `{kind}` declares field `{field}` more than once"

namespace Catalog

/-- no kind yet -/
def empty : Catalog := ⟨[]⟩

/-- the fields of a kind -/
def get? (c : Catalog) (kind : String) : Option (List Field) := c.entries.get? kind

/-- give a kind its fields; a kind that is there keeps its place -/
def insert (c : Catalog) (kind : String) (fields : List Field) : Catalog := ⟨c.entries.put kind fields⟩

/-- lay the entries of `other` over those of `c` -/
def extend (c other : Catalog) : Catalog := other.entries.foldl (fun c (kind, fields) => c.insert kind fields) c

/-- number of kinds -/
def size (c : Catalog) : Nat := c.entries.length

/-- there is no kind -/
def isEmpty (c : Catalog) : Bool := c.entries.isEmpty

/-- a copy of a table -/
def ofTable (t : Table) : Catalog := t.entries.foldl (fun c (kind, fields) => c.insert kind fields) empty

/-- the catalog as a schema -/
def toSchema (c : Catalog) : Schema := ⟨c.get?⟩

/-! ## From a schema document -/

/-- the first field whose name occurs among those before it, which are in `seen` -/
def repeatedField? (seen : List Field) : List Field → Option Field
  | [] => none
  | f :: rest => if seen.any fun g => g.name == f.name then some f else repeatedField? (seen ++ [f]) rest

/-- add one entry of a document; its own fields are looked at before its kind -/
def addEntry (c : Catalog) (entry : SchemaEntry) : Except SchemaConflict Catalog :=
  match repeatedField? [] entry.fields with
  | some f => .error (.duplicateField entry.kind f.name)
  | none =>
    if (c.get? entry.kind).isSome then .error (.duplicateKind entry.kind)
    else .ok (c.insert entry.kind entry.fields)

/-- the catalog of the entries of a document, or its first conflict -/
def ofEntries (entries : List SchemaEntry) : Except SchemaConflict Catalog := entries.foldlM addEntry empty

end Catalog

end Arbor
