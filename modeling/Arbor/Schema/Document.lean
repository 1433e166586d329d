/-
Schema documents: JSON arrays of entries, each with a `type` and a list of `fields`; a field has a `name` and may be
`multiple` and `required`.
-/
import Arbor.Json.Parse
import Arbor.Schema.Catalog

namespace Arbor

open Json (Reader)

/-- why a schema document makes no catalog -/
inductive SchemaError where
  /-- it cannot be read -/
  | unreadable (failure : Json.Failure)
  /-- its entries are in conflict -/
  | conflict (conflict : SchemaConflict)
  deriving DecidableEq, Repr

/-- the report for a schema error -/
def SchemaError.message : SchemaError → String
  | .unreadable failure => s!"schema JSON parse error: {failure.message}"
  | .conflict c => c.message

namespace Field

/-- the parts of a field record that were given so far -/
structure Draft where
  name : Option String
  multiple : Option Bool
  required : Option Bool

/-- what follows a key of a field record -/
def Draft.member (key : String) (d : Draft) : Reader Draft := do
  if key = "name" then return { d with name := ← Reader.once d.name Reader.text }
  else if key = "multiple" then return { d with multiple := ← Reader.once d.multiple Reader.flag }
  else if key = "required" then return { d with required := ← Reader.once d.required Reader.flag }
  else do
    Reader.mark ':'
    Reader.skip
    return d

/-- the field of a record that has a name -/
def Draft.finish (d : Draft) : Reader Field := do
  return ⟨← Reader.given d.name, ⟨d.multiple.getD false, d.required.getD false⟩⟩

/-- the parts of a field record in order -/
def inOrder : Reader Field := do
  let name ← Reader.given (← Reader.nextItem? true Reader.text)
  let multiple ← Reader.nextItem? false Reader.flag
  let required ← Reader.nextItem? false Reader.flag
  return ⟨name, ⟨multiple.getD false, required.getD false⟩⟩

/-- a field record -/
def reader : Reader Field := Reader.record inOrder Draft.member ⟨none, none, none⟩ Draft.finish

end Field

namespace SchemaEntry

/-- the parts of an entry record that were given so far -/
structure Draft where
  kind : Option String
  fields : Option (List Field)

/-- what follows a key of an entry record -/
def Draft.member (key : String) (d : Draft) : Reader Draft := do
  if key = "type" then return { d with kind := ← Reader.once d.kind Reader.text }
  else if key = "fields" then return { d with fields := ← Reader.once d.fields (Reader.list Field.reader) }
  else do
    Reader.mark ':'
    Reader.skip
    return d

/-- the entry of a record that has a kind -/
def Draft.finish (d : Draft) : Reader SchemaEntry := do
  return ⟨← Reader.given d.kind, d.fields.getD []⟩

/-- the parts of an entry record in order -/
def inOrder : Reader SchemaEntry := do
  let kind ← Reader.given (← Reader.nextItem? true Reader.text)
  let fields ← Reader.nextItem? false (Reader.list Field.reader)
  return ⟨kind, fields.getD []⟩

/-- an entry record -/
def reader : Reader SchemaEntry := Reader.record inOrder Draft.member ⟨none, none⟩ Draft.finish

/-- the entries of a schema document -/
def parseAll (text : String) : Except Json.Failure (List SchemaEntry) := (Reader.list reader).run text

end SchemaEntry

/-- the catalog of a schema document -/
def Catalog.parse (text : String) : Except SchemaError Catalog :=
  match SchemaEntry.parseAll text with
  | .error e => .error (.unreadable e)
  | .ok entries =>
    match ofEntries entries with
    | .error e => .error (.conflict e)
    | .ok c => .ok c

end Arbor
