/-
Loading the tree and the schema that a command names. The schema is read and laid over the built-in table before the
tree is read. The name `-` stands for standard input, which can be read once; a second reading finds it empty.
-/
import Arbor.Document
import Arbor.Schema.Document
import Arbor.Schema.Estree
import Arbor.View.Basic

namespace Arbor.Command

/-- why a file cannot be read -/
inductive ReadProblem where
  | missing
  | denied
  /-- something on the way to the file is no directory -/
  | notADirectory
  /-- the file itself is a directory -/
  | directory
  | nameTooLong
  /-- the bytes of the file are no text -/
  | notText
  deriving DecidableEq, Repr

/-- the report for a problem -/
def ReadProblem.message : ReadProblem → String
  | .missing => "No such file or directory (os error 2)"
  | .denied => "Permission denied (os error 13)"
  | .notADirectory => "Not a directory (os error 20)"
  | .directory => "Is a directory (os error 21)"
  | .nameTooLong => "File name too long (os error 36)"
  | .notText => "stream did not contain valid UTF-8"

/-- what a command can read: the bytes under a file name, and those of standard input -/
structure Sources where
  file : String → Except ReadProblem ByteArray
  input : ByteArray

/-- why a command has nothing to work on -/
inductive InputError where
  | unreadable (name : String) (problem : ReadProblem)
  | schema (name : String) (e : SchemaError)
  | tree (name : String) (e : LoadError)
  deriving DecidableEq, Repr

/-- the report for an input error -/
def InputError.message : InputError → String
  | .unreadable name problem => s!"cannot read {name}: {problem.message}"
  | .schema name e => s!"{name}: {e.message}"
  | .tree name e => s!"{name}: {e.message}"

/-- a loaded document with the schema through which it is read -/
structure Input where
  document : Document
  schema : Schema

/-- the document's tree read through the schema -/
def Input.view (i : Input) : View := ⟨i.document.tree, i.schema⟩

/-- the text of bytes in UTF-8 -/
def textOf (name : String) (bytes : ByteArray) : Except InputError String :=
  match String.fromUTF8? bytes with
  | some text => .ok text
  | none => .error (.unreadable name .notText)

/-- the text under a name, and what can be read after it -/
def Sources.read (sources : Sources) (name : String) : Except InputError (String × Sources) :=
  if name = "-" then
    (textOf name sources.input).map fun text => (text, { sources with input := ByteArray.empty })
  else
    match sources.file name with
    | .error problem => .error (.unreadable name problem)
    | .ok bytes => (textOf name bytes).map fun text => (text, sources)

/-- the schema of a schema file: its entries laid over the built-in table -/
def overlaySchema (name text : String) : Except InputError Schema :=
  match Catalog.parse text with
  | .error e => .error (.schema name e)
  | .ok overlay => .ok ((Catalog.ofTable Estree.table).extend overlay).toSchema

/-- the schema under a name, the built-in one without a name, and what can be read after it -/
def Sources.readSchema (sources : Sources) : Option String → Except InputError (Schema × Sources)
  | none => .ok (Estree.schema, sources)
  | some name => do
    let (text, sources) ← sources.read name
    let schema ← overlaySchema name text
    return (schema, sources)

/-- load the schema, then the document -/
def load (sources : Sources) (file : String) (schema : Option String) : Except InputError Input := do
  let (schema, sources) ← sources.readSchema schema
  let (text, _) ← sources.read file
  match Document.parse schema text with
  | .error e => .error (.tree file e)
  | .ok document => .ok ⟨document, schema⟩

end Arbor.Command
