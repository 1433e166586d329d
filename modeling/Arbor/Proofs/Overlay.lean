/-
The schemas that a command can read. Each of them is the built-in table, or a copy of it with the entries of a schema file laid
over. Whatever the file says, no kind lists a field twice: the table does not, a file whose entry does is refused, and laying
one catalog over another takes each kind's fields whole from one of them.

- `ofEntries_distinct`: entries that make a catalog are consistent.
- `extend_distinct`: an overlay takes each list of fields whole.
- `load_ofValue`: what a command has loaded is a tree that was read from a value with a schema of this kind, and the tree is
  viewed through the same schema.
- `readSchema_overlaid`, `load_read`: the other way round, a file that makes a catalog is laid over the table, and a text that
  makes a document with the schema that was read is loaded with it.
-/
import Arbor.Proofs.Conflicts
import Arbor.Proofs.Layout
import Arbor.Proofs.Lookup

namespace Arbor

/-- a step that was taken gave its result -/
theorem bind_eq_ok {α β ε : Type} {first : Except ε α} {next : α → Except ε β} {b : β} (h : first >>= next = .ok b) :
    ∃ a, first = .ok a ∧ next a = .ok b := by
  cases first with
  | error e => cases h
  | ok a => exact ⟨a, rfl, h⟩

namespace Catalog

/-- no kind of the catalog lists a field twice -/
def Distinct (c : Catalog) : Prop := ∀ p ∈ c.entries, (p.2.map Field.name).Nodup

theorem Distinct.insert {c : Catalog} (h : c.Distinct) (kind : String) {fields : List Field}
    (hfields : (fields.map Field.name).Nodup) : (c.insert kind fields).Distinct := by
  intro p hp
  rcases Keyed.mem_alter hp with hp | rfl | ⟨old, -, rfl⟩
  · exact h p hp
  · exact hfields
  · exact hfields

/-- the fields of a kind are one of the lists of the catalog -/
theorem Distinct.toSchema {c : Catalog} (h : c.Distinct) : c.toSchema.Distinct := by
  intro kind
  show (((c.get? kind).getD []).map Field.name).Nodup
  cases hget : c.get? kind with
  | none => exact List.nodup_nil
  | some fields => exact h (kind, fields) (Keyed.mem_of_get? hget)

/-! ## Entries of a file -/

theorem ofEntries_distinct {entries : List SchemaEntry} {c : Catalog} (h : ofEntries entries = .ok c) : c.Distinct := by
  obtain ⟨hconsistent, rfl⟩ := ofEntries_eq_ok_iff.1 h
  intro p hp
  obtain ⟨e, he, rfl⟩ := List.mem_map.1 hp
  exact hconsistent.fields e he

theorem parse_distinct {text : String} {c : Catalog} (h : Catalog.parse text = .ok c) : c.Distinct := by
  unfold Catalog.parse at h
  split at h
  · cases h
  · split at h
    · cases h
    · rename_i hentries
      cases h
      exact ofEntries_distinct hentries

/-! ## Overlays -/

theorem extend_distinct {c other : Catalog} (h : c.Distinct) (hother : other.Distinct) : (c.extend other).Distinct := by
  obtain ⟨entries⟩ := other
  unfold extend
  induction entries generalizing c with
  | nil => exact h
  | cons p rest ih =>
    have hp := hother p List.mem_cons_self
    exact ih (h.insert p.1 hp) fun q hq => hother q (List.mem_cons_of_mem p hq)

theorem ofTable_distinct : (ofTable Estree.table).Distinct := by
  rw [Distinct, entries_ofTable estree_sorted]
  decide +kernel

end Catalog

/-! ## What a command reads -/

theorem estree_distinct : Estree.schema.Distinct := by
  have hcopy : Estree.schema = (Catalog.ofTable Estree.table).toSchema := (Catalog.toSchema_ofTable estree_sorted).symm
  rw [hcopy]
  exact Catalog.ofTable_distinct.toSchema

namespace Command

theorem overlaySchema_distinct {name text : String} {schema : Schema} (h : overlaySchema name text = .ok schema) :
    schema.Distinct := by
  unfold overlaySchema at h
  split at h
  · cases h
  · rename_i overlay hparse
    cases h
    exact (Catalog.extend_distinct Catalog.ofTable_distinct (Catalog.parse_distinct hparse)).toSchema

theorem readSchema_distinct {sources rest : Sources} {name : Option String} {schema : Schema}
    (h : sources.readSchema name = .ok (schema, rest)) : schema.Distinct := by
  cases name with
  | none =>
    cases h
    exact estree_distinct
  | some name =>
    obtain ⟨⟨text, later⟩, -, h⟩ := bind_eq_ok h
    obtain ⟨overlaid, hoverlay, h⟩ := bind_eq_ok h
    cases h
    exact overlaySchema_distinct hoverlay

theorem parse_ofValue {schema : Schema} {text : String} {doc : Document} (h : Document.parse schema text = .ok doc) :
    ∃ value, Tree.ofValue schema value = .ok doc.tree := by
  unfold Document.parse Document.ofValue at h
  split at h
  · cases h
  · rename_i value _
    split at h
    · cases h
    · rename_i tree htree
      refine ⟨value, ?_⟩
      dsimp only at h
      split at h
      · cases h
      · split at h
        · cases h
        · cases h
          exact htree

/-- **What a command loads.** The tree was read from a value with the schema through which it is viewed, and this schema lists
no field twice. -/
theorem load_ofValue {sources : Sources} {file : String} {name : Option String} {input : Input}
    (h : load sources file name = .ok input) :
    input.schema.Distinct ∧ ∃ value, Tree.ofValue input.schema value = .ok input.document.tree := by
  obtain ⟨⟨schema, later⟩, hschema, h⟩ := bind_eq_ok h
  obtain ⟨⟨text, rest⟩, -, h⟩ := bind_eq_ok h
  dsimp only at h
  split at h
  · cases h
  · rename_i document hparse
    cases h
    exact ⟨readSchema_distinct hschema, parse_ofValue hparse⟩

/-! ## Inputs that are accepted -/

theorem textOf_toUTF8 (name text : String) : textOf name text.toUTF8 = .ok text := by
  have hvalid : text.toUTF8.IsValidUTF8 := text.isValidUTF8
  rw [textOf, String.fromUTF8?, dif_pos hvalid]
  rfl

section Loads

variable {sources rest later : Sources} {name text : String}

theorem read_input (sources : Sources) (h : sources.input = text.toUTF8) :
    sources.read "-" = .ok (text, ⟨sources.file, ByteArray.empty⟩) := by
  rw [Sources.read, if_pos rfl, h, textOf_toUTF8]
  rfl

theorem read_file (hname : name ≠ "-") (h : sources.file name = .ok text.toUTF8) :
    sources.read name = .ok (text, sources) := by
  rw [Sources.read, if_neg hname, h]
  simp only [textOf_toUTF8]
  rfl

theorem readSchema_overlaid {overlay : Catalog} (hread : sources.read name = .ok (text, rest))
    (hparse : Catalog.parse text = .ok overlay) :
    sources.readSchema (some name) = .ok (((Catalog.ofTable Estree.table).extend overlay).toSchema, rest) := by
  simp only [Sources.readSchema, hread, overlaySchema, hparse, bind, Except.bind, pure, Except.pure]

theorem load_read {schemaName : Option String} {schema : Schema} {document : Document}
    (hschema : sources.readSchema schemaName = .ok (schema, rest)) (hread : rest.read name = .ok (text, later))
    (hdoc : Document.parse schema text = .ok document) : load sources name schemaName = .ok ⟨document, schema⟩ := by
  simp only [load, hschema, hread, hdoc, bind, Except.bind]

end Loads

end Command

end Arbor
