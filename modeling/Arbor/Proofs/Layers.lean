/-
Catalogs laid over one another. Laying one catalog over another writes its entries one after the other, each in the place of
an entry for the same kind or at the end. Looking up and the order of the kinds change together in this; but each of them can
be said of the two catalogs alone, and with distinct kinds they fix the catalog.

Every catalog that is put together by the operations on catalogs has distinct kinds, and every catalog with distinct kinds can
be put together (`made_iff`).

- `entries_extend`: an overlay is one list of entries written over another.
- `extend_layers`: the laws of overlays.
-/
import Arbor.Proofs.Conflicts
import Arbor.Proofs.Lookup

namespace Arbor

namespace Catalog

/-- the catalog comes from the operations on catalogs -/
inductive Made : Catalog → Prop
  | empty : Made empty
  | ofTable (t : Table) : Made (ofTable t)
  | ofEntries {entries : List SchemaEntry} {c : Catalog} (h : ofEntries entries = .ok c) : Made c
  | insert {c : Catalog} (h : Made c) (kind : String) (fields : List Field) : Made (c.insert kind fields)
  | extend {c other : Catalog} (h : Made c) (hother : Made other) : Made (c.extend other)

theorem entries_extend (c other : Catalog) : (c.extend other).entries = c.entries.putAll other.entries :=
  congrArg Catalog.entries (foldl_insert other.entries c)

/-! ## Distinct kinds -/

theorem Made.nodup {c : Catalog} (h : c.Made) : c.entries.keys.Nodup := by
  induction h with
  | empty => exact List.nodup_nil
  | ofTable t =>
    have hnil : (Keyed.keys ([] : Keyed String (List Field))).Nodup := List.nodup_nil
    rw [ofTable_eq]
    exact Keyed.nodup_keys_putAll hnil t.entries.toList
  | ofEntries h =>
    obtain ⟨hconsistent, rfl⟩ := ofEntries_eq_ok_iff.1 h
    rw [keys_listing]
    exact hconsistent.kinds
  | insert h kind fields ih => exact Keyed.nodup_keys_alter ih kind _
  | extend h hother ih ihother =>
    rw [entries_extend]
    exact Keyed.nodup_keys_putAll ih _

theorem Made.putAll {c : Catalog} (h : c.Made) (entries : Keyed String (List Field)) : Made ⟨c.entries.putAll entries⟩ := by
  induction entries generalizing c with
  | nil => exact h
  | cons p rest ih => exact ih (h.insert p.1 p.2)

/-- **The catalogs that can be put together** are those with distinct kinds. -/
theorem made_iff {c : Catalog} : c.Made ↔ c.entries.keys.Nodup := by
  refine ⟨Made.nodup, fun h => ?_⟩
  have hmade := Made.empty.putAll c.entries
  rwa [show empty.entries.putAll c.entries = c.entries from Keyed.putAll_nil_of_nodup h] at hmade

/-! ## Laws -/

/-- catalogs with the same entries are the same -/
theorem eq_of_entries {a b : Catalog} (h : a.entries = b.entries) : a = b := congrArg Catalog.mk h

theorem get?_extend (a : Catalog) {b : Catalog} (hb : b.Made) (kind : String) :
    (a.extend b).get? kind = (b.get? kind).or (a.get? kind) := by
  rw [get?, entries_extend, Keyed.get?_putAll _ hb.nodup]
  rfl

theorem empty_extend {a : Catalog} (ha : a.Made) : empty.extend a = a := by
  apply eq_of_entries
  rw [entries_extend]
  exact Keyed.putAll_nil_of_nodup ha.nodup

theorem extend_assoc {a b c : Catalog} (ha : a.Made) (hb : b.Made) (hc : c.Made) :
    (a.extend b).extend c = a.extend (b.extend c) := by
  apply eq_of_entries
  simp only [entries_extend]
  exact Keyed.putAll_assoc ha.nodup hb.nodup hc.nodup

theorem extend_twice {a b : Catalog} (ha : a.Made) (hb : b.Made) : (a.extend b).extend b = a.extend b := by
  apply eq_of_entries
  simp only [entries_extend]
  exact Keyed.putAll_twice ha.nodup hb.nodup

/-! ## Main result -/

/-- **Overlays.** For all catalogs that come from the operations on catalogs:
- in an overlay of `b` over `a` a kind has the fields that `b` gives it, and if `b` does not have the kind, those that `a`
  gives it;
- its kinds are those of `a` in their places and then those of `b` that `a` lacks, in the order of `b`, and each of them stands
  there with the fields that are found under it;
- an overlay of an overlay is the same in either grouping, the empty catalog changes nothing over or under another, and what
  is laid over a second time changes nothing either. The order of the kinds is the same as well. -/
theorem extend_layers (a b c : Catalog) (ha : a.Made) (hb : b.Made) (hc : c.Made) :
    (∀ kind, (a.extend b).get? kind = (b.get? kind).or (a.get? kind)) ∧
    (a.extend b).entries.keys = a.entries.keys ++ b.entries.keys.filter (· ∉ a.entries.keys) ∧
    (∀ kind fields, (kind, fields) ∈ (a.extend b).entries ↔ (a.extend b).get? kind = some fields) ∧
    (a.extend b).extend c = a.extend (b.extend c) ∧
    empty.extend a = a ∧ a.extend empty = a ∧ (a.extend b).extend b = a.extend b := by
  refine ⟨get?_extend a hb, ?_, fun kind fields => ?_, extend_assoc ha hb hc, empty_extend ha, extend_empty a,
    extend_twice ha hb⟩
  · rw [entries_extend, Keyed.keys_putAll _ hb.nodup]
  · exact (Keyed.get?_eq_some_iff (ha.extend hb).nodup).symm

/-- kinds of statements -/
def statementLayer : Catalog :=
  ⟨[("Block", [⟨"body", .many⟩]), ("If", [⟨"test", .single⟩, ⟨"then", .single⟩]), ("Return", [⟨"argument", .optional⟩])]⟩

/-- loops, and another way to write down a condition -/
def loopLayer : Catalog :=
  ⟨[("Loop", [⟨"body", .single⟩]), ("If", [⟨"test", .single⟩, ⟨"then", .single⟩, ⟨"else", .optional⟩])]⟩

/-- labels, and loops and blocks that can have one -/
def labelLayer : Catalog :=
  ⟨[("Label", []), ("Loop", [⟨"label", .optional⟩, ⟨"body", .single⟩]), ("Block", [⟨"label", .optional⟩, ⟨"body", .many⟩])]⟩

/-- Three layers each of which gives a kind anew and brings a new one: in either grouping the kinds of the first come first, and
every kind has the fields of the last layer that gives it some. -/
theorem extend_layers_statements :
    statementLayer.Made ∧ loopLayer.Made ∧ labelLayer.Made ∧
    (statementLayer.extend loopLayer).extend labelLayer = statementLayer.extend (loopLayer.extend labelLayer) ∧
    (statementLayer.extend loopLayer).entries.keys = ["Block", "If", "Return", "Loop"] ∧
    ((statementLayer.extend loopLayer).extend labelLayer).entries.keys = ["Block", "If", "Return", "Loop", "Label"] ∧
    (statementLayer.extend loopLayer).get? "If" = loopLayer.get? "If" ∧
    (statementLayer.extend loopLayer).get? "Return" = statementLayer.get? "Return" ∧
    (statementLayer.extend loopLayer).extend loopLayer = statementLayer.extend loopLayer := by
  have hstatements : statementLayer.Made := made_iff.2 (by decide)
  have hloops : loopLayer.Made := made_iff.2 (by decide)
  have hlabels : labelLayer.Made := made_iff.2 (by decide)
  obtain ⟨hget, hkeys, -, hassoc, -, -, htwice⟩ := extend_layers _ _ _ hstatements hloops hlabels
  obtain ⟨-, hkeys', -⟩ := extend_layers _ _ _ (hstatements.extend hloops) hlabels hlabels
  exact ⟨hstatements, hloops, hlabels, hassoc, hkeys.trans (by decide), hkeys'.trans (by rw [hkeys]; decide), hget "If",
    hget "Return", htwice⟩

end Catalog

end Arbor
