/-
Two ways to look up a kind. A table is searched by halving, which relies on the order of its kinds; a catalog is a list in
the order in which the kinds were given. A sorted table and the catalog that copies it know the same kinds and give them
the same fields, so nothing that reads through a schema can tell them apart.

- `bisect_spec`: where the test goes right on a first part of the window and on nothing after it, bisection ends at the
  last position of that part.
- `Table.get?_eq_some_iff`: a sorted table finds exactly the entries it has.
- `Catalog.get?_ofTable`: the copy of a sorted table finds the same.
- `tables_and_catalogs_interchangeable`: through either of them everything is loaded and walked alike; the built-in table
  is sorted.
-/
import Arbor.Command.Input
import Arbor.Proofs.Records
import Arbor.View.Walk

namespace Arbor

/-! ## Bisection -/

/-- **Where bisection ends.** All that comes after it in the window is sent left; it is sent right itself, unless it is the
base, which is never tested. -/
theorem bisect_spec {right : Nat → Bool} (hsplit : ∀ i j, i ≤ j → right j = true → right i = true) (base size : Nat)
    (hsize : 0 < size) :
    base ≤ bisect right base size ∧ bisect right base size < base + size ∧
      (bisect right base size = base ∨ right (bisect right base size) = true) ∧
      ∀ i, bisect right base size < i → i < base + size → right i = false := by
  fun_induction bisect right base size with
  | case1 base size hlarge half ih =>
    have hhalf : half = size / 2 := rfl
    obtain ⟨hle, hlt, htested, hafter⟩ := ih (by omega)
    by_cases hright : right (base + half) = true
    · rw [dif_pos hright] at hle hlt htested hafter
      rw [if_pos hright]
      refine ⟨by omega, by omega, ?_, fun i hi hin => hafter i hi (by omega)⟩
      rcases htested with heq | htrue
      · rw [heq]
        exact .inr hright
      · exact .inr htrue
    · rw [dif_neg hright] at hle hlt htested hafter
      rw [if_neg hright]
      refine ⟨hle, by omega, htested, fun i hi hin => ?_⟩
      by_cases hwindow : i < base + (size - half)
      · exact hafter i hi hwindow
      · -- the half that was left out starts at or after the position that was sent left
        exact Bool.eq_false_iff.2 fun htrue => hright (hsplit (base + half) i (by omega) htrue)
  | case2 base size hsmall => exact ⟨by omega, by omega, .inl rfl, fun i hi hin => by omega⟩

/-! ## Tables -/

namespace Table

theorem ascending_iff (kinds : List String) : ascending kinds = true ↔ kinds.Pairwise (· < ·) := by
  induction kinds with
  | nil => simp [ascending]
  | cons a rest ih =>
    cases rest with
    | nil => simp [ascending]
    | cons b rest =>
      rw [ascending, Bool.and_eq_true, ih, decide_eq_true_iff, List.pairwise_cons (a := a)]
      refine and_congr_left fun hrest => ?_
      constructor
      · intro hab k hk
        rcases List.mem_cons.1 hk with rfl | hk
        · exact hab
        · exact String.lt_trans hab ((List.pairwise_cons.1 hrest).1 k hk)
      · intro hall
        exact hall b List.mem_cons_self

variable {t : Table}

/-- earlier entries have smaller kinds -/
theorem kind_lt_kind (h : t.isSorted = true) {i j : Nat} (hij : i < j) (hj : j < t.entries.size) :
    (t.entries[i]).1 < (t.entries[j]).1 := by
  have hpairs := List.pairwise_iff_getElem.1 ((ascending_iff t.kinds).1 h) i j
    (by simp only [kinds, List.length_map, Array.length_toList]; omega)
    (by simp only [kinds, List.length_map, Array.length_toList]; omega) hij
  simpa [kinds] using hpairs

theorem nodup_kinds (h : t.isSorted = true) : t.kinds.Nodup :=
  ((ascending_iff t.kinds).1 h).imp fun hlt => Std.ne_of_lt hlt

/-- the kinds that are not above the one looked for are a first part of the table -/
theorem notAbove_split (h : t.isSorted = true) (kind : String) (i j : Nat) (hij : i ≤ j)
    (hj : (t.entries[j]?.any fun entry => !decide (kind < entry.1)) = true) :
    (t.entries[i]?.any fun entry => !decide (kind < entry.1)) = true := by
  rcases Nat.eq_or_lt_of_le hij with rfl | hlt
  · exact hj
  · by_cases hsize : j < t.entries.size
    · have hi : i < t.entries.size := by omega
      rw [Array.getElem?_eq_getElem hsize] at hj
      rw [Array.getElem?_eq_getElem hi]
      simp only [Option.any_some, Bool.not_eq_true', decide_eq_false_iff_not] at hj ⊢
      exact fun hbelow => hj (String.lt_trans hbelow (kind_lt_kind h hlt hsize))
    · rw [Array.getElem?_eq_none (by omega)] at hj
      simp at hj

/-- **A sorted table finds exactly its entries.** -/
theorem get?_eq_some_iff (h : t.isSorted = true) {kind : String} {fields : List Field} :
    t.get? kind = some fields ↔ (kind, fields) ∈ t.entries := by
  constructor
  · intro hget
    simp only [get?] at hget
    split at hget
    · rename_i entry hentry
      split_ifs at hget with hkind
      cases hget
      rw [← hkind]
      exact Array.mem_of_getElem? hentry
    · cases hget
  · intro hm
    obtain ⟨j, hj, hentry⟩ := Array.mem_iff_getElem.1 hm
    obtain ⟨-, hlt, htested, hafter⟩ := bisect_spec (notAbove_split h kind) 0 t.entries.size (by omega)
    set last := bisect (fun i => t.entries[i]?.any fun entry => !decide (kind < entry.1)) 0 t.entries.size with hlast
    rw [Nat.zero_add] at hlt hafter
    have hlastj : last = j := by
      rcases Nat.lt_trichotomy last j with hbefore | heq | hbehind
      · -- the entry itself is not above its kind, so bisection does not end before it
        have hfalse := hafter j hbefore hj
        rw [Array.getElem?_eq_getElem hj, hentry, Option.any_some, Bool.not_eq_false', decide_eq_true_iff] at hfalse
        exact absurd hfalse (String.lt_irrefl kind)
      · exact heq
      · -- what comes after the entry is above its kind, so bisection does not end there
        rcases htested with hzero | htrue
        · omega
        · have habove := kind_lt_kind h hbehind hlt
          rw [hentry] at habove
          rw [Array.getElem?_eq_getElem hlt, Option.any_some, Bool.not_eq_true', decide_eq_false_iff_not] at htrue
          exact absurd habove htrue
    simp only [get?]
    rw [← hlast, hlastj, Array.getElem?_eq_getElem hj, hentry]
    exact if_pos rfl

theorem get?_eq_none_iff (h : t.isSorted = true) {kind : String} : t.get? kind = none ↔ kind ∉ t.kinds := by
  rw [Option.eq_none_iff_forall_ne_some]
  constructor
  · intro hnone hm
    obtain ⟨entry, hentry, rfl⟩ := List.mem_map.1 hm
    exact hnone entry.2 ((get?_eq_some_iff h).2 (by simpa using hentry))
  · intro hnot fields hget
    have hm := (get?_eq_some_iff h).1 hget
    exact hnot (List.mem_map.2 ⟨(kind, fields), by simpa using hm, rfl⟩)

end Table

/-! ## Catalogs -/

namespace Catalog

/-- inserting entries one after the other is writing them one after the other -/
theorem foldl_insert (entries : List (String × List Field)) (c : Catalog) :
    entries.foldl (fun c p => c.insert p.1 p.2) c = ⟨c.entries.putAll entries⟩ := by
  induction entries generalizing c with
  | nil => rfl
  | cons p rest ih =>
    rw [List.foldl_cons, ih]
    rfl

theorem extend_empty (c : Catalog) : c.extend empty = c := rfl

theorem ofTable_eq (t : Table) : ofTable t = ⟨Keyed.putAll [] t.entries.toList⟩ := by
  rw [ofTable, ← Array.foldl_toList]
  exact foldl_insert t.entries.toList empty

/-- the copy of a sorted table has its entries, in their order -/
theorem entries_ofTable {t : Table} (h : t.isSorted = true) : (ofTable t).entries = t.entries.toList := by
  rw [ofTable_eq]
  exact Keyed.putAll_nil_of_nodup (Table.nodup_kinds h)

/-- **The copy of a sorted table finds what the table finds.** -/
theorem get?_ofTable {t : Table} (h : t.isSorted = true) (kind : String) : (ofTable t).get? kind = t.get? kind := by
  have hnodup : (ofTable t).entries.keys.Nodup := by
    rw [entries_ofTable h]
    exact Table.nodup_kinds h
  ext fields
  rw [get?, Keyed.get?_eq_some_iff hnodup, Table.get?_eq_some_iff h, entries_ofTable h, Array.mem_toList_iff]

theorem toSchema_ofTable {t : Table} (h : t.isSorted = true) : (ofTable t).toSchema = t.toSchema :=
  congrArg Schema.mk (funext (get?_ofTable h))

end Catalog

/-! ## Reading through a schema -/

/-- the schemas say the same of every kind, and through them everything is loaded and walked alike -/
structure Schema.Alike (a b : Schema) : Prop where
  fields : ∀ kind, a.fields kind = b.fields kind
  contains : ∀ kind, a.contains kind = b.contains kind
  field : ∀ kind name, a.field? kind name = b.field? kind name
  leaf : ∀ kind, a.isLeaf kind = b.isLeaf kind
  tree : ∀ text, Tree.parse a text = Tree.parse b text
  document : ∀ text, Document.parse a text = Document.parse b text
  value : ∀ value, Document.ofValue a value = Document.ofValue b value
  walk : ∀ {σ : Type} (t : Tree) (root : Option NodeId) (visit : NodeRef → σ → Visit × σ) (s : σ),
    View.walk ⟨t, a⟩ root visit s = View.walk ⟨t, b⟩ root visit s
  walkPath : ∀ {σ : Type} (t : Tree) (root : Option NodeId) (visit : NodeRef → Context → σ → Visit × σ) (s : σ),
    View.walkPath ⟨t, a⟩ root visit s = View.walkPath ⟨t, b⟩ root visit s

/-- nothing but the fields of each kind is ever asked of a schema -/
theorem Schema.Alike.of_fields {a b : Schema} (h : ∀ kind, a.fields kind = b.fields kind) : a.Alike b := by
  obtain rfl : a = b := congrArg Schema.mk (funext h)
  constructor <;> intros <;> rfl

/-! ## Main result -/

theorem estree_sorted : Estree.table.isSorted = true := by decide +kernel

/-- **Tables and catalogs are interchangeable.** For every table whose kinds ascend strictly:
- it finds exactly its entries, and nothing under a kind that it does not have;
- its copy as a catalog, also after an empty catalog was laid over it, finds the same under every kind, and through table
  and copy everything is loaded and walked alike.
The built-in table is such a table, so a command without a schema file and one whose schema file has no entry read every
document alike. -/
theorem tables_and_catalogs_interchangeable :
    (∀ t : Table, t.isSorted = true →
      (∀ kind fields, t.get? kind = some fields ↔ (kind, fields) ∈ t.entries) ∧
      (∀ kind, t.get? kind = none ↔ kind ∉ t.kinds) ∧
      ∀ c, c = Catalog.ofTable t ∨ c = (Catalog.ofTable t).extend .empty →
        (∀ kind, c.get? kind = t.get? kind) ∧ c.toSchema.Alike t.toSchema) ∧
    Estree.table.isSorted = true ∧ (Catalog.ofTable Estree.table).toSchema.Alike Estree.schema ∧
    ∀ name text, Catalog.parse text = .ok .empty → Command.overlaySchema name text = .ok Estree.schema := by
  refine ⟨fun t h => ⟨fun kind fields => Table.get?_eq_some_iff h, fun kind => Table.get?_eq_none_iff h, ?_⟩,
    estree_sorted, Schema.Alike.of_fields (Catalog.get?_ofTable estree_sorted), fun name text hparse => ?_⟩
  · rintro c (rfl | rfl)
    · exact ⟨Catalog.get?_ofTable h, Schema.Alike.of_fields (Catalog.get?_ofTable h)⟩
    · rw [Catalog.extend_empty]
      exact ⟨Catalog.get?_ofTable h, Schema.Alike.of_fields (Catalog.get?_ofTable h)⟩
  · simp only [Command.overlaySchema, hparse]
    rw [Catalog.extend_empty, Catalog.toSchema_ofTable estree_sorted, Estree.schema]

/-- three kinds of statements -/
def Table.statements : Table :=
  ⟨#[("Block", [⟨"body", .many⟩]), ("If", [⟨"test", .single⟩, ⟨"then", .single⟩]), ("Return", [⟨"argument", .optional⟩])]⟩

/-- a kind of the table, one between its kinds, and a schema file without entries -/
theorem tables_and_catalogs_interchangeable_statements :
    Table.statements.isSorted = true ∧ Table.statements.get? "Return" = some [⟨"argument", .optional⟩] ∧
      Table.statements.get? "Label" = none ∧
      ((Catalog.ofTable Table.statements).extend .empty).get? "Label" = Table.statements.get? "Label" ∧
      Catalog.parse "[]" = .ok .empty ∧ Command.overlaySchema "-" "[]" = .ok Estree.schema := by
  have hsorted : Table.statements.isSorted = true := by decide
  have hempty : Catalog.parse "[]" = .ok .empty := by decide +kernel
  obtain ⟨htables, -, -, hoverlay⟩ := tables_and_catalogs_interchangeable
  obtain ⟨hfound, hmissing, hcopies⟩ := htables Table.statements hsorted
  exact ⟨hsorted, (hfound _ _).2 (by simp [Table.statements]), (hmissing _).2 (by decide), (hcopies _ (.inr rfl)).1 _,
    hempty, hoverlay _ _ hempty⟩

end Arbor
