/-
A tree read as text. The arena stores symbols; a reader resolves them. `Record` is a node with its names written out, and
`Reads names nodes records` says that the arena under its names is the given list of records. The names have to be
distinct: then comparing symbols is comparing names, and no name leads to the slot of another.

Every operation of the builder that a loader uses is an operation on the list of records:
- `Reads.node`: allocating appends a record without slots and attributes;
- `Reads.setSlot`, `Reads.setAttr`: writing changes one entry of one record.
Interning never shows: it only appends names, and what was spelled by the old names is spelled by the new ones.

- `Reads.ref`, `Reads.kind`, `Reads.slots` and the others: what readers of a tree get for an id is its record.
-/
import Mathlib.Data.List.Forall2
import Mathlib.Data.List.ReduceOption
import Arbor.Proofs.Keyed
import Arbor.Tree.Builder

namespace Arbor

/-! ## Names -/

namespace Names

/-- no string has two symbols -/
def Distinct (names : Names) : Prop := names.strings.toList.Nodup

/-- every symbol keeps its string -/
def Extends (names later : Names) : Prop := ∀ k s, names.resolve? k = some s → later.resolve? k = some s

theorem distinct_empty : Names.empty.Distinct := List.nodup_nil

theorem resolve?_inj {names : Names} (h : names.Distinct) {j k : Symbol} {s : String} (hj : names.resolve? j = some s)
    (hk : names.resolve? k = some s) : j = k := by
  rw [resolve?, ← Array.getElem?_toList] at hj hk
  obtain ⟨hlj, hsj⟩ := List.getElem?_eq_some_iff.1 hj
  obtain ⟨hlk, hsk⟩ := List.getElem?_eq_some_iff.1 hk
  exact (List.Nodup.getElem_inj_iff h).1 (hsj.trans hsk.symm)

/-- the symbol of a string is the one that stands for it -/
theorem find?_eq_some_iff {names : Names} (h : names.Distinct) {k : Symbol} {s : String} :
    names.find? s = some k ↔ names.resolve? k = some s := by
  obtain ⟨strings⟩ := names
  obtain ⟨strings⟩ := strings
  rw [find?, List.idxOf?_toArray, List.idxOf?_eq_some_iff, resolve?, List.getElem?_toArray, List.getElem?_eq_some_iff]
  constructor
  · rintro ⟨hlt, hs, -⟩
    exact ⟨hlt, hs⟩
  · rintro ⟨hlt, hs⟩
    refine ⟨hlt, hs, fun j hj heq => ?_⟩
    have := (List.Nodup.getElem_inj_iff h).1 (heq.trans hs.symm)
    omega

/-- different strings have different symbols -/
theorem nodup_filterMap_find? {names : Names} (hd : names.Distinct) {strings : List String} (h : strings.Nodup) :
    (strings.filterMap names.find?).Nodup := by
  refine List.Nodup.filterMap ?_ h
  intro a b k ha hb
  have ha' := (find?_eq_some_iff hd).1 ha
  have hb' := (find?_eq_some_iff hd).1 hb
  rw [ha'] at hb'
  exact Option.some.inj hb'

theorem intern_extends (names : Names) (s : String) : names.Extends (names.intern s).1 := by
  intro k t hk
  unfold intern
  split
  · exact hk
  · simp only [resolve?] at hk ⊢
    rw [Array.getElem?_push, if_neg, hk]
    have := (Array.getElem?_eq_some_iff.1 hk).1
    omega

theorem intern_distinct {names : Names} (h : names.Distinct) (s : String) : (names.intern s).1.Distinct := by
  unfold intern
  split
  · exact h
  · rename_i hnone
    rw [find?, Array.idxOf?_eq_none_iff] at hnone
    rw [Distinct, Array.toList_push]
    refine List.Nodup.append h (List.nodup_singleton s) ?_
    simpa using hnone

theorem resolve?_intern {names : Names} (h : names.Distinct) (s : String) :
    (names.intern s).1.resolve? (names.intern s).2 = some s := by
  unfold intern
  split
  · rename_i k hk
    exact (find?_eq_some_iff h).1 hk
  · simp [resolve?]

end Names

/-! ## Records -/

/-- the children that a slot holds, in order -/
def Slot.ids (slot : Slot) : List NodeId := slot.children.map Prod.snd

theorem Slot.ids_sequence (items : List (Option NodeId)) : (Slot.sequence items).ids = items.reduceOption := by
  have hfrom : ∀ i, ((items.zipIdx i).filterMap fun p => p.1.map fun id => (some p.2, id)).map Prod.snd =
      items.reduceOption := by
    induction items with
    | nil => intro i; rfl
    | cons item rest ih =>
      intro i
      cases item with
      | none => simpa [List.reduceOption] using ih (i + 1)
      | some id => simpa [List.reduceOption] using ih (i + 1)
  exact hfrom 0

/-- a node with its names written out -/
structure Record where
  kind : String
  span : Span
  slots : Keyed String Slot
  attrs : Keyed String Scalar
  deriving DecidableEq, Repr

namespace Names

variable {ν : Type}

/-- the same values in the same order, the keys as symbols and as strings -/
def SpellsKeys (names : Names) : Keyed Symbol ν → Keyed String ν → Prop :=
  List.Forall₂ fun stored written => names.resolve? stored.1 = some written.1 ∧ stored.2 = written.2

/-- the record is what the stored node says under the names -/
structure Spells (names : Names) (n : Node) (r : Record) : Prop where
  kind : names.resolve? n.kind = some r.kind
  span : n.span = r.span
  slots : names.SpellsKeys n.slots r.slots
  attrs : names.SpellsKeys n.attrs r.attrs

theorem SpellsKeys.extend {names later : Names} (hl : names.Extends later) {xs : Keyed Symbol ν} {ys : Keyed String ν}
    (h : names.SpellsKeys xs ys) : later.SpellsKeys xs ys :=
  h.imp fun _ _ hp => ⟨hl _ _ hp.1, hp.2⟩

theorem Spells.extend {names later : Names} (hl : names.Extends later) {n : Node} {r : Record} (h : names.Spells n r) :
    later.Spells n r :=
  ⟨hl _ _ h.kind, h.span, h.slots.extend hl, h.attrs.extend hl⟩

/-- distinct names make the two comparisons of keys agree -/
theorem key_eq_iff {names : Names} (hd : names.Distinct) {j k : Symbol} {s t : String}
    (hj : names.resolve? j = some s) (hk : names.resolve? k = some t) : j = k ↔ s = t := by
  constructor
  · rintro rfl
    rw [hj] at hk
    exact Option.some.inj hk
  · rintro rfl
    exact resolve?_inj hd hj hk

theorem SpellsKeys.alter {names : Names} (hd : names.Distinct) {xs : Keyed Symbol ν} {ys : Keyed String ν}
    (h : names.SpellsKeys xs ys) {k : Symbol} {s : String} (hk : names.resolve? k = some s) (change : Option ν → ν) :
    names.SpellsKeys (xs.alter k change) (ys.alter s change) := by
  unfold SpellsKeys at h ⊢
  induction h with
  | nil => exact .cons ⟨hk, rfl⟩ .nil
  | @cons x y xs ys hxy hrest ih =>
    have hiff := key_eq_iff hd hxy.1 hk
    rw [Keyed.alter, Keyed.alter]
    by_cases hs : y.1 = s
    · rw [if_pos hs, if_pos (hiff.2 hs)]
      exact .cons ⟨hxy.1, by rw [hxy.2]⟩ hrest
    · rw [if_neg hs, if_neg (mt hiff.1 hs)]
      exact .cons hxy ih

theorem SpellsKeys.put {names : Names} (hd : names.Distinct) {xs : Keyed Symbol ν} {ys : Keyed String ν}
    (h : names.SpellsKeys xs ys) {k : Symbol} {s : String} (hk : names.resolve? k = some s) (v : ν) :
    names.SpellsKeys (xs.put k v) (ys.put s v) :=
  h.alter hd hk fun _ => v

end Names

/-! ## Arenas as lists of records -/

/-- the arena under its names is the list of records -/
structure Reads (names : Names) (nodes : Array Node) (records : List Record) : Prop where
  distinct : names.Distinct
  spelled : List.Forall₂ names.Spells nodes.toList records

namespace Reads

variable {names : Names} {nodes : Array Node} {records : List Record}

theorem empty : Reads Builder.empty.names Builder.empty.nodes [] := ⟨Names.distinct_empty, .nil⟩

theorem size_eq (h : Reads names nodes records) : nodes.size = records.length := by
  rw [← Array.length_toList]
  exact h.spelled.length_eq

theorem spells (h : Reads names nodes records) {id : NodeId} {r : Record} (hr : records[id]? = some r) :
    ∃ n, nodes[id]? = some n ∧ names.Spells n r := by
  obtain ⟨hlt, rfl⟩ := List.getElem?_eq_some_iff.1 hr
  have hlt' : id < nodes.toList.length := by rw [Array.length_toList, h.size_eq]; exact hlt
  refine ⟨nodes.toList[id], ?_, h.spelled.get hlt' hlt⟩
  rw [← Array.getElem?_toList, List.getElem?_eq_getElem hlt']

theorem record_of_node (h : Reads names nodes records) {id : NodeId} {n : Node} (hn : nodes[id]? = some n) :
    ∃ r, records[id]? = some r ∧ names.Spells n r := by
  have hlt : id < records.length := by rw [← h.size_eq]; exact (Array.getElem?_eq_some_iff.1 hn).1
  obtain ⟨n', hn', hs⟩ := h.spells (List.getElem?_eq_getElem hlt)
  rw [hn] at hn'
  cases hn'
  exact ⟨_, List.getElem?_eq_getElem hlt, hs⟩

/-! ### Building -/

theorem forall₂_modify {α β : Type} {R : α → β → Prop} {f : α → α} {g : β → β} (hfg : ∀ a b, R a b → R (f a) (g b))
    {xs : List α} {ys : List β} (h : List.Forall₂ R xs ys) (i : Nat) :
    List.Forall₂ R (xs.modify i f) (ys.modify i g) := by
  induction h generalizing i with
  | nil => simp
  | cons hab hrest ih =>
    cases i with
    | zero => exact .cons (hfg _ _ hab) hrest
    | succ i => exact .cons hab (ih i)

theorem node {b : Builder} (h : Reads b.names b.nodes records) (kind : String) (span : Span) :
    Reads (b.node kind span).1.names (b.node kind span).1.nodes (records ++ [⟨kind, span, [], []⟩]) := by
  refine ⟨Names.intern_distinct h.distinct kind, ?_⟩
  simp only [Builder.node, Array.toList_push]
  refine List.rel_append (h.spelled.imp fun _ _ hs => hs.extend (Names.intern_extends b.names kind)) (.cons ?_ .nil)
  exact ⟨Names.resolve?_intern h.distinct kind, rfl, .nil, .nil⟩

/-- interning a name and changing one node is changing one record, if the changes agree -/
theorem amend {b : Builder} (h : Reads b.names b.nodes records) (id : NodeId) (hid : id < records.length) (name : String)
    {change : Symbol → Node → Node} {write : Record → Record}
    (hchange : ∀ later : Names, later.Distinct → ∀ k, later.resolve? k = some name →
      ∀ n r, later.Spells n r → later.Spells (change k n) (write r)) :
    Reads (b.amend id name change).1.names (b.amend id name change).1.nodes (records.modify id write) := by
  have hlt : id < b.nodes.size := by rw [h.size_eq]; exact hid
  have hd := Names.intern_distinct h.distinct name
  simp only [Builder.amend, if_pos hlt]
  refine ⟨hd, ?_⟩
  rw [Array.toList_modify]
  refine forall₂_modify (hchange _ hd _ (Names.resolve?_intern h.distinct name)) ?_ id
  exact h.spelled.imp fun _ _ hs => hs.extend (Names.intern_extends b.names name)

theorem setAttr {b : Builder} (h : Reads b.names b.nodes records) (id : NodeId) (hid : id < records.length)
    (name : String) (value : Scalar) :
    Reads (b.setAttr id name value).1.names (b.setAttr id name value).1.nodes
      (records.modify id fun r => { r with attrs := r.attrs.put name value }) := by
  refine h.amend id hid name fun later hd k hk n r hs => ?_
  exact ⟨hs.kind, hs.span, hs.slots, hs.attrs.put hd hk value⟩

theorem setSlot {b : Builder} (h : Reads b.names b.nodes records) (id : NodeId) (hid : id < records.length)
    (field : String) (slot : Slot) (hslot : ∀ c : Nat, c ∈ slot.ids → c < records.length) :
    Reads (b.setSlot id field slot).1.names (b.setSlot id field slot).1.nodes
      (records.modify id fun r => { r with slots := r.slots.put field slot }) := by
  have hnone : b.firstUnallocated? (slot.children.map Prod.snd) = none := by
    rw [Builder.firstUnallocated?, List.find?_eq_none]
    intro c hc
    simp only [decide_eq_true_eq, h.size_eq]
    exact Nat.not_le_of_lt (hslot c hc)
  simp only [Builder.setSlot, Builder.amendWith, hnone]
  refine h.amend id hid field fun later hd k hk n r hs => ?_
  exact ⟨hs.kind, hs.span, hs.slots.put hd hk slot, hs.attrs⟩

end Reads

/-! ### Reading -/

namespace Reads

variable {t : Tree} {records : List Record}

theorem resolve_eq {names : Names} {k : Symbol} {s : String} (h : names.resolve? k = some s) :
    names.resolve k = .ok s := by
  rw [Names.resolve, h]

theorem named_eq {ν : Type} {xs : Keyed Symbol ν} {ys : Keyed String ν} (h : t.names.SpellsKeys xs ys) :
    t.named xs = .ok ys := by
  unfold Names.SpellsKeys at h
  induction h with
  | nil => rfl
  | @cons x y xs ys hxy _ ih =>
    obtain ⟨hk, hv⟩ := hxy
    simp [Tree.named, resolve_eq hk, ih, hv, bind, Except.bind, pure, Except.pure]

/-- what readers get for an id: the stored node, which its record spells out -/
theorem ref (h : Reads t.names t.nodes records) {id : NodeId} {r : Record} (hr : records[id]? = some r) :
    ∃ n, t.ref id = .ok ⟨id, r.kind, n⟩ ∧ t.names.Spells n r := by
  obtain ⟨n, hn, hs⟩ := h.spells hr
  refine ⟨n, ?_, hs⟩
  simp [Tree.ref, Tree.node, hn, resolve_eq hs.kind, bind, Except.bind, pure, Except.pure]

theorem kind (h : Reads t.names t.nodes records) {id : NodeId} {r : Record} (hr : records[id]? = some r) :
    t.kind id = .ok r.kind := by
  obtain ⟨n, hn, hs⟩ := h.spells hr
  simp [Tree.kind, Tree.node, hn, resolve_eq hs.kind, bind, Except.bind]

theorem span (h : Reads t.names t.nodes records) {id : NodeId} {r : Record} (hr : records[id]? = some r) :
    t.span id = .ok r.span := by
  obtain ⟨n, hn, hs⟩ := h.spells hr
  simp [Tree.span, Tree.node, hn, hs.span, bind, Except.bind, pure, Except.pure]

theorem slots (h : Reads t.names t.nodes records) {id : NodeId} {r : Record} (hr : records[id]? = some r) :
    t.slots id = .ok r.slots := by
  obtain ⟨n, hn, hs⟩ := h.spells hr
  simp [Tree.slots, Tree.node, hn, named_eq hs.slots, bind, Except.bind]

theorem attrs (h : Reads t.names t.nodes records) {id : NodeId} {r : Record} (hr : records[id]? = some r) :
    t.attrs id = .ok r.attrs := by
  obtain ⟨n, hn, hs⟩ := h.spells hr
  simp [Tree.attrs, Tree.node, hn, named_eq hs.attrs, bind, Except.bind]

end Reads

end Arbor
