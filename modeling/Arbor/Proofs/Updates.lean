/-
What an update of a builder changes, in the words of a reader. All names of a tree go through one list that keeps growing,
and entries are found by symbol; a reader asks by name and sees neither. So a builder is read as a list of records here,
and an operation is what it does to the records: `Edit` says this with names alone.

- `Reads.step_cases`: a step appends a record, edits one entry of one record, or ends in a fault and changes none, whatever
  the symbols of the builder are.
- `Reads.seen`: read by name, an update changes the entry it names and nothing else.
- `Reads.run_slot`: so what a slot holds after a run is the fold of the updates of that slot.
- `Edit.amendAt_comm`: edits of different entries give records that answer alike in either order.
-/
import Arbor.Proofs.Building

namespace Arbor

/-! ## Entries under a key -/

namespace Keyed

variable {κ ν : Type}

/-- the second list is the first one with the value under the key written: in place if the key is there, else at the end -/
inductive Rewritten (key : κ) (value : ν) : Keyed κ ν → Keyed κ ν → Prop
  | inPlace {before after : Keyed κ ν} {old : ν} (h : key ∉ before.keys) :
      Rewritten key value (before ++ (key, old) :: after) (before ++ (key, value) :: after)
  | last {entries : Keyed κ ν} (h : key ∉ entries.keys) : Rewritten key value entries (entries ++ [(key, value)])

theorem Rewritten.cons {key : κ} {value : ν} {entries written : Keyed κ ν} (h : Rewritten key value entries written)
    {p : κ × ν} (hp : p.1 ≠ key) : Rewritten key value (p :: entries) (p :: written) := by
  have hkeys : ∀ before : Keyed κ ν, key ∉ before.keys → key ∉ keys (p :: before) := by
    intro before hb
    simpa [keys, Ne.symm hp] using hb
  cases h with
  | @inPlace before after old hb => exact @Rewritten.inPlace κ ν key value (p :: before) after old (hkeys before hb)
  | last hb => exact .last (hkeys entries hb)

variable [DecidableEq κ]

theorem rewritten_alter (entries : Keyed κ ν) (key : κ) (change : Option ν → ν) :
    Rewritten key (change (entries.get? key)) entries (entries.alter key change) := by
  induction entries with
  | nil => exact .last (by simp [keys])
  | cons p rest ih =>
    rw [alter, get?]
    split_ifs with hp
    · subst hp
      exact @Rewritten.inPlace κ ν p.1 _ [] rest p.2 (by simp [keys])
    · exact ih.cons hp

end Keyed

/-! ## Names -/

namespace Names

/-- who looks a name up among the symbols finds what stands under the name -/
theorem SpellsKeys.lookup {ν : Type} {names : Names} (hd : names.Distinct) {xs : Keyed Symbol ν} {ys : Keyed String ν}
    (h : names.SpellsKeys xs ys) (s : String) : (names.find? s).bind (fun k => xs.get? k) = ys.get? s := by
  unfold SpellsKeys at h
  induction h with
  | nil => cases names.find? s <;> rfl
  | @cons x y xs ys hxy hrest ih =>
    rw [Keyed.get?, ← ih]
    by_cases hs : y.1 = s
    · have hfind : names.find? s = some x.1 := (find?_eq_some_iff hd).2 (hs ▸ hxy.1)
      simp [hs, hfind, Keyed.get?, hxy.2]
    · rw [if_neg hs]
      refine Option.bind_congr fun k hk => ?_
      have hne : x.1 ≠ k := mt (key_eq_iff hd hxy.1 ((find?_eq_some_iff hd).1 hk)).1 hs
      rw [Keyed.get?, if_neg hne]

end Names

/-! ## What readers get -/

/-- the record of an id; there is none beyond the arena -/
def recordAt (records : List Record) (id : NodeId) : Except Fault Record :=
  match records[id]? with
  | some r => .ok r
  | none => .error (.missingNode id records.length)

/-- whatever is looked up by name at a node is the same in both trees -/
structure Tree.AlikeAt (t t' : Tree) (id : NodeId) : Prop where
  kind : t'.kind id = t.kind id
  span : t'.span id = t.span id
  slot : ∀ field, t'.slot id field = t.slot id field
  attr : ∀ name, t'.attr id name = t.attr id name

/-- the node is the same in both trees, and its entries come in the same order -/
structure Tree.SameAt (t t' : Tree) (id : NodeId) : Prop extends t.AlikeAt t' id where
  slots : t'.slots id = t.slots id
  attrs : t'.attrs id = t.attrs id

/-- whatever is asked about the node is answered from the record -/
structure Tree.Shows (t : Tree) (id : NodeId) (r : Record) : Prop where
  kind : t.kind id = .ok r.kind
  span : t.span id = .ok r.span
  slot : ∀ field, t.slot id field = .ok (r.slots.get? field)
  slots : t.slots id = .ok r.slots
  attr : ∀ name, t.attr id name = .ok (r.attrs.get? name)
  attrs : t.attrs id = .ok r.attrs

namespace Reads

variable {t : Tree} {records : List Record}

theorem node_error (h : Reads t.names t.nodes records) {id : NodeId} (hid : records[id]? = none) :
    t.node id = .error (.missingNode id records.length) := by
  have hnone : t.nodes[id]? = none := by
    rw [Array.getElem?_eq_none_iff, h.size_eq]
    exact List.getElem?_eq_none_iff.1 hid
  rw [Tree.node, hnone, h.size_eq]

/-- whatever can be asked about a stored node is answered from its record, and beyond the arena there is a fault -/
theorem ask (h : Reads t.names t.nodes records) {α : Type} {question : Node → Except Fault α} {answer : Record → α}
    (hanswer : ∀ n r, t.names.Spells n r → question n = .ok (answer r)) (id : NodeId) :
    (t.node id >>= question) = (recordAt records id).map answer := by
  cases hr : records[id]? with
  | none => simp [recordAt, hr, h.node_error hr, bind, Except.bind, Except.map]
  | some r =>
    obtain ⟨n, hn, hs⟩ := h.spells hr
    simp [recordAt, hr, Tree.node, hn, hanswer n r hs, bind, Except.bind, Except.map]

variable (h : Reads t.names t.nodes records) (id : NodeId)
include h

theorem kind_eq : t.kind id = (recordAt records id).map Record.kind := h.ask (fun _ _ hs => resolve_eq hs.kind) id

theorem span_eq : t.span id = (recordAt records id).map Record.span :=
  h.ask (fun _ _ hs => congrArg Except.ok hs.span) id

theorem slots_eq : t.slots id = (recordAt records id).map Record.slots := h.ask (fun _ _ hs => named_eq hs.slots) id

theorem attrs_eq : t.attrs id = (recordAt records id).map Record.attrs := h.ask (fun _ _ hs => named_eq hs.attrs) id

theorem slot_eq (field : String) : t.slot id field = (recordAt records id).map fun r => r.slots.get? field :=
  h.ask (fun _ _ hs => congrArg Except.ok (hs.slots.lookup h.distinct field)) id

theorem attr_eq (name : String) : t.attr id name = (recordAt records id).map fun r => r.attrs.get? name :=
  h.ask (fun _ _ hs => congrArg Except.ok (hs.attrs.lookup h.distinct name)) id

theorem shows {r : Record} (hr : recordAt records id = .ok r) : t.Shows id r where
  kind := by rw [h.kind_eq, hr]; rfl
  span := by rw [h.span_eq, hr]; rfl
  slot field := by rw [h.slot_eq, hr]; rfl
  slots := by rw [h.slots_eq, hr]; rfl
  attr name := by rw [h.attr_eq, hr]; rfl
  attrs := by rw [h.attrs_eq, hr]; rfl

omit h in
/-- readers see nothing but the records -/
theorem sameAt {t' : Tree} {records' : List Record} (h : Reads t.names t.nodes records)
    (h' : Reads t'.names t'.nodes records') (hsame : recordAt records' id = recordAt records id) : t.SameAt t' id where
  kind := by rw [h'.kind_eq, hsame, h.kind_eq]
  span := by rw [h'.span_eq, hsame, h.span_eq]
  slot field := by rw [h'.slot_eq, hsame, h.slot_eq]
  slots := by rw [h'.slots_eq, hsame, h.slots_eq]
  attr name := by rw [h'.attr_eq, hsame, h.attr_eq]
  attrs := by rw [h'.attrs_eq, hsame, h.attrs_eq]

end Reads

/-! ## Operations as edits of records -/

namespace Builder

/-- the place that an update writes: a slot or an attribute of a node, by name -/
inductive Entry where
  | slot (id : NodeId) (field : String)
  | attr (id : NodeId) (name : String)
  deriving DecidableEq, Repr

/-- what an update writes; what becomes of a slot may depend on what was there -/
inductive Edit where
  | slot (id : NodeId) (field : String) (value : Option Slot → Slot)
  | attr (id : NodeId) (name : String) (value : Scalar)

namespace Edit

/-- the place that is written -/
def entry : Edit → Entry
  | .slot id field _ => .slot id field
  | .attr id name _ => .attr id name

/-- the node that is written -/
def node : Edit → NodeId
  | .slot id _ _ => id
  | .attr id _ _ => id

/-- what the edit does to the record of its node -/
def apply : Edit → Record → Record
  | .slot _ field value, r => { r with slots := r.slots.alter field value }
  | .attr _ name value, r => { r with attrs := r.attrs.put name value }

/-- what the edit does to the record of a node; the records of other nodes stay -/
def amendAt (e : Edit) (id : NodeId) (r : Record) : Record := if e.node = id then e.apply r else r

/-- what the edit makes of a slot, if it is the slot that is written -/
def slotValue? (id : NodeId) (field : String) : Edit → Option (Option Slot → Slot)
  | .slot written name value => if written = id ∧ name = field then some value else none
  | .attr _ _ _ => none

/-- the value of an attribute, if it is the attribute that is written -/
def attrValue? (id : NodeId) (name : String) : Edit → Option Scalar
  | .slot _ _ _ => none
  | .attr written key value => if written = id ∧ key = name then some value else none

/-- of the named values of a node one was written: under the other names everything is as it was, and in their order the
written value stands where the old one was, or last -/
structure Wrote {ν : Type} (key : String) (value : Option ν → ν) (lookup lookup' : String → Except Fault (Option ν))
    (all all' : Except Fault (Keyed String ν)) : Prop where
  others : ∀ other, other ≠ key → lookup' other = lookup other
  written : ∃ old, lookup key = .ok old ∧ lookup' key = .ok (some (value old)) ∧
    ∃ entries entries', all = .ok entries ∧ all' = .ok entries' ∧ entries.Rewritten key (value old) entries'

/-- **What a reader sees of an edit.** All other nodes are the same, the node itself keeps its kind and its range, and of its
slots and attributes only the entry that the edit names was written. -/
structure Seen (e : Edit) (t t' : Tree) : Prop where
  others : ∀ id, id ≠ e.node → t.SameAt t' id
  kind : t'.kind e.node = t.kind e.node
  span : t'.span e.node = t.span e.node
  entry : match e with
    | .slot id field value =>
      Wrote field value (t.slot id) (t'.slot id) (t.slots id) (t'.slots id) ∧
        (∀ name, t'.attr id name = t.attr id name) ∧ t'.attrs id = t.attrs id
    | .attr id name value =>
      Wrote name (fun _ => value) (t.attr id) (t'.attr id) (t.attrs id) (t'.attrs id) ∧
        (∀ field, t'.slot id field = t.slot id field) ∧ t'.slots id = t.slots id

theorem wrote_alter {ν : Type} {key : String} {value : Option ν → ν} {lookup lookup' : String → Except Fault (Option ν)}
    {all all' : Except Fault (Keyed String ν)} {entries : Keyed String ν}
    (hlookup : ∀ name, lookup name = .ok (entries.get? name))
    (hlookup' : ∀ name, lookup' name = .ok ((entries.alter key value).get? name)) (hall : all = .ok entries)
    (hall' : all' = .ok (entries.alter key value)) : Wrote key value lookup lookup' all all' := by
  refine ⟨fun other hne => ?_, entries.get? key, hlookup key, ?_, entries, _, hall, hall', entries.rewritten_alter key value⟩
  · rw [hlookup', hlookup, Keyed.get?_alter, if_neg (Ne.symm hne)]
  · rw [hlookup', Keyed.get?_alter, if_pos rfl]

theorem entry_of_slotValue? {e : Edit} {id : NodeId} {field : String} {value : Option Slot → Slot}
    (h : e.slotValue? id field = some value) : e.entry = .slot id field := by
  cases e with
  | slot written name _ =>
    rw [slotValue?] at h
    split_ifs at h with hsame
    rw [entry, hsame.1, hsame.2]
  | attr _ _ _ => cases h

theorem entry_of_attrValue? {e : Edit} {id : NodeId} {name : String} {value : Scalar}
    (h : e.attrValue? id name = some value) : e.entry = .attr id name := by
  cases e with
  | slot _ _ _ => cases h
  | attr written key _ =>
    rw [attrValue?] at h
    split_ifs at h with hsame
    rw [entry, hsame.1, hsame.2]

section AmendAt

variable (e : Edit) (id : NodeId) (r : Record)

theorem kind_amendAt : (e.amendAt id r).kind = r.kind := by
  unfold amendAt
  split_ifs
  · cases e <;> rfl
  · rfl

theorem span_amendAt : (e.amendAt id r).span = r.span := by
  unfold amendAt
  split_ifs
  · cases e <;> rfl
  · rfl

/-- a slot after an edit: rewritten if it is the one, else as it was -/
theorem get?_slots_amendAt (field : String) : (e.amendAt id r).slots.get? field =
    ((e.slotValue? id field).map fun value => value (r.slots.get? field)).or (r.slots.get? field) := by
  cases e with
  | slot written name value =>
    by_cases hid : written = id
    · by_cases hname : name = field
      · simp [amendAt, node, apply, slotValue?, hid, hname, Keyed.get?_alter]
      · simp [amendAt, node, apply, slotValue?, hid, hname, Keyed.get?_alter]
    · simp [amendAt, node, slotValue?, hid]
  | attr written key value => by_cases hid : written = id <;> simp [amendAt, node, apply, slotValue?, hid]

theorem get?_attrs_amendAt (name : String) :
    (e.amendAt id r).attrs.get? name = (e.attrValue? id name).or (r.attrs.get? name) := by
  cases e with
  | slot written field value => by_cases hid : written = id <;> simp [amendAt, node, apply, attrValue?, hid]
  | attr written key value =>
    by_cases hid : written = id
    · by_cases hname : key = name
      · simp [amendAt, node, apply, attrValue?, hid, hname, Keyed.put, Keyed.get?_alter]
      · simp [amendAt, node, apply, attrValue?, hid, hname, Keyed.put, Keyed.get?_alter]
    · simp [amendAt, node, attrValue?, hid]

end AmendAt

/-- **Edits of different entries commute**, as far as anything is looked up in the records. -/
theorem amendAt_comm {e f : Edit} (h : e.entry ≠ f.entry) (id : NodeId) (r : Record) :
    (e.amendAt id (f.amendAt id r)).kind = (f.amendAt id (e.amendAt id r)).kind ∧
    (e.amendAt id (f.amendAt id r)).span = (f.amendAt id (e.amendAt id r)).span ∧
    (∀ field, (e.amendAt id (f.amendAt id r)).slots.get? field = (f.amendAt id (e.amendAt id r)).slots.get? field) ∧
    ∀ name, (e.amendAt id (f.amendAt id r)).attrs.get? name = (f.amendAt id (e.amendAt id r)).attrs.get? name := by
  simp only [kind_amendAt, span_amendAt, get?_slots_amendAt, get?_attrs_amendAt, true_and]
  refine ⟨fun field => ?_, fun name => ?_⟩
  · -- at most one of the two writes this slot
    cases he : e.slotValue? id field with
    | none => simp
    | some value =>
      cases hf : f.slotValue? id field with
      | none => simp
      | some other => exact absurd ((entry_of_slotValue? he).trans (entry_of_slotValue? hf).symm) h
  · cases he : e.attrValue? id name with
    | none => simp
    | some value =>
      cases hf : f.attrValue? id name with
      | none => simp
      | some other => exact absurd ((entry_of_attrValue? he).trans (entry_of_attrValue? hf).symm) h

end Edit

/-- the edit of an operation, none if it allocates a node; a sequence grows by what is pushed, anything else gives way to a
sequence of one -/
def Op.edit? : Op → Option Edit
  | .node _ _ => none
  | .setChild parent field child => some (.slot parent field fun _ => .node child)
  | .setOptional parent field child => some (.slot parent field fun _ => .optional child)
  | .setSequence parent field items => some (.slot parent field fun _ => .sequence items)
  | .pushChild parent field child => some (.slot parent field fun
    | some (.sequence items) => .sequence (items ++ [child])
    | _ => .sequence [child])
  | .setAttr id name value => some (.attr id name value)

/-- what the operation makes of a slot, if it is the slot that is written -/
def Op.slotValue? (id : NodeId) (field : String) (op : Op) : Option (Option Slot → Slot) :=
  op.edit?.bind (Edit.slotValue? id field)

/-- the operations of a run that did not end in a fault -/
def carried (b : Builder) : List Op → List Op
  | [] => []
  | op :: rest =>
    match b.step op with
    | (next, .ok _) => op :: next.carried rest
    | (next, .error _) => next.carried rest

theorem carried_of_ok {b : Builder} {op : Op} (h : (b.step op).2 = .ok ()) (rest : List Op) :
    b.carried (op :: rest) = op :: (b.step op).1.carried rest := by
  rw [carried]
  split <;> rename_i hstep <;> rw [hstep] at h ⊢
  cases h

theorem carried_of_error {b : Builder} {op : Op} {fault : Fault} (h : (b.step op).2 = .error fault) (rest : List Op) :
    b.carried (op :: rest) = (b.step op).1.carried rest := by
  rw [carried]
  split <;> rename_i hstep <;> rw [hstep] at h ⊢
  cases h

/-- the edit says with names what the write does with symbols -/
theorem Op.edit?_of_write {op : Op} {w : Write} (hw : op.write? = some w) :
    ∃ e, op.edit? = some e ∧ e.node = w.id ∧ ∀ names : Names, names.Distinct → ∀ k, names.resolve? k = some w.name →
      ∀ n r, names.Spells n r → names.Spells (w.change k n) (e.apply r) := by
  have hslot : ∀ {names : Names}, names.Distinct → ∀ {k field}, names.resolve? k = some field →
      ∀ (value : Option Slot → Slot) {n r}, names.Spells n r →
        names.Spells { n with slots := n.slots.alter k value } { r with slots := r.slots.alter field value } :=
    fun hd _ _ hk value _ _ hs => ⟨hs.kind, hs.span, Names.SpellsKeys.alter hd hs.slots hk value, hs.attrs⟩
  cases op with
  | node kind span => cases hw
  | setChild parent field _ | setOptional parent field _ | setSequence parent field _ =>
    cases hw
    exact ⟨_, rfl, rfl, fun _ hd _ hk _ _ hs => hslot hd hk _ hs⟩
  | pushChild parent field child =>
    cases hw
    exact ⟨_, rfl, rfl, fun _ hd _ hk _ _ hs => hslot hd hk (grown child) hs⟩
  | setAttr id name value =>
    cases hw
    exact ⟨_, rfl, rfl, fun _ hd _ hk _ _ hs => ⟨hs.kind, hs.span, hs.slots, hs.attrs.put hd hk value⟩⟩

end Builder

/-! ## What an operation does to the records -/

namespace Reads

open Builder (Edit Op)

variable {b : Builder} {records : List Record}

/-- names that were interned show nothing -/
theorem intern {names : Names} {nodes : Array Node} (h : Reads names nodes records) (s : String) :
    Reads (names.intern s).1 nodes records :=
  ⟨Names.intern_distinct h.distinct s, h.spelled.imp fun _ _ hs => hs.extend (Names.intern_extends names s)⟩

/-- **What a step does to the records.** It appends an empty one, edits one of them, or ends in a fault and changes none. -/
theorem step_cases (h : Reads b.names b.nodes records) (op : Op) :
    (∃ kind span, op = .node kind span ∧ (b.step op).2 = .ok () ∧
      Reads (b.step op).1.names (b.step op).1.nodes (records ++ [⟨kind, span, [], []⟩])) ∨
    (∃ e, op.edit? = some e ∧ e.node < records.length ∧ (b.step op).2 = .ok () ∧
      Reads (b.step op).1.names (b.step op).1.nodes (records.modify e.node e.apply)) ∨
    ∃ fault, (b.step op).2 = .error fault ∧ Reads (b.step op).1.names (b.step op).1.nodes records := by
  rcases b.step_cases op with ⟨kind, span, rfl, -⟩ | ⟨w, hw, ⟨child, -, -, hstep⟩ | ⟨-, hcase⟩⟩
  · exact .inl ⟨kind, span, rfl, rfl, h.node kind span⟩
  · exact .inr (.inr ⟨_, by rw [hstep], by rw [hstep]; exact h⟩)
  · obtain ⟨e, he, hid, hchange⟩ := Op.edit?_of_write hw
    rcases hcase with ⟨-, hstep⟩ | ⟨hlt, hstep⟩
    · exact .inr (.inr ⟨_, by rw [hstep], by rw [hstep]; exact h.intern w.name⟩)
    · rw [h.size_eq] at hlt
      have hreads := h.amend w.id hlt w.name hchange
      have hsame : (b.step op).1 = (b.amend w.id w.name w.change).1 := by
        have hsize : w.id < b.nodes.size := h.size_eq ▸ hlt
        simp only [hstep, Builder.amend, if_pos hsize]
      refine .inr (.inl ⟨e, he, hid ▸ hlt, by rw [hstep], ?_⟩)
      rw [hsame, hid]
      exact hreads

/-- an update that does not end in a fault edits a record -/
theorem of_edit (h : Reads b.names b.nodes records) {op : Op} {e : Edit} (he : op.edit? = some e)
    (hok : (b.step op).2 = .ok ()) :
    e.node < records.length ∧ Reads (b.step op).1.names (b.step op).1.nodes (records.modify e.node e.apply) := by
  rcases h.step_cases op with ⟨kind, span, rfl, -⟩ | ⟨e', he', hlt, -, hreads⟩ | ⟨fault, hfault, -⟩
  · cases he
  · rw [he] at he'
    cases he'
    exact ⟨hlt, hreads⟩
  · rw [hok] at hfault
    cases hfault

/-- the record of an id after an edit -/
theorem recordAt_modify (records : List Record) (e : Edit) (id : NodeId) :
    recordAt (records.modify e.node e.apply) id = (recordAt records id).map (e.amendAt id) := by
  simp only [recordAt, List.getElem?_modify, List.length_modify]
  cases records[id]? with
  | none => rfl
  | some r => by_cases hid : e.node = id <;> simp [Edit.amendAt, hid, Except.map]

/-- **A reader sees the edit and nothing else.** -/
theorem seen {t t' : Tree} {e : Edit} (h : Reads t.names t.nodes records) (hlt : e.node < records.length)
    (h' : Reads t'.names t'.nodes (records.modify e.node e.apply)) : e.Seen t t' := by
  obtain ⟨r, hr⟩ : ∃ r, recordAt records e.node = .ok r := ⟨records[e.node], by simp [recordAt, hlt]⟩
  have hr' : recordAt (records.modify e.node e.apply) e.node = .ok (e.apply r) := by
    rw [recordAt_modify, hr, Except.map, Edit.amendAt, if_pos rfl]
  have hs := h.shows e.node hr
  have hs' := h'.shows e.node hr'
  refine ⟨fun id hid => h.sameAt id h' ?_, ?_, ?_, ?_⟩
  · rw [recordAt_modify]
    cases recordAt records id with
    | error fault => rfl
    | ok r => rw [Except.map, Edit.amendAt, if_neg (Ne.symm hid)]
  · rw [hs'.kind, hs.kind]
    cases e <;> rfl
  · rw [hs'.span, hs.span]
    cases e <;> rfl
  · cases e with
    | slot id field value =>
      exact ⟨Edit.wrote_alter hs.slot hs'.slot hs.slots hs'.slots, fun name => (hs'.attr name).trans (hs.attr name).symm,
        hs'.attrs.trans hs.attrs.symm⟩
    | attr id name value =>
      exact ⟨Edit.wrote_alter hs.attr hs'.attr hs.attrs hs'.attrs, fun field => (hs'.slot field).trans (hs.slot field).symm,
        hs'.slots.trans hs.slots.symm⟩

end Reads

/-! ## Slots over a run -/

/-- what the records hold in a slot; a node that is not allocated holds nothing -/
def slotIn (records : List Record) (id : NodeId) (field : String) : Option Slot :=
  records[id]?.bind fun r => r.slots.get? field

theorem slotIn_append (records : List Record) (kind : String) (span : Span) (id : NodeId) (field : String) :
    slotIn (records ++ [⟨kind, span, [], []⟩]) id field = slotIn records id field := by
  rcases Nat.lt_trichotomy id records.length with hlt | rfl | hgt
  · rw [slotIn, slotIn, List.getElem?_append_left hlt]
  · simp [slotIn, Keyed.get?]
  · have hnone : ∀ rs : List Record, rs.length ≤ id → slotIn rs id field = none := by
      intro rs hrs
      rw [slotIn, List.getElem?_eq_none_iff.2 hrs]
      rfl
    rw [hnone _ (by simp; omega), hnone _ (by omega)]

theorem slotIn_modify {records : List Record} {e : Builder.Edit} (hlt : e.node < records.length) (id : NodeId)
    (field : String) :
    slotIn (records.modify e.node e.apply) id field =
      ((e.slotValue? id field).map fun value => value (slotIn records id field)).or (slotIn records id field) := by
  have hmodify : (records.modify e.node e.apply)[id]? = records[id]?.map (e.amendAt id) := by
    rw [List.getElem?_modify]
    rfl
  rw [slotIn, hmodify, Option.bind_map]
  cases hr : records[id]? with
  | none =>
    -- an edit of this slot would be an edit of an allocated node
    cases hvalue : e.slotValue? id field with
    | none => simp [slotIn, hr]
    | some value =>
      have hnode : e.node = id := by
        have hentry := Builder.Edit.entry_of_slotValue? hvalue
        cases e <;> cases hentry
        rfl
      exact absurd (hnode ▸ hlt) (Nat.not_lt.2 (List.getElem?_eq_none_iff.1 hr))
  | some r => simp [slotIn, hr, e.get?_slots_amendAt]

/-- **A slot is the fold of its updates.** After a run, what the records hold in a slot comes from what they held before it by
the updates of that slot, one after the other. -/
theorem Reads.run_slot {b : Builder} {records : List Record} (h : Reads b.names b.nodes records)
    (ops : List Builder.Op) :
    ∃ after, Reads (b.run ops).names (b.run ops).nodes after ∧ ∀ id field, slotIn after id field =
      ((b.carried ops).filterMap (Builder.Op.slotValue? id field)).foldl (fun old value => some (value old))
        (slotIn records id field) := by
  induction ops generalizing b records with
  | nil => exact ⟨records, h, fun _ _ => rfl⟩
  | cons op ops ih =>
    rcases h.step_cases op with ⟨kind, span, rfl, hok, hnext⟩ | ⟨e, he, hlt, hok, hnext⟩ | ⟨fault, herror, hnext⟩
    · obtain ⟨after, hafter, hslots⟩ := ih hnext
      refine ⟨after, hafter, fun id field => ?_⟩
      rw [hslots, slotIn_append, Builder.carried_of_ok hok]
      rfl
    · obtain ⟨after, hafter, hslots⟩ := ih hnext
      refine ⟨after, hafter, fun id field => ?_⟩
      rw [hslots, slotIn_modify hlt, Builder.carried_of_ok hok, List.filterMap_cons, Builder.Op.slotValue?, he,
        Option.bind_some]
      cases e.slotValue? id field <;> rfl
    · obtain ⟨after, hafter, hslots⟩ := ih hnext
      refine ⟨after, hafter, fun id field => ?_⟩
      rw [hslots, Builder.carried_of_error herror]

/-! ## Main result -/

namespace Builder

theorem step_ok_iff {op : Op} {w : Write} (hw : op.write? = some w) (b : Builder) :
    (b.step op).2 = .ok () ↔ (∀ child ∈ w.children, child < b.nodes.size) ∧ w.id < b.nodes.size := by
  rcases b.amendWith_cases w with ⟨child, hc, hle, hstep⟩ | ⟨hchildren, ⟨hle, hstep⟩ | ⟨hlt, hstep⟩⟩
  · have hnot : ¬ ∀ child ∈ w.children, child < b.nodes.size := fun hall => Nat.not_lt.2 hle (hall child hc)
    simp [step_of_write hw, hstep, hnot]
  · simp [step_of_write hw, hstep, Nat.not_lt.2 hle]
  · simp only [step_of_write hw, hstep, true_iff]
    exact ⟨hchildren, hlt⟩

/-- whether an update ends in a fault is a matter of the number of nodes alone -/
theorem step_ok_of_size_eq {b b' : Builder} (hsize : b'.nodes.size = b.nodes.size) {op : Op} {e : Edit}
    (he : op.edit? = some e) (hok : (b.step op).2 = .ok ()) : (b'.step op).2 = .ok () := by
  obtain ⟨w, hw⟩ : ∃ w, op.write? = some w := by
    cases op with
    | node _ _ => cases he
    | _ => exact ⟨_, rfl⟩
  rw [step_ok_iff hw, hsize]
  exact (step_ok_iff hw b).1 hok

/-- updates of different entries that succeed in one order succeed in the other, and everything is looked up alike -/
theorem edits_commute {b : Builder} {records : List Record} (h : Reads b.names b.nodes records) {op op' : Op}
    {e e' : Edit} (he : op.edit? = some e) (he' : op'.edit? = some e') (hne : e.entry ≠ e'.entry)
    (hok : (b.step op).2 = .ok ()) (hok' : ((b.step op).1.step op').2 = .ok ()) :
    (b.step op').2 = .ok () ∧ ((b.step op').1.step op).2 = .ok () ∧
      ∀ id, ((b.step op).1.step op').1.finishEmpty.AlikeAt ((b.step op').1.step op).1.finishEmpty id := by
  obtain ⟨-, hfirst⟩ := h.of_edit he hok
  obtain ⟨-, hboth⟩ := hfirst.of_edit he' hok'
  have hother : (b.step op').2 = .ok () :=
    step_ok_of_size_eq (by rw [h.size_eq, hfirst.size_eq, List.length_modify]) he' hok'
  obtain ⟨-, hsecond⟩ := h.of_edit he' hother
  have hlast : ((b.step op').1.step op).2 = .ok () :=
    step_ok_of_size_eq (by rw [h.size_eq, hsecond.size_eq, List.length_modify]) he hok
  obtain ⟨-, hswapped⟩ := hsecond.of_edit he hlast
  refine ⟨hother, hlast, fun id => ?_⟩
  generalize ((b.step op).1.step op').1 = c at hboth ⊢
  generalize ((b.step op').1.step op).1 = c' at hswapped ⊢
  have hreads : Reads c.finishEmpty.names c.finishEmpty.nodes _ := hboth
  have hreads' : Reads c'.finishEmpty.names c'.finishEmpty.nodes _ := hswapped
  cases hr : recordAt records id with
  | error fault =>
    exact (hreads.sameAt id hreads' (by simp only [Reads.recordAt_modify, hr, Except.map])).toAlikeAt
  | ok r =>
    have hs := hreads.shows id (by rw [Reads.recordAt_modify, Reads.recordAt_modify, hr]; rfl)
    have hs' := hreads'.shows id (by rw [Reads.recordAt_modify, Reads.recordAt_modify, hr]; rfl)
    obtain ⟨hkind, hspan, hslot, hattr⟩ := Edit.amendAt_comm hne id r
    exact ⟨by rw [hs'.kind, hs.kind, hkind], by rw [hs'.span, hs.span, hspan],
      fun field => by rw [hs'.slot, hs.slot, hslot], fun name => by rw [hs'.attr, hs.attr, hattr]⟩

/-- **Updates touch only what they name, and those of different entries commute.** For every builder, that is after every
run, with faults or without:
- a reader sees of an update that did not end in a fault the entry it names, with its new value at its old place or last, and
  nothing else;
- what a slot of a node holds is the fold of the updates of that slot, in the order of the run;
- two updates of different entries that do not end in a fault do not so in the other order either, and whatever is looked up
  by name afterwards is the same. -/
theorem updates_local_and_commuting (ops : List Op) :
    let b := empty.run ops
    (∀ op e, op.edit? = some e → (b.step op).2 = .ok () → e.Seen b.finishEmpty (b.step op).1.finishEmpty) ∧
    (∀ id field, id < b.size → b.finishEmpty.slot id field =
      .ok (((empty.carried ops).filterMap (Op.slotValue? id field)).foldl (fun old value => some (value old)) none)) ∧
    ∀ op op' e e', op.edit? = some e → op'.edit? = some e' → e.entry ≠ e'.entry →
      (b.step op).2 = .ok () → ((b.step op).1.step op').2 = .ok () →
      (b.step op').2 = .ok () ∧ ((b.step op').1.step op).2 = .ok () ∧
        ∀ id, ((b.step op).1.step op').1.finishEmpty.AlikeAt ((b.step op').1.step op).1.finishEmpty id := by
  intro b
  obtain ⟨records, hreads, hslots⟩ := Reads.empty.run_slot ops
  refine ⟨fun op e he hok => ?_, fun id field hid => ?_, fun op op' e e' he he' hne hok hok' => ?_⟩
  · obtain ⟨hlt, hnext⟩ := hreads.of_edit he hok
    exact Reads.seen (t := b.finishEmpty) hreads hlt hnext
  · have hlt : id < records.length := hreads.size_eq ▸ hid
    have hshows := Reads.shows (t := b.finishEmpty) hreads id (r := records[id]) (by simp [recordAt, hlt])
    rw [hshows.slot, ← show slotIn [] id field = none from rfl, ← hslots]
    simp [slotIn, hlt]
  · exact edits_commute hreads he he' hne hok hok'

/-- After the run with two faults: one more item is pushed, at the end of the sequence and with the head behind it as it was.
What the list holds came from two updates of six. An attribute and a slot, each with a name of its own, can be written in
either order; the names then come in different orders, and no reader can tell. -/
theorem updates_local_and_commuting_mixed :
    let b := empty.run mixedOps
    let pushed := b.step (.pushChild 0 "items" (some 0))
    let there := (b.step (.setAttr 1 "name" (.string "a"))).1.step (.setChild 0 "tail" 1)
    let back := (b.step (.setChild 0 "tail" 1)).1.step (.setAttr 1 "name" (.string "a"))
    pushed.2 = .ok () ∧ (∃ e, Op.edit? (.pushChild 0 "items" (some 0)) = some e ∧ e.Seen b.finishEmpty pushed.1.finishEmpty) ∧
    pushed.1.finishEmpty.slots 0 =
      .ok [("items", .sequence [none, some 1, some 0]), ("head", .optional (some 1))] ∧
    (empty.carried mixedOps).length = 6 ∧ b.finishEmpty.slot 0 "items" = .ok (some (.sequence [none, some 1])) ∧
    there.1.names ≠ back.1.names ∧ there.2 = .ok () ∧ back.2 = .ok () ∧
    there.1.finishEmpty.AlikeAt back.1.finishEmpty 0 ∧ there.1.finishEmpty.AlikeAt back.1.finishEmpty 1 := by
  intro b pushed there back
  obtain ⟨hseen, hfold, hcommute⟩ := updates_local_and_commuting mixedOps
  have hpushed : pushed.2 = .ok () := by decide +kernel
  have hthere : there.2 = .ok () := by decide +kernel
  obtain ⟨-, hback, halike⟩ := hcommute (.setAttr 1 "name" (.string "a")) (.setChild 0 "tail" 1) _ _ rfl rfl
    (by decide) (by decide +kernel) hthere
  refine ⟨hpushed, ⟨_, rfl, hseen _ _ rfl hpushed⟩, by decide +kernel, by decide +kernel, ?_, by decide +kernel, hthere, hback,
    halike 0, halike 1⟩
  rw [hfold 0 "items" (by decide +kernel)]
  decide +kernel

end Builder

end Arbor
