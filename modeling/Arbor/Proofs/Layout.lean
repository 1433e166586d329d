/-
What loading writes. `NodeAt schema base v fresh` says that a node loaded from `v` when `base` nodes are allocated adds the
records `fresh`: its own first, under the id `base`, then those of its children, field after field. Neither paths nor
errors nor the name list occur in it; a subtree is a block of records that nothing before or after it changes.

The blocks are described by three rules that follow each other as the loader does:
- `NodeAt`: one node with all that is below it;
- `SlotsAt`: the fields of a node, each with the slot it becomes and the records that this adds;
- `ItemsAt`: the values of a sequence, each with its id or a hole.

What a load that succeeds did is said once, one lemma per loading function (`Load.items_cons_ok`, `Load.slots_cons_ok`,
`Load.node_ok`), and every fact about loaded trees is an induction that cites these.

- `Load.node_lays`: whatever is in the arena, a node that loads adds such a block at its end and leaves the rest alone.
- `ofValue_lays`: a loaded tree is the block of its root.
-/
import Mathlib.Data.List.Permutation
import Arbor.Proofs.Records
import Arbor.Tree.Load

namespace Arbor

open Json (Value member?)

/-- no kind lists a field twice -/
def Schema.Distinct (schema : Schema) : Prop := ∀ kind, ((schema.fieldsOf kind).map Field.name).Nodup

mutual

/-- the records of a node loaded from the value, which gets the id `base` -/
inductive NodeAt (schema : Schema) : Nat → Value → List Record → Prop
  | node {base : Nat} {members : List (String × Value)} {kind : String} {span : Span} {placed : List (String × Slot)}
    {below : List Record} (hkind : Load.kindOf? members = some kind) (hspan : Load.spanOf? members = some span)
    (hslots : SlotsAt schema members (base + 1) (schema.fieldsOf kind) placed below) :
    NodeAt schema base (.object members)
      (⟨kind, span, Keyed.putAll [] placed, Keyed.putAll [] (Load.attributes (schema.fieldsOf kind) members)⟩ :: below)

/-- the slots of the given fields and the records below them, of which the first gets the id `base` -/
inductive SlotsAt (schema : Schema) : List (String × Value) → Nat → List Field → List (String × Slot) → List Record → Prop
  | done {members : List (String × Value)} {base : Nat} : SlotsAt schema members base [] [] []
  | absent {members : List (String × Value)} {base : Nat} {f : Field} {fields : List Field}
    {placed : List (String × Slot)} {fresh : List Record}
    (hm : member? members f.name = none ∨ member? members f.name = some .null)
    (hrest : SlotsAt schema members base fields placed fresh) :
    SlotsAt schema members base (f :: fields) ((f.name, Load.absentSlot f) :: placed) fresh
  | child {members w : List (String × Value)} {base : Nat} {f : Field} {fields : List Field}
    {placed : List (String × Slot)} {sub fresh : List Record} (hm : member? members f.name = some (.object w))
    (hsub : NodeAt schema base (.object w) sub)
    (hrest : SlotsAt schema members (base + sub.length) fields placed fresh) :
    SlotsAt schema members base (f :: fields) ((f.name, Load.presentSlot f base) :: placed) (sub ++ fresh)
  | array {members : List (String × Value)} {values : List Value} {base : Nat} {f : Field} {fields : List Field}
    {placed : List (String × Slot)} {ids : List (Option NodeId)} {sub fresh : List Record}
    (hm : member? members f.name = some (.array values)) (hsub : ItemsAt schema base values ids sub)
    (hrest : SlotsAt schema members (base + sub.length) fields placed fresh) :
    SlotsAt schema members base (f :: fields) ((f.name, .sequence ids) :: placed) (sub ++ fresh)

/-- the ids and holes of a sequence and the records below it, of which the first gets the id `base` -/
inductive ItemsAt (schema : Schema) : Nat → List Value → List (Option NodeId) → List Record → Prop
  | done {base : Nat} : ItemsAt schema base [] [] []
  | hole {base : Nat} {values : List Value} {ids : List (Option NodeId)} {fresh : List Record}
    (hrest : ItemsAt schema base values ids fresh) : ItemsAt schema base (.null :: values) (none :: ids) fresh
  | item {base : Nat} {v : Value} {values : List Value} {ids : List (Option NodeId)} {sub fresh : List Record}
    (hsub : NodeAt schema base v sub) (hrest : ItemsAt schema (base + sub.length) values ids fresh) :
    ItemsAt schema base (v :: values) (some base :: ids) (sub ++ fresh)

end

theorem NodeAt.length_pos {schema : Schema} {base : Nat} {v : Value} {fresh : List Record}
    (h : NodeAt schema base v fresh) : 0 < fresh.length := by
  cases h
  simp

theorem ItemsAt.lt_of_mem {schema : Schema} {base : Nat} {values : List Value} {ids : List (Option NodeId)}
    {fresh : List Record} (h : ItemsAt schema base values ids fresh) :
    ∀ c : Nat, c ∈ ids.reduceOption → c < base + fresh.length := by
  match h with
  | .done => simp
  | .hole hrest => simpa using hrest.lt_of_mem
  | .item hsub hrest =>
    intro c hc
    have hpos := hsub.length_pos
    rw [List.length_append]
    rcases List.mem_cons.1 hc with rfl | hc
    · omega
    · have := hrest.lt_of_mem c hc
      omega

theorem SlotsAt.keys {schema : Schema} {members : List (String × Value)} {base : Nat} {fields : List Field}
    {placed : List (String × Slot)} {fresh : List Record} (h : SlotsAt schema members base fields placed fresh) :
    Keyed.keys placed = fields.map Field.name := by
  induction fields generalizing base placed fresh with
  | nil => cases h; rfl
  | cons f rest ih =>
    cases h with
    | absent _ hrest => simpa [Keyed.keys] using ih hrest
    | child _ _ hrest => simpa [Keyed.keys] using ih hrest
    | array _ _ hrest => simpa [Keyed.keys] using ih hrest

theorem modify_middle {α : Type} (pre below : List α) (r : α) (f : α → α) :
    (pre ++ r :: below).modify pre.length f = pre ++ f r :: below := by
  induction pre with
  | nil => rfl
  | cons p rest ih => simpa using ih

theorem ids_absentSlot (f : Field) : (Load.absentSlot f).ids = [] := by
  unfold Load.absentSlot
  split_ifs <;> rfl

theorem ids_presentSlot (f : Field) (child : NodeId) : (Load.presentSlot f child).ids = [child] := by
  unfold Load.presentSlot
  split_ifs <;> rfl

/-- Induction over values: a property may be assumed of all that the members of an object hold, at every depth. -/
theorem forall_of_members {P : Value → Prop}
    (h : ∀ v, (∀ members, v = .object members → ∀ w, sizeOf w < sizeOf members → P w) → P v) (v : Value) : P v := by
  refine (measure fun w : Value => sizeOf w).wf.induction v fun v ih => h v ?_
  rintro members rfl w hw
  apply ih
  show sizeOf w < sizeOf (Value.object members)
  rw [Value.object.sizeOf_spec]
  omega

theorem sizeOf_item_lt {members : List (String × Value)} {key : String} {values : List Value} {w : Value}
    (hm : member? members key = some (.array values)) (hw : w ∈ values) : sizeOf w < sizeOf members := by
  have harray := Load.sizeOf_member?_lt hm
  have hitem := List.sizeOf_lt_of_mem hw
  rw [Value.array.sizeOf_spec] at harray
  omega

namespace Load

/-- writing attributes changes the attributes of one record -/
theorem setAttributes_reads (attrs : List (String × Scalar)) {pre below : List Record} :
    ∀ {b : Builder} {r : Record}, Reads b.names b.nodes (pre ++ r :: below) →
      Reads (setAttributes b pre.length attrs).names (setAttributes b pre.length attrs).nodes
        (pre ++ { r with attrs := r.attrs.putAll attrs } :: below) := by
  induction attrs with
  | nil => intro b r h; exact h
  | cons p rest ih =>
    intro b r h
    have hset := h.setAttr pre.length (by simp) p.1 p.2
    rw [modify_middle] at hset
    exact ih hset

/-- writing a slot changes the slots of one record -/
theorem setSlot_reads {b : Builder} {pre below : List Record} {r : Record}
    (h : Reads b.names b.nodes (pre ++ r :: below)) (field : String) (slot : Slot)
    (hslot : ∀ c : Nat, c ∈ slot.ids → c < (pre ++ r :: below).length) :
    Reads (b.setSlot pre.length field slot).1.names (b.setSlot pre.length field slot).1.nodes
      (pre ++ { r with slots := r.slots.put field slot } :: below) := by
  have hset := h.setSlot pre.length (by simp) field slot hslot
  rwa [modify_middle] at hset

/-! ## Loads that succeed -/

section Success

variable {schema : Schema} {path : List PathStep} {b later : Builder}

/-- what was loaded of a list of values: a hole for `null`, or a node, and then the others -/
theorem items_cons_ok {i : Nat} {v : Value} {rest : List Value} {ids : List (Option NodeId)}
    (h : items schema path i (v :: rest) b = .ok (ids, later)) :
    (v = .null ∧ ∃ more, items schema path (i + 1) rest b = .ok (more, later) ∧ ids = none :: more) ∨
      ∃ id loaded more, node schema (path ++ [.index i]) v b = .ok (id, loaded) ∧
        items schema path (i + 1) rest loaded = .ok (more, later) ∧ ids = some id :: more := by
  rw [items.eq_def] at h
  split at h
  · rename_i heq; cases heq
  · rename_i heq
    cases heq
    split at h
    · cases h
    · rename_i more loaded hitems
      cases h
      exact .inl ⟨rfl, more, hitems, rfl⟩
  · rename_i heq
    cases heq
    split at h
    · cases h
    · rename_i id loaded hnode
      split at h
      · cases h
      · rename_i more after hitems
        cases h
        exact .inr ⟨id, loaded, more, hnode, hitems, rfl⟩

/-- what was loaded of the fields of a node: what the first one holds, if anything, its slot, and then the others -/
theorem slots_cons_ok {kind : String} {members : List (String × Value)} {id : NodeId} {f : Field} {rest : List Field}
    (h : slots schema path kind members id (f :: rest) b = .ok later) :
    ∃ loaded slot, slots schema path kind members id rest (loaded.setSlot id f.name slot).1 = .ok later ∧
      (((member? members f.name = none ∨ member? members f.name = some .null) ∧ loaded = b ∧ slot = absentSlot f) ∨
      (∃ child c, member? members f.name = some (.object child) ∧
        node schema (path ++ [.field f.name]) (.object child) b = .ok (c, loaded) ∧ slot = presentSlot f c) ∨
      ∃ values ids, member? members f.name = some (.array values) ∧
        items schema (path ++ [.field f.name]) 0 values b = .ok (ids, loaded) ∧ slot = .sequence ids) := by
  rw [slots.eq_def] at h
  dsimp only at h
  split at h
  · rename_i hm
    exact ⟨b, _, h, .inl ⟨.inl hm, rfl, rfl⟩⟩
  · rename_i hm
    exact ⟨b, _, h, .inl ⟨.inr hm, rfl, rfl⟩⟩
  · rename_i child hm
    split at h
    · cases h
    · rename_i c loaded hnode
      exact ⟨loaded, _, h, .inr (.inl ⟨child, c, hm, hnode, rfl⟩)⟩
  · rename_i values hm
    split at h
    · cases h
    · rename_i ids loaded hitems
      exact ⟨loaded, _, h, .inr (.inr ⟨values, ids, hm, hitems, rfl⟩)⟩
  · cases h

/-- what was loaded as a node: an object with a kind and a range, its fields and then its attributes -/
theorem node_ok {v : Value} {id : NodeId} (h : node schema path v b = .ok (id, later)) :
    ∃ members kind span filled, v = .object members ∧ kindOf? members = some kind ∧ spanOf? members = some span ∧
      id = (b.node kind span).2 ∧
      slots schema path kind members id (schema.fieldsOf kind) (b.node kind span).1 = .ok filled ∧
      later = setAttributes filled id (attributes (schema.fieldsOf kind) members) := by
  rw [node.eq_def] at h
  split at h
  · rename_i members
    split at h
    · cases h
    · rename_i kind hkind
      split at h
      · cases h
      · rename_i span hspan
        dsimp only at h
        split at h
        · cases h
        · rename_i filled hslots
          cases h
          exact ⟨members, kind, span, filled, rfl, hkind, hspan, rfl, hslots, rfl⟩
  · cases h

end Success

/-! ## What they add -/

/-- loading the value, wherever it stands, adds its block at the end of the arena -/
def Lays (schema : Schema) (v : Value) : Prop :=
  ∀ (path : List PathStep) (b b' : Builder) (id : NodeId) (records : List Record),
    Reads b.names b.nodes records → node schema path v b = .ok (id, b') →
      id = records.length ∧
        ∃ fresh, NodeAt schema records.length v fresh ∧ Reads b'.names b'.nodes (records ++ fresh)

theorem items_lays {schema : Schema} {path : List PathStep} (values : List Value) (hlays : ∀ w ∈ values, Lays schema w) :
    ∀ {i : Nat} {b b' : Builder} {ids : List (Option NodeId)} {records : List Record},
      Reads b.names b.nodes records → items schema path i values b = .ok (ids, b') →
        ∃ fresh, ItemsAt schema records.length values ids fresh ∧ Reads b'.names b'.nodes (records ++ fresh) := by
  induction values with
  | nil =>
    intro i b b' ids records hb h
    rw [items] at h
    cases h
    exact ⟨[], .done, by simpa using hb⟩
  | cons v rest ih =>
    intro i b b' ids records hb h
    have hrest : ∀ w ∈ rest, Lays schema w := fun w hw => hlays w (List.mem_cons_of_mem v hw)
    rcases items_cons_ok h with ⟨rfl, more, hitems, rfl⟩ | ⟨id, loaded, more, hnode, hitems, rfl⟩
    · obtain ⟨fresh, hlaid, hreads⟩ := ih hrest hb hitems
      exact ⟨fresh, .hole hlaid, hreads⟩
    · obtain ⟨rfl, sub, hsub, hloaded⟩ := hlays v List.mem_cons_self _ _ _ _ _ hb hnode
      obtain ⟨fresh, hlaid, hreads⟩ := ih hrest hloaded hitems
      exact ⟨sub ++ fresh, .item hsub (by simpa using hlaid), by simpa using hreads⟩

/-- The node under construction is `r`, at the id `pre.length`; what its fields have added so far is `below`. Each field
adds its block and then writes its slot into `r`, which lies before the block and outside of all the others. -/
theorem slots_lays {schema : Schema} {path : List PathStep} {kind : String} {members : List (String × Value)}
    (hlays : ∀ w, sizeOf w < sizeOf members → Lays schema w) {pre : List Record} (fields : List Field) :
    ∀ {b b' : Builder} {r : Record} {below : List Record}, Reads b.names b.nodes (pre ++ r :: below) →
      slots schema path kind members pre.length fields b = .ok b' →
        ∃ placed fresh, SlotsAt schema members (pre.length + 1 + below.length) fields placed fresh ∧
          Reads b'.names b'.nodes (pre ++ { r with slots := r.slots.putAll placed } :: (below ++ fresh)) := by
  induction fields with
  | nil =>
    intro b b' r below hb h
    rw [slots] at h
    cases h
    exact ⟨[], [], .done, by simpa using hb⟩
  | cons f rest ih =>
    intro b b' r below hb h
    have hlen : (pre ++ r :: below).length = pre.length + 1 + below.length := by simp; omega
    obtain ⟨loaded, slot, hnext, hslot⟩ := slots_cons_ok h
    -- once the first field has added `sub`, its slot is written and the other fields follow
    have hwrite : ∀ sub : List Record, Reads loaded.names loaded.nodes (pre ++ r :: below ++ sub) →
        (∀ c : Nat, c ∈ slot.ids → c < pre.length + 1 + below.length + sub.length) →
        ∃ placed fresh, SlotsAt schema members (pre.length + 1 + below.length + sub.length) rest placed fresh ∧
          Reads b'.names b'.nodes
            (pre ++ { r with slots := r.slots.putAll ((f.name, slot) :: placed) } :: (below ++ (sub ++ fresh))) := by
      intro sub hloaded hids
      rw [List.append_assoc, List.cons_append] at hloaded
      have hset := setSlot_reads hloaded f.name slot fun c hc => by
        have := hids c hc
        simp only [List.length_append, List.length_cons]
        omega
      obtain ⟨placed, fresh, hlaid, hreads⟩ := ih hset hnext
      rw [List.length_append, ← Nat.add_assoc] at hlaid
      exact ⟨placed, fresh, hlaid, by simpa using hreads⟩
    rcases hslot with ⟨hm, rfl, rfl⟩ | ⟨child, c, hm, hnode, rfl⟩ | ⟨values, ids, hm, hitems, rfl⟩
    · obtain ⟨placed, fresh, hlaid, hreads⟩ := hwrite [] (by simpa using hb) (by simp [ids_absentSlot])
      exact ⟨_, fresh, .absent hm hlaid, hreads⟩
    · obtain ⟨rfl, sub, hsub, hloaded⟩ := hlays _ (sizeOf_member?_lt hm) _ _ _ _ _ hb hnode
      rw [hlen] at hsub hwrite
      have hpos := hsub.length_pos
      obtain ⟨placed, fresh, hlaid, hreads⟩ := hwrite sub hloaded (by simp [ids_presentSlot, hpos])
      exact ⟨_, _, .child hm hsub hlaid, hreads⟩
    · obtain ⟨sub, hsub, hloaded⟩ := items_lays values (fun w hw => hlays w (sizeOf_item_lt hm hw)) hb hitems
      rw [hlen] at hsub
      obtain ⟨placed, fresh, hlaid, hreads⟩ := hwrite sub hloaded (by rw [Slot.ids_sequence]; exact hsub.lt_of_mem)
      exact ⟨_, _, .array hm hsub hlaid, hreads⟩

/-- **Loading a node** adds its block at the end of the arena, whatever the arena holds. -/
theorem node_lays (schema : Schema) (v : Value) : Lays schema v := by
  refine forall_of_members (fun v hlays => ?_) v
  intro path b b' id records hb h
  obtain ⟨members, kind, span, filled, rfl, hkind, hspan, rfl, hslots, rfl⟩ := node_ok h
  have hid : (b.node kind span).2 = records.length := hb.size_eq
  rw [hid] at hslots ⊢
  obtain ⟨placed, below, hlaid, hreads⟩ := slots_lays (hlays members rfl) _ (hb.node kind span) hslots
  exact ⟨rfl, _, .node hkind hspan hlaid, setAttributes_reads _ hreads⟩

end Load

/-! ## Blocks of a tree -/

/-- the records stand in the arena from the id `base` on -/
def Tree.Holds (t : Tree) (base : Nat) (block : List Record) : Prop :=
  ∃ before after, before.length = base ∧ Reads t.names t.nodes (before ++ block ++ after)

namespace Tree.Holds

variable {t : Tree} {base : Nat}

theorem first {r : Record} {below : List Record} (h : t.Holds base (r :: below)) :
    ∃ records, Reads t.names t.nodes records ∧ records[base]? = some r := by
  obtain ⟨before, after, rfl, hreads⟩ := h
  exact ⟨_, hreads, by simp⟩

theorem rest {r : Record} {below : List Record} (h : t.Holds base (r :: below)) : t.Holds (base + 1) below := by
  obtain ⟨before, after, rfl, hreads⟩ := h
  exact ⟨before ++ [r], after, by simp, by simpa using hreads⟩

theorem left {sub fresh : List Record} (h : t.Holds base (sub ++ fresh)) : t.Holds base sub := by
  obtain ⟨before, after, rfl, hreads⟩ := h
  exact ⟨before, fresh ++ after, rfl, by simpa using hreads⟩

theorem right {sub fresh : List Record} (h : t.Holds base (sub ++ fresh)) : t.Holds (base + sub.length) fresh := by
  obtain ⟨before, after, rfl, hreads⟩ := h
  exact ⟨before ++ sub, after, by simp, by simpa using hreads⟩

end Tree.Holds

/-- **A loaded tree is the block of its root**, which has the id 0. -/
theorem ofValue_lays {schema : Schema} {v : Value} {t : Tree} (h : Tree.ofValue schema v = .ok t) :
    t.root = some 0 ∧ ∃ records, NodeAt schema 0 v records ∧ Reads t.names t.nodes records := by
  unfold Tree.ofValue at h
  split at h
  · cases h
  · rename_i root b hnode
    cases h
    obtain ⟨rfl, records, hlaid, hreads⟩ := Load.node_lays schema v _ _ _ _ _ Reads.empty hnode
    exact ⟨rfl, records, hlaid, hreads⟩

/-! ## A loaded list -/

/-- lists with items, a head and possibly a tail -/
def listSchema : Schema :=
  ⟨fun kind => if kind = "List" then some [⟨"items", .many⟩, ⟨"head", .single⟩, ⟨"tail", .optional⟩] else none⟩

/-- a name with its range as a pair -/
def nameValue (name : String) (start stop : Nat) : Value :=
  .object [("name", .string name), ("range", .array [.nat start, .nat stop]), ("type", .string "Name")]

/-- a list that holds one name between two holes, one name as its head and no tail -/
def listValue : Value :=
  .object [("end", .nat 9), ("flag", .bool true), ("head", nameValue "x" 1 2),
    ("items", .array [.null, nameValue "y" 4 5, .null]), ("level", .number (.integer 3)), ("loc", .object []), ("start", .nat 0),
    ("type", .string "List"), ("weight", .number (.double ⟨true, 0x18000000000000, -52⟩))]

/-- the arena of the list; the names are numbered as they were first needed -/
def listTree : Tree where
  names := ⟨#["List", "Name", "name", "items", "head", "tail", "flag", "level", "weight"]⟩
  nodes := #[
    ⟨0, ⟨0, 9⟩, [(3, .sequence [none, some 1, none]), (4, .node 2), (5, .optional none)],
      [(6, .bool true), (7, .number ⟨false, 0x18000000000000, -51⟩), (8, .number ⟨true, 0x18000000000000, -52⟩)]⟩,
    ⟨1, ⟨4, 5⟩, [], [(2, .string "y")]⟩,
    ⟨1, ⟨1, 2⟩, [], [(2, .string "x")]⟩]
  root := some 0

theorem listSchema_distinct : listSchema.Distinct := by
  intro kind
  unfold Schema.fieldsOf listSchema
  dsimp only
  split_ifs <;> decide

theorem ofValue_listValue : Tree.ofValue listSchema listValue = .ok listTree := by
  have hlevel : (Json.Number.integer 3).toBinary64 = ⟨false, 0x18000000000000, -51⟩ := by decide +kernel
  rw [listTree, ← hlevel, listValue]
  -- how the level is rounded plays no part in the rest
  generalize Json.Number.integer 3 = level
  cbv

end Arbor
