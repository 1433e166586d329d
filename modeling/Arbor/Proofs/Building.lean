/-
What every run of a builder keeps. A builder stores ids and symbols, and these are good only in the arena and the name
list that issued them. `WellFormed names nodes` says that nothing else is stored: every id in a slot is one of the arena,
every symbol one of the name list, and no name stands twice among the slots or among the attributes of a node.

All operations but the allocation of a node do one thing (`Write`): look at the children, intern a name, change the entry
of that name in one node. `step_cases` says once what a step can do, faults included, and all else follows from it.

- `step_wellFormed`, `run_wellFormed`: one step keeps the arena well-formed, and so does a run.
- `step_fault`: a step that ends in a fault changes no node, and of the names it appends at most its own.
- `WellFormed.answers`: in a well-formed tree every question about a node of the arena has an answer.
-/
import Arbor.Proofs.Records

namespace Arbor

/-! ## Names that grow -/

namespace Names

theorem find?_lt_size {names : Names} {s : String} {k : Symbol} (h : names.find? s = some k) : k < names.size := by
  obtain ⟨⟨strings⟩⟩ := names
  rw [find?, List.idxOf?_toArray, List.idxOf?_eq_some_iff] at h
  exact h.1

/-- interning finds the string, or appends it -/
theorem intern_cases (names : Names) (s : String) :
    (names.intern s).1 = names ∧ (names.intern s).2 < names.size ∨
      s ∉ names.strings ∧ names.intern s = (⟨names.strings.push s⟩, names.size) := by
  unfold intern
  split
  · rename_i k hk
    exact .inl ⟨rfl, find?_lt_size hk⟩
  · rename_i hnone
    exact .inr ⟨Array.idxOf?_eq_none_iff.1 hnone, rfl⟩

theorem size_le_intern (names : Names) (s : String) : names.size ≤ (names.intern s).1.size := by
  rcases names.intern_cases s with ⟨hsame, -⟩ | ⟨-, hnew⟩
  · exact Nat.le_of_eq (congrArg size hsame.symm)
  · rw [hnew]; simp [size]

theorem intern_lt_size (names : Names) (s : String) : (names.intern s).2 < (names.intern s).1.size := by
  rcases names.intern_cases s with ⟨hsame, hlt⟩ | ⟨-, hnew⟩
  · rwa [hsame]
  · rw [hnew]; simp [size]

theorem exists_resolve {names : Names} {k : Symbol} (h : k < names.size) : ∃ s, names.resolve k = .ok s := by
  refine ⟨names.strings[k], Reads.resolve_eq ?_⟩
  exact Array.getElem?_eq_getElem h

end Names

/-! ## Well-formed arenas -/

/-- everything that the node stores was issued, its ids by an arena of `count` nodes and its symbols by the names; no name
stands twice among its slots or among its attributes -/
structure Node.WellFormed (names : Names) (count : Nat) (n : Node) : Prop where
  kind : n.kind < names.size
  slotNames : ∀ k ∈ n.slots.keys, k < names.size
  attrNames : ∀ k ∈ n.attrs.keys, k < names.size
  slotsOnce : n.slots.keys.Nodup
  attrsOnce : n.attrs.keys.Nodup
  held : ∀ entry ∈ n.slots, ∀ child ∈ entry.2.ids, child < count

/-- the names are distinct and every node is well-formed -/
structure WellFormed (names : Names) (nodes : Array Node) : Prop where
  distinct : names.Distinct
  nodes : ∀ n ∈ nodes, n.WellFormed names nodes.size

namespace Node.WellFormed

variable {names later : Names} {count more : Nat} {n : Node}

/-- what was issued stays issued -/
theorem mono (h : n.WellFormed names count) (hnames : names.size ≤ later.size) (hcount : count ≤ more) :
    n.WellFormed later more where
  kind := Nat.lt_of_lt_of_le h.kind hnames
  slotNames k hk := Nat.lt_of_lt_of_le (h.slotNames k hk) hnames
  attrNames k hk := Nat.lt_of_lt_of_le (h.attrNames k hk) hnames
  slotsOnce := h.slotsOnce
  attrsOnce := h.attrsOnce
  held entry he child hc := Nat.lt_of_lt_of_le (h.held entry he child hc) hcount

theorem keys_alter_lt {ν : Type} {entries : Keyed Symbol ν} (h : ∀ k ∈ entries.keys, k < names.size) {key : Symbol}
    (hkey : key < names.size) (change : Option ν → ν) : ∀ k ∈ (entries.alter key change).keys, k < names.size := by
  intro k hk
  rw [Keyed.keys_alter] at hk
  split_ifs at hk
  · exact h k hk
  · rcases List.mem_append.1 hk with hk | hk
    · exact h k hk
    · rw [List.mem_singleton.1 hk]; exact hkey

/-- a slot may be changed to one that holds only what it held and ids of the arena -/
theorem alterSlot (h : n.WellFormed names count) {symbol : Symbol} (hsymbol : symbol < names.size)
    {change : Option Slot → Slot} (hnew : ∀ child ∈ (change none).ids, child < count)
    (hold : ∀ old : Slot, (∀ child ∈ old.ids, child < count) → ∀ child ∈ (change (some old)).ids, child < count) :
    Node.WellFormed names count { n with slots := n.slots.alter symbol change } where
  kind := h.kind
  slotNames := keys_alter_lt h.slotNames hsymbol change
  attrNames := h.attrNames
  slotsOnce := Keyed.nodup_keys_alter h.slotsOnce symbol change
  attrsOnce := h.attrsOnce
  held := by
    intro entry he
    rcases Keyed.mem_alter he with he | rfl | ⟨old, ho, rfl⟩
    · exact h.held entry he
    · exact hnew
    · exact hold old (h.held _ ho)

theorem putAttr (h : n.WellFormed names count) {symbol : Symbol} (hsymbol : symbol < names.size) (value : Scalar) :
    Node.WellFormed names count { n with attrs := n.attrs.put symbol value } where
  kind := h.kind
  slotNames := h.slotNames
  attrNames := keys_alter_lt h.attrNames hsymbol _
  slotsOnce := h.slotsOnce
  attrsOnce := Keyed.nodup_keys_alter h.attrsOnce symbol _
  held := h.held

end Node.WellFormed

namespace WellFormed

variable {names : Names} {nodes : Array Node}

theorem empty : WellFormed Builder.empty.names Builder.empty.nodes :=
  ⟨Names.distinct_empty, by simp [Builder.empty]⟩

theorem intern (h : WellFormed names nodes) (s : String) : WellFormed (names.intern s).1 nodes :=
  ⟨Names.intern_distinct h.distinct s, fun n hn => (h.nodes n hn).mono (names.size_le_intern s) (Nat.le_refl _)⟩

/-- a new node has a kind and nothing else -/
theorem push (h : WellFormed names nodes) {kind : Symbol} (hkind : kind < names.size) (span : Span) :
    WellFormed names (nodes.push ⟨kind, span, [], []⟩) := by
  refine ⟨h.distinct, fun n hn => ?_⟩
  rcases Array.mem_push.1 hn with hn | rfl
  · exact (h.nodes n hn).mono (Nat.le_refl _) (by simp)
  · exact ⟨hkind, by simp [Keyed.keys], by simp [Keyed.keys], List.nodup_nil, List.nodup_nil, by simp⟩

theorem modify (h : WellFormed names nodes) (id : NodeId) {change : Node → Node}
    (hchange : ∀ n : Node, n.WellFormed names nodes.size → (change n).WellFormed names nodes.size) :
    WellFormed names (nodes.modify id change) := by
  refine ⟨h.distinct, fun n hn => ?_⟩
  rw [Array.size_modify]
  obtain ⟨i, hi, rfl⟩ := Array.mem_iff_getElem.1 hn
  rw [Array.size_modify] at hi
  rw [Array.getElem_modify]
  have hnode := h.nodes nodes[i] (Array.getElem_mem hi)
  split_ifs
  · exact hchange _ hnode
  · exact hnode

end WellFormed

/-! ## One step -/

namespace Builder

/-- what an operation other than an allocation does: it looks at the children, interns the name and changes the node -/
structure Write where
  children : List NodeId
  id : NodeId
  name : String
  change : Symbol → Node → Node

/-- write a slot, whatever was there -/
def Write.slot (parent : NodeId) (field : String) (slot : Slot) : Write :=
  ⟨slot.ids, parent, field, fun symbol n => { n with slots := n.slots.put symbol slot }⟩

/-- the write of an operation, none if it allocates a node -/
def Op.write? : Op → Option Write
  | .node _ _ => none
  | .setChild parent field child => some (.slot parent field (.node child))
  | .setOptional parent field child => some (.slot parent field (.optional child))
  | .setSequence parent field items => some (.slot parent field (.sequence items))
  | .pushChild parent field child =>
    some ⟨child.toList, parent, field, fun symbol n => { n with slots := n.slots.alter symbol (grown child) }⟩
  | .setAttr id name value => some ⟨[], id, name, fun symbol n => { n with attrs := n.attrs.put symbol value }⟩

/-- the field or attribute name that an operation is about -/
def Op.entryName? : Op → Option String
  | .node _ _ => none
  | .setChild _ field _ => some field
  | .setOptional _ field _ => some field
  | .setSequence _ field _ => some field
  | .pushChild _ field _ => some field
  | .setAttr _ name _ => some name

theorem Op.entryName?_eq (op : Op) : op.entryName? = op.write?.map Write.name := by
  cases op <;> rfl

theorem step_of_write {op : Op} {w : Write} (h : op.write? = some w) (b : Builder) :
    b.step op = b.amendWith w.children w.id w.name w.change := by
  cases op <;> cases h <;> rfl

/-- what a write can do: fail at a child, fail at its node after interning the name, or succeed -/
theorem amendWith_cases (b : Builder) (w : Write) :
    (∃ child ∈ w.children, b.nodes.size ≤ child ∧
      b.amendWith w.children w.id w.name w.change = (b, .error (b.unallocated child))) ∨
    (∀ child ∈ w.children, child < b.nodes.size) ∧
      (b.nodes.size ≤ w.id ∧ b.amendWith w.children w.id w.name w.change =
          (⟨(b.names.intern w.name).1, b.nodes⟩, .error (b.unallocated w.id)) ∨
        w.id < b.nodes.size ∧ b.amendWith w.children w.id w.name w.change =
          (⟨(b.names.intern w.name).1, b.nodes.modify w.id (w.change (b.names.intern w.name).2)⟩, .ok ())) := by
  unfold amendWith
  split
  · rename_i child hfind
    have hlt := List.find?_some hfind
    exact .inl ⟨child, List.mem_of_find?_eq_some hfind, of_decide_eq_true hlt, rfl⟩
  · rename_i hnone
    refine .inr ⟨fun child hc => ?_, ?_⟩
    · have hnot := List.find?_eq_none.1 hnone child hc
      simpa using hnot
    · unfold amend
      by_cases hid : w.id < b.nodes.size
      · exact .inr ⟨hid, if_pos hid⟩
      · exact .inl ⟨Nat.le_of_not_lt hid, if_neg hid⟩

/-- **What a step can do.** It allocates a node, or it is a write that fails at a child, fails at its node, or succeeds. -/
theorem step_cases (b : Builder) (op : Op) :
    (∃ kind span, op = .node kind span ∧ b.step op =
      (⟨(b.names.intern kind).1, b.nodes.push ⟨(b.names.intern kind).2, span, [], []⟩⟩, .ok ())) ∨
    ∃ w, op.write? = some w ∧
      ((∃ child ∈ w.children, b.nodes.size ≤ child ∧ b.step op = (b, .error (b.unallocated child))) ∨
      (∀ child ∈ w.children, child < b.nodes.size) ∧
        (b.nodes.size ≤ w.id ∧
          b.step op = (⟨(b.names.intern w.name).1, b.nodes⟩, .error (b.unallocated w.id)) ∨
        w.id < b.nodes.size ∧ b.step op =
          (⟨(b.names.intern w.name).1, b.nodes.modify w.id (w.change (b.names.intern w.name).2)⟩, .ok ()))) := by
  cases hw : op.write? with
  | none =>
    cases op with
    | node kind span => exact .inl ⟨kind, span, rfl, rfl⟩
    | _ => cases hw
  | some w =>
    refine .inr ⟨w, rfl, ?_⟩
    rw [step_of_write hw]
    exact b.amendWith_cases w

/-- a write whose children are allocated keeps its node well-formed -/
theorem Op.write?_wellFormed {op : Op} {w : Write} (hw : op.write? = some w) {names : Names} {count : Nat}
    (hchildren : ∀ child ∈ w.children, child < count) {symbol : Symbol} (hsymbol : symbol < names.size) {n : Node}
    (h : n.WellFormed names count) : (w.change symbol n).WellFormed names count := by
  cases op with
  | node kind span => cases hw
  | setChild parent field child => cases hw; exact h.alterSlot hsymbol hchildren fun _ _ => hchildren
  | setOptional parent field child => cases hw; exact h.alterSlot hsymbol hchildren fun _ _ => hchildren
  | setSequence parent field items => cases hw; exact h.alterSlot hsymbol hchildren fun _ _ => hchildren
  | pushChild parent field child =>
    cases hw
    have hids : (Slot.sequence [child]).ids = child.toList := by cases child <;> rfl
    have hone : ∀ c ∈ (Slot.sequence [child]).ids, c < count := by rw [hids]; exact hchildren
    refine h.alterSlot hsymbol hone fun old hold => ?_
    cases old with
    | node _ => exact hone
    | optional _ => exact hone
    | sequence items =>
      intro c hc
      rw [grown, Slot.ids_sequence, List.reduceOption_append] at hc
      rcases List.mem_append.1 hc with hc | hc
      · exact hold c (by rwa [Slot.ids_sequence])
      · exact hone c (by rwa [Slot.ids_sequence])
  | setAttr id name value => cases hw; exact h.putAttr hsymbol value

theorem step_wellFormed (b : Builder) (op : Op) (h : WellFormed b.names b.nodes) :
    WellFormed (b.step op).1.names (b.step op).1.nodes := by
  rcases b.step_cases op with ⟨kind, span, -, hstep⟩ | ⟨w, hw, ⟨child, -, -, hstep⟩ | ⟨hchildren, hcase⟩⟩
  · rw [hstep]
    exact (h.intern kind).push (b.names.intern_lt_size kind) span
  · rw [hstep]
    exact h
  · have hintern := h.intern w.name
    rcases hcase with ⟨-, hstep⟩ | ⟨-, hstep⟩
    · rw [hstep]
      exact hintern
    · rw [hstep]
      exact hintern.modify w.id fun n hn =>
        Op.write?_wellFormed hw hchildren (b.names.intern_lt_size w.name) hn

theorem run_wellFormed (b : Builder) (ops : List Op) (h : WellFormed b.names b.nodes) :
    WellFormed (b.run ops).names (b.run ops).nodes := by
  induction ops generalizing b with
  | nil => exact h
  | cons op ops ih => exact ih (b.step op).1 (b.step_wellFormed op h)

/-- **A fault changes no node**, and it appends at most the name that the operation is about. -/
theorem step_fault {b : Builder} {op : Op} {fault : Fault} (h : (b.step op).2 = .error fault) :
    (b.step op).1.nodes = b.nodes ∧
      ((b.step op).1.names = b.names ∨
        ∃ name, op.entryName? = some name ∧ (b.step op).1.names.strings = b.names.strings.push name) := by
  rcases b.step_cases op with ⟨kind, span, -, hstep⟩ | ⟨w, hw, ⟨child, -, -, hstep⟩ | ⟨-, ⟨-, hstep⟩ | ⟨-, hstep⟩⟩⟩
  · rw [hstep] at h; cases h
  · rw [hstep]
    exact ⟨rfl, .inl rfl⟩
  · rw [hstep]
    refine ⟨rfl, ?_⟩
    rcases b.names.intern_cases w.name with ⟨hsame, -⟩ | ⟨-, hnew⟩
    · exact .inl hsame
    · exact .inr ⟨w.name, by rw [Op.entryName?_eq, hw]; rfl, by rw [hnew]⟩
  · rw [hstep] at h; cases h

end Builder

/-! ## Reading a finished tree -/

/-- every question about the node has an answer, and the children in its slots are nodes of the arena -/
structure Tree.Answers (t : Tree) (id : NodeId) : Prop where
  kind : ∃ kind, t.kind id = .ok kind
  span : ∃ span, t.span id = .ok span
  slot : ∀ field, ∃ slot, t.slot id field = .ok slot ∧ ∀ s ∈ slot, ∀ child ∈ s.children, t.has child.2 = true
  slots : ∃ slots, t.slots id = .ok slots ∧ ∀ entry ∈ slots, ∀ child ∈ entry.2.children, t.has child.2 = true
  attr : ∀ name, ∃ value, t.attr id name = .ok value
  attrs : ∃ attrs, t.attrs id = .ok attrs

/-- entries whose symbols were issued can be listed with their names, and the values stay -/
theorem Tree.exists_named {ν : Type} (t : Tree) (entries : Keyed Symbol ν) (h : ∀ k ∈ entries.keys, k < t.names.size) :
    ∃ listed, t.named entries = .ok listed ∧ listed.map Prod.snd = entries.map Prod.snd := by
  induction entries with
  | nil => exact ⟨[], rfl, rfl⟩
  | cons p rest ih =>
    obtain ⟨name, hname⟩ := Names.exists_resolve (h p.1 (by simp [Keyed.keys]))
    obtain ⟨listed, hlisted, hvalues⟩ := ih fun k hk => h k (List.mem_cons_of_mem _ hk)
    refine ⟨(name, p.2) :: listed, ?_, by simp [hvalues]⟩
    simp [Tree.named, hname, hlisted, bind, Except.bind, pure, Except.pure]

/-- **In a well-formed tree every question about a node has an answer.** -/
theorem WellFormed.answers {t : Tree} (h : WellFormed t.names t.nodes) {id : NodeId} (hid : id < t.size) :
    t.Answers id := by
  have hnode : t.node id = .ok t.nodes[id] := by
    rw [Tree.node, Array.getElem?_eq_getElem hid]
  have hn := h.nodes t.nodes[id] (Array.getElem_mem hid)
  have hheld : ∀ entry ∈ t.nodes[id].slots, ∀ child ∈ entry.2.children, t.has child.2 = true := by
    intro entry he child hc
    exact decide_eq_true (hn.held entry he child.2 (List.mem_map.2 ⟨child, hc, rfl⟩))
  obtain ⟨kind, hkind⟩ := Names.exists_resolve hn.kind
  obtain ⟨slots, hslots, hvalues⟩ := t.exists_named _ hn.slotNames
  obtain ⟨attrs, hattrs, -⟩ := t.exists_named _ hn.attrNames
  refine ⟨⟨kind, ?_⟩, ⟨t.nodes[id].span, ?_⟩, fun field => ⟨t.slotOf? t.nodes[id] field, ?_, ?_⟩, ⟨slots, ?_, ?_⟩,
    fun name => ⟨t.attrOf? t.nodes[id] name, ?_⟩, ⟨attrs, ?_⟩⟩
  · simp [Tree.kind, hnode, hkind, bind, Except.bind]
  · simp [Tree.span, hnode, bind, Except.bind, pure, Except.pure]
  · simp [Tree.slot, hnode, bind, Except.bind, pure, Except.pure]
  · intro s hs
    obtain ⟨symbol, -, hget⟩ := Option.bind_eq_some_iff.1 (Option.mem_def.1 hs)
    exact hheld _ (Keyed.mem_of_get? hget)
  · simp [Tree.slots, hnode, hslots, bind, Except.bind]
  · intro entry he
    have hvalue : entry.2 ∈ t.nodes[id].slots.map Prod.snd := hvalues ▸ List.mem_map.2 ⟨entry, he, rfl⟩
    obtain ⟨stored, hstored, heq⟩ := List.mem_map.1 hvalue
    rw [← heq]
    exact hheld stored hstored
  · simp [Tree.attr, hnode, bind, Except.bind, pure, Except.pure]
  · simp [Tree.attrs, hnode, hattrs, bind, Except.bind]

/-! ## Main result -/

namespace Builder

/-- the tree is what finishing the builder gives, with some root or without one -/
def Finishes (b : Builder) (t : Tree) : Prop := t = b.finishEmpty ∨ ∃ root, b.finish root = .ok t

theorem Finishes.same_arena {b : Builder} {t : Tree} (h : b.Finishes t) : t.names = b.names ∧ t.nodes = b.nodes := by
  rcases h with rfl | ⟨root, h⟩
  · exact ⟨rfl, rfl⟩
  · unfold finish at h
    split_ifs at h
    cases h
    exact ⟨rfl, rfl⟩

/-- **The arena is well-formed after every run.** After any list of operations, with any ids, where an operation that ends
in a fault leaves what it had reached:
- everything stored was issued, names are distinct, and no slot or attribute name stands twice in a node;
- an operation that ends in a fault leaves every node as it was, and appends at most the field or attribute name it is
  about to the names;
- in the finished tree every question about a node of the arena has an answer, and slots hold ids of the arena only. -/
theorem representation_invariant (ops : List Op) :
    let b := empty.run ops
    WellFormed b.names b.nodes ∧
    (∀ op fault, (b.step op).2 = .error fault →
      (b.step op).1.nodes = b.nodes ∧
        ((b.step op).1.names = b.names ∨
          ∃ name, op.entryName? = some name ∧ (b.step op).1.names.strings = b.names.strings.push name)) ∧
    ∀ t, b.Finishes t → t.size = b.size ∧ ∀ id, id < t.size → t.Answers id := by
  intro b
  have hwell : WellFormed b.names b.nodes := run_wellFormed empty ops WellFormed.empty
  refine ⟨hwell, fun op fault h => step_fault h, fun t ht => ?_⟩
  obtain ⟨hnames, hnodes⟩ := ht.same_arena
  have hsize : t.size = b.size := congrArg Array.size hnodes
  have htree : WellFormed t.names t.nodes := by rw [hnames, hnodes]; exact hwell
  exact ⟨hsize, fun id hid => htree.answers hid⟩

/-- a list and a name; on the way, a child and a node are named that are not allocated -/
def mixedOps : List Op :=
  [.node "List" ⟨0, 9⟩, .setChild 0 "tail" 7, .setAttr 5 "flag" (.bool true), .node "Name" ⟨1, 2⟩,
    .pushChild 0 "items" none, .pushChild 0 "items" (some 1), .setOptional 0 "head" (some 1), .setAttr 0 "flag" .null]

/-- The fault at the child left no name, the fault at the node left one, which was found later. One more fault appends its
field and leaves both nodes as they were. -/
theorem representation_invariant_mixed :
    let b := empty.run mixedOps
    b = ⟨⟨#["List", "flag", "Name", "items", "head"]⟩,
      #[⟨0, ⟨0, 9⟩, [(3, .sequence [none, some 1]), (4, .optional (some 1))], [(1, .null)]⟩, ⟨2, ⟨1, 2⟩, [], []⟩]⟩ ∧
    WellFormed b.names b.nodes ∧
    (b.step (.setChild 9 "tail" 1)).2 = .error (.unallocatedNode 9 2) ∧
    (b.step (.setChild 9 "tail" 1)).1.nodes = b.nodes ∧
    (b.step (.setChild 9 "tail" 1)).1.names = ⟨b.names.strings.push "tail"⟩ ∧
    b.Finishes ⟨b.names, b.nodes, some 0⟩ ∧ Tree.Answers ⟨b.names, b.nodes, some 0⟩ 1 := by
  intro b
  obtain ⟨hwell, hfault, hread⟩ := representation_invariant mixedOps
  have hstep : (b.step (.setChild 9 "tail" 1)).2 = .error (.unallocatedNode 9 2) := by decide +kernel
  have hfinish : b.Finishes ⟨b.names, b.nodes, some 0⟩ := .inr ⟨0, by decide +kernel⟩
  refine ⟨by decide +kernel, hwell, hstep, (hfault _ _ hstep).1, by decide +kernel, hfinish, ?_⟩
  exact (hread _ hfinish).2 1 (by decide +kernel)

end Builder

end Arbor
