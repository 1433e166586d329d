/-
Trees without an arena. A `Shape` is a node with everything below it written out: its kind, its range, its slots in order
and its attributes in order, and in each slot the shapes of the children instead of their ids.

A shape can be had in two ways that know nothing of each other. `Shape.ofValue?` reads it off a JSON value, by recursion
on the value and with no ids at all. `Tree.shape?` reads it off an arena, by following ids from a node; it goes down a given
number of levels, and as many levels as the arena has nodes are enough for a loaded tree.

Numbers are attributes in binary64. What a number of this kind is worth is said as a rational, and so it can be said which
integers keep their value.

- `Binary64.value_ofInt`: an integer up to 2^53 in size does.
- `ofValue_faithful`: if a value loads, both ways give the same shape. The value has to list the members of its objects in
  ascending order, each key once; every value that is read from a text does so.
-/
import Mathlib.Algebra.Field.Rat
import Mathlib.Algebra.Order.Ring.Int
import Mathlib.Tactic.Ring
import Arbor.Document
import Arbor.Proofs.Layout
import Arbor.Proofs.Sorted

namespace Arbor

open Json (Value member?)

/-! ## Whole numbers -/

theorem roundHalfEven_one (n : Nat) : roundHalfEven n 1 = n := by
  simp [roundHalfEven, Nat.mod_one]

theorem shiftRatio_two (n places : Nat) : shiftRatio 2 n 1 (-(places : Int)) = (n * 2 ^ places, 1) := by
  unfold shiftRatio
  split_ifs with h
  · obtain rfl : places = 0 := by omega
    simp
  · simp

namespace Binary64

/-- the number as a rational -/
def value (x : Binary64) : ℚ := (if x.negative then -1 else 1) * x.mantissa * 2 ^ x.exponent

/-- below 2^53 the first binary digit moves to the top of the mantissa, and no digit is lost below -/
theorem ofRatio_whole {n : Nat} (hpos : n ≠ 0) (hlt : n < 2 ^ 53) (negative : Bool) :
    ofRatio negative n 1 = some ⟨negative, n * 2 ^ (52 - n.log2), -((52 - n.log2 : Nat) : Int)⟩ := by
  have hlog : n.log2 ≤ 52 := Nat.le_of_lt_succ ((Nat.log2_lt hpos).2 hlt)
  have hone : Nat.log2 1 = 0 := by decide
  have hguess : max ((n.log2 : Int) - Nat.log2 1 - 53) (-1074) = -((53 - n.log2 : Nat) : Int) := by omega
  have hnext : -((53 - n.log2 : Nat) : Int) + 1 = -((52 - n.log2 : Nat) : Int) := by omega
  have hwide : ¬ n * 2 ^ (53 - n.log2) < mantissaLimit := by
    have hlimit : mantissaLimit = 2 ^ n.log2 * 2 ^ (53 - n.log2) := by
      rw [← Nat.pow_add, Nat.add_sub_cancel' (by omega)]
      rfl
    rw [hlimit, Nat.not_lt]
    exact Nat.mul_le_mul_right _ (Nat.log2_self_le hpos)
  have hfits : n * 2 ^ (52 - n.log2) < mantissaLimit := by
    have hlimit : mantissaLimit = 2 ^ (n.log2 + 1) * 2 ^ (52 - n.log2) := by
      rw [← Nat.pow_add, show n.log2 + 1 + (52 - n.log2) = 53 by omega]
      rfl
    rw [hlimit]
    exact Nat.mul_lt_mul_of_pos_right Nat.lt_log2_self (Nat.two_pow_pos _)
  have hexponent : ¬ (971 : Int) < -((52 - n.log2 : Nat) : Int) := by omega
  simp only [ofRatio, if_neg hpos, hguess, shiftRatio_two, Nat.div_one, if_neg hwide, hnext, roundHalfEven_one,
    if_neg hfits.ne, if_neg hexponent]

/-- the power itself has one binary digit more, a zero -/
theorem ofRatio_limit (negative : Bool) : ofRatio negative (2 ^ 53) 1 = some ⟨negative, 2 ^ 52, 1⟩ := by
  cases negative <;> decide +kernel

/-- a sign and a size make the integer again -/
theorem sign_mul_natAbs (n : Int) : (if decide (n < 0) then -1 else 1) * (n.natAbs : ℚ) = n := by
  rw [Nat.cast_natAbs]
  rcases lt_or_ge n 0 with hneg | hneg
  · simp [hneg, abs_of_neg]
  · simp [hneg.not_gt, abs_of_nonneg hneg]

/-- **Whole numbers up to 2^53 in size are exact.** -/
theorem value_ofInt {n : Int} (h : n.natAbs ≤ 2 ^ 53) : (ofInt n).value = n := by
  rcases Nat.eq_zero_or_pos n.natAbs with hzero | hpos
  · rw [Int.natAbs_eq_zero] at hzero
    subst hzero
    decide +kernel
  rw [← sign_mul_natAbs n]
  rcases Nat.lt_or_eq_of_le h with hlt | htop
  · rw [ofInt, ofRatio_whole hpos.ne' hlt, Option.getD_some]
    generalize 52 - n.natAbs.log2 = k
    generalize decide (n < 0) = negative
    -- the shift up in the mantissa and the shift down in the exponent cancel
    have hshifts : (2 : ℚ) ^ k * 2 ^ (-(k : Int)) = 1 := by
      rw [← zpow_natCast, ← zpow_add₀ two_ne_zero, add_neg_cancel, zpow_zero]
    calc
      (if negative then -1 else 1) * ((n.natAbs * 2 ^ k : Nat) : ℚ) * 2 ^ (-(k : Int))
        = (if negative then -1 else 1) * (n.natAbs : ℚ) * (2 ^ k * 2 ^ (-(k : Int))) := by
          rw [Nat.cast_mul, Nat.cast_pow, Nat.cast_ofNat, mul_assoc, mul_assoc, mul_assoc]
      _ = (if negative then -1 else 1) * (n.natAbs : ℚ) := by rw [hshifts, mul_one]
  · rw [ofInt, htop, ofRatio_limit, Option.getD_some, value]
    push_cast
    ring

end Binary64

/-! ## Shapes -/

/-- what stands in a slot -/
inductive Held (α : Type) where
  | node (child : α)
  | optional (child : Option α)
  | sequence (items : List (Option α))
  deriving DecidableEq, Repr

/-- a node with everything below it -/
inductive Shape where
  | node (kind : String) (span : Span) (slots : List (String × Held Shape)) (attrs : List (String × Scalar))
  deriving Repr

/-! ## The shape of a value -/

namespace Shape

/-- the position that a value gives, a whole number below 2^32 -/
def position? : Value → Option Nat
  | .number (.integer n) => if 0 ≤ n ∧ n < 0x100000000 then some n.toNat else none
  | _ => none

/-- the range between two positions -/
def between? (v w : Value) : Option Span :=
  match position? v, position? w with
  | some start, some stop => some (Span.of start stop)
  | _, _ => none

/-- the range of an object: from `start` and `end` when both keys are present, else from the pair under `range` -/
def span? (members : List (String × Value)) : Option Span :=
  match member? members "start", member? members "end", member? members "range" with
  | some s, some e, _ => between? s e
  | _, _, some (.array [s, e]) => between? s e
  | _, _, _ => none

/-- the attributes of an object: its undivided properties whose key is neither reserved nor a field, in their order -/
def attrs (fields : List Field) (members : List (String × Value)) : List (String × Scalar) :=
  members.filterMap fun (key, w) =>
    if key ∈ ["type", "start", "end", "range", "loc", "comments", "tokens"] ∨ ∃ f ∈ fields, f.name = key then none
    else match w with
      | .null => some (key, .null)
      | .bool b => some (key, .bool b)
      | .number n => some (key, .number n.toBinary64)
      | .string s => some (key, .string s)
      | .array _ => none
      | .object _ => none

theorem sizeOf_member?_le (members : List (String × Value)) (key : String) :
    sizeOf (member? members key) ≤ sizeOf members := by
  cases h : member? members key with
  | none =>
    rw [Option.none.sizeOf_spec]
    cases members <;> simp +arith
  | some v =>
    have := Load.sizeOf_member?_lt h
    rw [Option.some.sizeOf_spec]
    omega

mutual

/-- the shape of a node value; there is none for a value that is no node, or holds something that is none -/
def ofValue? (schema : Schema) (v : Value) : Option Shape :=
  match v with
  | .object members =>
    match member? members "type", span? members with
    | some (.string kind), some span =>
      (slots? schema members (schema.fieldsOf kind)).map fun slots =>
        .node kind span slots (attrs (schema.fieldsOf kind) members)
    | _, _ => none
  | _ => none
termination_by (sizeOf v, 0)

/-- one slot for each of the fields, in order -/
def slots? (schema : Schema) (members : List (String × Value)) (fields : List Field) :
    Option (List (String × Held Shape)) :=
  match fields with
  | [] => some []
  | f :: rest =>
    match held? schema f (member? members f.name), slots? schema members rest with
    | some held, some slots => some ((f.name, held) :: slots)
    | _, _ => none
termination_by (sizeOf members, fields.length)
decreasing_by
  · have := sizeOf_member?_le members f.name
    simp only [Prod.lex_def, List.length_cons]
    omega
  · simp [Prod.lex_def]

/-- what a field holds whose value is the given one -/
def held? (schema : Schema) (f : Field) (v : Option Value) : Option (Held Shape) :=
  match v with
  | none | some .null => some (if f.cardinality.multiple then .sequence [] else .optional none)
  | some (.object members) =>
    (ofValue? schema (.object members)).map fun child =>
      if f.cardinality.required ∧ ¬ f.cardinality.multiple then .node child else .optional (some child)
  | some (.array values) => (items? schema values).map .sequence
  | some _ => none
termination_by (sizeOf v, 0)

/-- the items of a sequence; `null` is a hole at its place -/
def items? (schema : Schema) (values : List Value) : Option (List (Option Shape)) :=
  match values with
  | [] => some []
  | .null :: rest => (items? schema rest).map fun items => none :: items
  | v :: rest =>
    match ofValue? schema v, items? schema rest with
    | some child, some items => some (some child :: items)
    | _, _ => none
termination_by (sizeOf values, 0)

end

end Shape

/-! ## The shape of a node in an arena -/

/-- the items of a sequence with what is below each child; holes stay -/
def heldItems? {α : Type} (below? : NodeId → Option α) (items : List (Option NodeId)) : Option (List (Option α)) :=
  items.mapM fun
    | none => some none
    | some id => (below? id).map some

/-- the slot with what is below each of its children -/
def Slot.held? {α : Type} (below? : NodeId → Option α) : Slot → Option (Held α)
  | .node id => (below? id).map .node
  | .optional none => some (.optional none)
  | .optional (some id) => (below? id).map fun child => .optional (some child)
  | .sequence items => (heldItems? below? items).map .sequence

/-- all slots with what is below them -/
def heldSlots? {α : Type} (below? : NodeId → Option α) (slots : List (String × Slot)) : Option (List (String × Held α)) :=
  slots.mapM fun (name, slot) => (slot.held? below?).map fun held => (name, held)

/-- the node with everything below it, down to the given number of levels -/
def Tree.shape? (t : Tree) : Nat → NodeId → Option Shape
  | 0, _ => none
  | room + 1, id =>
    match t.kind id, t.span id, t.slots id, t.attrs id with
    | .ok kind, .ok span, .ok slots, .ok attrs =>
      (heldSlots? (t.shape? room) slots).map fun slots => .node kind span slots attrs
    | _, _, _, _ => none

/-! ## Both shapes agree -/

/-! ### Parts of a node -/

theorem position?_eq (v : Value) : Load.offset? v = Shape.position? v := by
  cases v with
  | number n =>
    cases n with
    | integer n =>
      cases n with
      | ofNat n =>
        simp only [Load.offset?, Value.asNat?, Option.bind_some, Shape.position?]
        refine if_congr ?_ rfl rfl
        rw [Int.ofNat_eq_natCast]
        omega
      | negSucc n => rfl
    | double x => rfl
  | _ => rfl

theorem between?_eq (v w : Value) : Load.spanBetween? v w = Shape.between? v w := by
  unfold Load.spanBetween? Shape.between?
  rw [position?_eq, position?_eq]
  cases Shape.position? v <;> cases Shape.position? w <;> rfl

theorem span?_eq (members : List (String × Value)) : Load.spanOf? members = Shape.span? members := by
  unfold Load.spanOf? Shape.span?
  cases member? members "start" <;> cases member? members "end" <;> simp only [between?_eq] <;> split <;> simp_all

theorem attrs_eq (fields : List Field) (members : List (String × Value)) :
    Load.attributes fields members = Shape.attrs fields members := by
  unfold Load.attributes Shape.attrs
  apply List.filterMap_congr
  rintro ⟨key, w⟩ -
  apply if_congr
  · simp [Load.reserved]
  · rfl
  · cases w <;> rfl

theorem kindOf?_eq_some_iff {members : List (String × Value)} {kind : String} :
    Load.kindOf? members = some kind ↔ member? members "type" = some (.string kind) := by
  unfold Load.kindOf?
  cases member? members "type" with
  | none => simp
  | some v => cases v <;> simp [Value.asString?]

theorem keys_attributes (fields : List Field) (members : List (String × Value)) :
    ((Load.attributes fields members).map Prod.fst).Sublist (members.map Prod.fst) := by
  unfold Load.attributes
  induction members with
  | nil => exact .slnil
  | cons m rest ih =>
    rw [List.filterMap_cons]
    split
    · exact ih.cons _
    · rename_i p hp
      simp only at hp
      split_ifs at hp
      obtain ⟨scalar, -, rfl⟩ := Option.map_eq_some_iff.1 hp
      exact ih.cons_cons _

theorem mem_of_member? {members : List (String × Value)} {key : String} {v : Value} (h : member? members key = some v) :
    (key, v) ∈ members := by
  induction members with
  | nil => cases h
  | cons m rest ih =>
    rw [member?] at h
    split_ifs at h with hk
    · cases h
      simp [← hk]
    · exact List.mem_cons_of_mem _ (ih h)

theorem heldSlots?_cons {α : Type} {below? : NodeId → Option α} {name : String} {slot : Slot} {rest : List (String × Slot)}
    {held : Held α} {slots : List (String × Held α)} (hslot : slot.held? below? = some held)
    (hrest : heldSlots? below? rest = some slots) :
    heldSlots? below? ((name, slot) :: rest) = some ((name, held) :: slots) := by
  unfold heldSlots? at hrest ⊢
  simp [List.mapM_cons, hslot, hrest]

/-! ### Blocks -/

mutual

theorem NodeAt.shape {schema : Schema} (hs : schema.Distinct) {base : Nat} {v : Value} {fresh : List Record}
    (h : NodeAt schema base v fresh) (hv : v.Sorted) :
    ∃ shape, Shape.ofValue? schema v = some shape ∧
      ∀ (t : Tree) (room : Nat), t.Holds base fresh → fresh.length ≤ room → t.shape? room base = some shape := by
  match h with
  | @NodeAt.node _ _ members kind span placed below hkind hspan hslots =>
    cases hv with
    | object hkeys hmembers =>
      obtain ⟨slots, hof, hread⟩ := SlotsAt.shape hs hslots hmembers
      refine ⟨.node kind span slots (Shape.attrs (schema.fieldsOf kind) members), ?_, fun t room ht hroom => ?_⟩
      · rw [Shape.ofValue?, kindOf?_eq_some_iff.1 hkind, ← span?_eq, hspan]
        simp [hof]
      · obtain ⟨room, rfl⟩ : ∃ less, room = less + 1 := Nat.exists_eq_succ_of_ne_zero (by simp at hroom; omega)
        obtain ⟨records, hreads, hr⟩ := ht.first
        have hslots' := hread t room ht.rest (by simpa using hroom)
        have hdistinct : (Keyed.keys placed).Nodup := hslots.keys ▸ hs kind
        have hattrs : (Keyed.keys (Load.attributes (schema.fieldsOf kind) members)).Nodup :=
          (hkeys.imp fun h => Std.ne_of_lt h).sublist (keys_attributes _ _)
        rw [Tree.shape?, hreads.kind hr, hreads.span hr, hreads.slots hr, hreads.attrs hr]
        simp only [Keyed.putAll_nil_of_nodup hdistinct, hslots', Option.map_some]
        rw [Keyed.putAll_nil_of_nodup hattrs, attrs_eq]

theorem SlotsAt.shape {schema : Schema} (hs : schema.Distinct) {members : List (String × Value)} {base : Nat}
    {fields : List Field} {placed : List (String × Slot)} {fresh : List Record}
    (h : SlotsAt schema members base fields placed fresh) (hm : ∀ m ∈ members, m.2.Sorted) :
    ∃ slots, Shape.slots? schema members fields = some slots ∧
      ∀ (t : Tree) (room : Nat), t.Holds base fresh → fresh.length ≤ room →
        heldSlots? (t.shape? room) placed = some slots := by
  match h with
  | .done => exact ⟨[], by rw [Shape.slots?], fun t room _ _ => rfl⟩
  | .absent (f := f) hmem hrest =>
    obtain ⟨slots, hof, hread⟩ := SlotsAt.shape hs hrest hm
    refine ⟨(f.name, if f.cardinality.multiple then .sequence [] else .optional none) :: slots, ?_, ?_⟩
    · rw [Shape.slots?, hof]
      rcases hmem with hmem | hmem <;> rw [hmem, Shape.held?]
    · intro t room ht hroom
      refine heldSlots?_cons ?_ (hread t room ht hroom)
      unfold Load.absentSlot Field.isSequence
      split_ifs <;> rfl
  | .child (f := f) hmem hsub hrest =>
    obtain ⟨child, hchild, hbelow⟩ := NodeAt.shape hs hsub (hm _ (mem_of_member? hmem))
    obtain ⟨slots, hof, hread⟩ := SlotsAt.shape hs hrest hm
    refine ⟨(f.name, if f.cardinality.required ∧ ¬ f.cardinality.multiple then .node child
      else .optional (some child)) :: slots, ?_, ?_⟩
    · rw [Shape.slots?, hof, hmem, Shape.held?, hchild]
      rfl
    · intro t room ht hroom
      rw [List.length_append] at hroom
      refine heldSlots?_cons ?_ (hread t room ht.right (by omega))
      have hhere := hbelow t room ht.left (by omega)
      unfold Load.presentSlot Field.isSequence
      split_ifs <;> simp_all [Slot.held?]
  | .array (f := f) hmem hsub hrest =>
    have hvalues : (Value.array _).Sorted := hm _ (mem_of_member? hmem)
    obtain ⟨items, hitems, hbelow⟩ := ItemsAt.shape hs hsub (by cases hvalues; assumption)
    obtain ⟨slots, hof, hread⟩ := SlotsAt.shape hs hrest hm
    refine ⟨(f.name, .sequence items) :: slots, ?_, ?_⟩
    · rw [Shape.slots?, hof, hmem, Shape.held?, hitems]
      rfl
    · intro t room ht hroom
      rw [List.length_append] at hroom
      refine heldSlots?_cons ?_ (hread t room ht.right (by omega))
      rw [Slot.held?, hbelow t room ht.left (by omega)]
      rfl

theorem ItemsAt.shape {schema : Schema} (hs : schema.Distinct) {base : Nat} {values : List Value}
    {ids : List (Option NodeId)} {fresh : List Record} (h : ItemsAt schema base values ids fresh)
    (hv : ∀ v ∈ values, v.Sorted) :
    ∃ items, Shape.items? schema values = some items ∧
      ∀ (t : Tree) (room : Nat), t.Holds base fresh → fresh.length ≤ room →
        heldItems? (t.shape? room) ids = some items := by
  match h with
  | .done => exact ⟨[], by rw [Shape.items?], fun t room _ _ => rfl⟩
  | .hole hrest =>
    obtain ⟨items, hof, hread⟩ := ItemsAt.shape hs hrest fun w hw => hv w (List.mem_cons_of_mem _ hw)
    refine ⟨none :: items, by rw [Shape.items?, hof]; rfl, fun t room ht hroom => ?_⟩
    have hrest' := hread t room ht hroom
    unfold heldItems? at hrest' ⊢
    simp [List.mapM_cons, hrest']
  | .item hsub hrest =>
    obtain ⟨child, hchild, hbelow⟩ := NodeAt.shape hs hsub (hv _ List.mem_cons_self)
    obtain ⟨items, hof, hread⟩ := ItemsAt.shape hs hrest fun w hw => hv w (List.mem_cons_of_mem _ hw)
    refine ⟨some child :: items, ?_, fun t room ht hroom => ?_⟩
    · rw [Shape.items?, hchild, hof]
      rintro rfl
      cases hsub
    · rw [List.length_append] at hroom
      have hhere := hbelow t room ht.left (by omega)
      have hrest' := hread t room ht.right (by omega)
      unfold heldItems? at hrest' ⊢
      simp [List.mapM_cons, hhere, hrest']

end

theorem attrs_ascend (fields : List Field) {members : List (String × Value)} (h : (Value.object members).Sorted) :
    ((Shape.attrs fields members).map Prod.fst).Pairwise (· < ·) := by
  cases h with
  | object hkeys _ =>
    rw [← attrs_eq]
    exact hkeys.sublist (keys_attributes fields members)

/-! ## Main result -/

/-- **Loading is faithful.** Under a schema that lists no field twice:
- if a value with sorted objects loads, the arena unfolded from its root is the shape of the value;
- the attributes of a shape are in ascending order of their keys;
- an integer up to 2^53 in size is an attribute of the same value;
- a text loads through its value, which has sorted objects. -/
theorem ofValue_faithful (schema : Schema) (hs : schema.Distinct) :
    (∀ (v : Value) (t : Tree), v.Sorted → Tree.ofValue schema v = .ok t →
      ∃ root shape, t.root = some root ∧ Shape.ofValue? schema v = some shape ∧
        ∀ room, t.size ≤ room → t.shape? room root = some shape) ∧
    (∀ (fields : List Field) (members : List (String × Value)), (Value.object members).Sorted →
      ((Shape.attrs fields members).map Prod.fst).Pairwise (· < ·)) ∧
    (∀ n : Int, n.natAbs ≤ 2 ^ 53 → (Json.Number.integer n).toBinary64.value = n) ∧
    ∀ (text : String) (t : Tree), Tree.parse schema text = .ok t →
      ∃ v, Json.parse text = .ok v ∧ v.Sorted ∧ Tree.ofValue schema v = .ok t := by
  refine ⟨fun v t hv h => ?_, fun fields members h => attrs_ascend fields h,
    fun n hn => Binary64.value_ofInt hn, fun text t h => ?_⟩
  · obtain ⟨hroot, records, hlaid, hreads⟩ := ofValue_lays h
    obtain ⟨shape, hshape, hunfold⟩ := hlaid.shape hs hv
    refine ⟨0, shape, hroot, hshape, fun room hroom => ?_⟩
    have hsize : t.size = records.length := hreads.size_eq
    exact hunfold t room ⟨[], [], rfl, by simpa using hreads⟩ (by omega)
  · unfold Tree.parse at h
    split at h
    · cases h
    · rename_i v hv
      split at h
      · cases h
      · rename_i t' ht
        cases h
        exact ⟨v, hv, Json.parse_sorted hv, ht⟩

theorem nameValue_sorted (name : String) (start stop : Nat) : (nameValue name start stop).Sorted := by
  have hkeys : ["name", "range", "type"].Pairwise (· < ·) := by decide +kernel
  refine .object hkeys ?_
  simp only [List.forall_mem_cons, List.not_mem_nil, false_imp_iff, implies_true, and_true]
  refine ⟨.string name, .array ?_, .string "Name"⟩
  simp only [List.forall_mem_cons, List.not_mem_nil, false_imp_iff, implies_true, and_true]
  exact ⟨.number _, .number _⟩

theorem listValue_sorted : listValue.Sorted := by
  refine .object (by decide +kernel) ?_
  simp only [List.forall_mem_cons, List.not_mem_nil, false_imp_iff, implies_true, and_true]
  refine ⟨.number _, .bool true, nameValue_sorted .., .array ?_, .number _, .object .nil (by simp), .number _, .string _,
    .number _⟩
  simp only [List.forall_mem_cons, List.not_mem_nil, false_imp_iff, implies_true, and_true]
  exact ⟨.null, nameValue_sorted .., .null⟩

/-- The holes keep their places, the head stands alone, and `loc` is no attribute. The level is 3 and the weight -1.5. -/
theorem ofValue_faithful_list :
    listSchema.Distinct ∧ listValue.Sorted ∧ Tree.ofValue listSchema listValue = .ok listTree ∧
    Shape.ofValue? listSchema listValue = some (.node "List" ⟨0, 9⟩
      [("items", .sequence [none, some (.node "Name" ⟨4, 5⟩ [] [("name", .string "y")]), none]),
        ("head", .node (.node "Name" ⟨1, 2⟩ [] [("name", .string "x")])), ("tail", .optional none)]
      [("flag", .bool true), ("level", .number ⟨false, 0x18000000000000, -51⟩),
        ("weight", .number ⟨true, 0x18000000000000, -52⟩)]) ∧
    Binary64.value ⟨false, 0x18000000000000, -51⟩ = 3 := by
  obtain ⟨hfaithful, -, hwhole, -⟩ := ofValue_faithful listSchema listSchema_distinct
  obtain ⟨root, shape, hroot, hshape, hunfold⟩ := hfaithful listValue listTree listValue_sorted ofValue_listValue
  have hroot' : root = 0 := by cases hroot; rfl
  subst hroot'
  refine ⟨listSchema_distinct, listValue_sorted, ofValue_listValue, ?_, hwhole 3 (by decide)⟩
  rw [hshape, ← hunfold 3 (by decide)]
  rfl

end Arbor
