/-
What can be wrong with a document. `Document.problems` goes through a value once and lists every check that fails, in the
order of the document: the tree depth first and field after field, then the comments, then the tokens. It does not stop at
the first failure, knows no arena and has no errors to pass on; a loader does all three.

- `Load.node_first`: loading a node, at whatever path and into whatever arena, fails with the first of its problems.
- `Problems.ofNode_locates`: every problem of a tree, not only the first, says which part of the value it is about.
- `ofValue_first_problem`: loading a document fails exactly if there is a problem, with the first one, whose path leads from
  the root of the value to the part that fails the check.
-/
import Arbor.Proofs.Shape

namespace Arbor

open Json (Value member?)

/-! ## Paths into a value -/

namespace Json.Value

/-- the part of a value that one step leads to -/
def step? (v : Value) : PathStep → Option Value
  | .field name => v.asObject?.bind fun members => member? members name
  | .index i => v.asArray?.bind fun values => values[i]?

/-- the part of a value that a path leads to -/
def follow? (v : Value) (path : List PathStep) : Option Value := path.foldlM step? v

theorem follow?_cons {v w : Value} {s : PathStep} (h : v.step? s = some w) (path : List PathStep) :
    v.follow? (s :: path) = w.follow? path := by
  simp [follow?, h]

end Json.Value

/-! ## The problems of a value -/

/-- the key of a list on the top-level object -/
def ListName.key : ListName → String
  | .comments => "comments"
  | .tokens => "tokens"

/-- the list has items of this type -/
def ListName.knows : ListName → String → Bool
  | .comments, tag => (CommentKind.ofTag? tag).isSome
  | .tokens, tag => (TokenKind.ofTag? tag).isSome

namespace Problems

mutual

/-- the failed checks of a value that should be a node; without a kind there are no fields to check -/
def ofNode (schema : Schema) (path : List PathStep) (v : Value) : List TreeError :=
  match v with
  | .object members =>
    match member? members "type" with
    | some (.string kind) =>
      (if Shape.span? members = none then [.invalidSpan kind path] else []) ++
        ofFields schema path kind members (schema.fieldsOf kind)
    | _ => [.missingType path]
  | _ => [.missingType path]
termination_by (sizeOf v, 0)

/-- the failed checks of the given fields of an object, one field after the other -/
def ofFields (schema : Schema) (path : List PathStep) (kind : String) (members : List (String × Value))
    (fields : List Field) : List TreeError :=
  match fields with
  | [] => []
  | f :: rest =>
    ofField schema path kind f.name (member? members f.name) ++ ofFields schema path kind members rest
termination_by (sizeOf members, fields.length)
decreasing_by
  · have := Shape.sizeOf_member?_le members f.name
    simp only [Prod.lex_def, List.length_cons]
    omega
  · simp [Prod.lex_def]

/-- the failed checks of a field whose value is the given one -/
def ofField (schema : Schema) (path : List PathStep) (kind name : String) (v : Option Value) : List TreeError :=
  match v with
  | none | some .null => []
  | some (.object members) => ofNode schema (path ++ [.field name]) (.object members)
  | some (.array values) => ofItems schema (path ++ [.field name]) 0 values
  | some _ => [.notANode kind name]
termination_by (sizeOf v, 0)

/-- the failed checks of the items of an array from place `i` on; `null` is not checked -/
def ofItems (schema : Schema) (path : List PathStep) (i : Nat) (values : List Value) : List TreeError :=
  match values with
  | [] => []
  | .null :: rest => ofItems schema path (i + 1) rest
  | v :: rest => ofNode schema (path ++ [.index i]) v ++ ofItems schema path (i + 1) rest
termination_by (sizeOf values, 0)

end

/-- the first check that fails for an item of a list -/
def ofListed? (list : ListName) : Value → Option ItemProblem
  | .object members =>
    match member? members "type" with
    | some (.string tag) =>
      if list.knows tag then if Shape.span? members = none then some .missingSpan else none else some .unknownType
    | _ => some .missingType
  | _ => some .notAnObject

/-- the problems of a list that may be missing: one for each item that cannot be used -/
def ofList (list : ListName) : Option Value → List LoadError
  | none => []
  | some (.array values) => values.zipIdx.filterMap fun (v, i) => (ofListed? list v).map (.item list i)
  | some _ => [.item list 0 .notAnArray]

end Problems

/-- **All problems of a document**, in its order. -/
def Document.problems (schema : Schema) (v : Value) : List LoadError :=
  (Problems.ofNode schema [] v).map .tree ++
    match v with
    | .object members =>
      Problems.ofList .comments (member? members "comments") ++ Problems.ofList .tokens (member? members "tokens")
    | _ => []

/-! ## The first problem -/

/-- the error of a result that is one -/
def failure? {ε α : Type} : Except ε α → Option ε
  | .error e => some e
  | .ok _ => none

@[simp] theorem failure?_error {ε α : Type} (e : ε) : failure? (.error e : Except ε α) = some e := rfl

@[simp] theorem failure?_ok {ε α : Type} (a : α) : failure? (.ok a : Except ε α) = none := rfl

theorem failure?_map {ε α β : Type} (f : α → β) (r : Except ε α) : failure? (r.map f) = failure? r := by
  cases r <;> rfl

theorem failure?_eq_some_iff {ε α : Type} {r : Except ε α} {e : ε} : failure? r = some e ↔ r = .error e := by
  cases r <;> simp

theorem failure?_eq_none_iff {ε α : Type} {r : Except ε α} : failure? r = none ↔ ∃ a, r = .ok a := by
  cases r <;> simp

namespace Load

/-- loading the value, wherever it stands and whatever was loaded before, fails with the first of its problems -/
def First (schema : Schema) (v : Value) : Prop :=
  ∀ (path : List PathStep) (b : Builder), failure? (node schema path v b) = (Problems.ofNode schema path v).head?

theorem items_first {schema : Schema} {path : List PathStep} (values : List Value)
    (hfirst : ∀ w ∈ values, First schema w) :
    ∀ (i : Nat) (b : Builder), failure? (items schema path i values b) = (Problems.ofItems schema path i values).head? := by
  induction values with
  | nil => intro i b; rw [items, Problems.ofItems]; rfl
  | cons v rest ih =>
    intro i b
    have hrest := ih fun w hw => hfirst w (List.mem_cons_of_mem v hw)
    rcases eq_or_ne v .null with rfl | hv
    · rw [items, Problems.ofItems, ← hrest (i + 1) b]
      cases items schema path (i + 1) rest b <;> rfl
    · have hitems : Problems.ofItems schema path i (v :: rest) =
          Problems.ofNode schema (path ++ [.index i]) v ++ Problems.ofItems schema path (i + 1) rest := by
        rw [Problems.ofItems]
        exact hv
      rw [hitems, List.head?_append, ← hfirst v List.mem_cons_self _ b, items]
      · cases node schema (path ++ [.index i]) v b with
        | error e => rfl
        | ok r =>
          -- which builder the first item left does not matter for the others
          rw [← hrest (i + 1) r.2]
          dsimp only
          cases items schema path (i + 1) rest r.2 <;> rfl
      · exact hv

theorem slots_first {schema : Schema} {path : List PathStep} {kind : String} {members : List (String × Value)}
    (hfirst : ∀ w, sizeOf w < sizeOf members → First schema w) {id : NodeId} (fields : List Field) :
    ∀ b : Builder, failure? (slots schema path kind members id fields b) =
      (Problems.ofFields schema path kind members fields).head? := by
  induction fields with
  | nil => intro b; rw [slots, Problems.ofFields]; rfl
  | cons f rest ih =>
    intro b
    rw [Problems.ofFields, List.head?_append, slots.eq_def]
    dsimp only
    -- the field is missing, `null`, an object, an array or something else
    split
    · rename_i hm
      rw [hm, Problems.ofField, ih]
      rfl
    · rename_i hm
      rw [hm, Problems.ofField, ih]
      rfl
    · rename_i w hm
      rw [hm, Problems.ofField, ← hfirst _ (sizeOf_member?_lt hm) _ b]
      cases node schema (path ++ [.field f.name]) (.object w) b with
      | error e => rfl
      | ok r => exact ih _
    · rename_i values hm
      have hvalues : ∀ w ∈ values, First schema w := fun w hw => hfirst w (sizeOf_item_lt hm hw)
      rw [hm, Problems.ofField, ← items_first values hvalues 0 b]
      cases items schema (path ++ [.field f.name]) 0 values b with
      | error e => rfl
      | ok r => exact ih _
    · rename_i w hnull hobject harray hm
      rw [hm, Problems.ofField]
      · rfl
      · exact hnull
      · exact hobject
      · exact harray

/-- **Loading a node fails with its first problem.** -/
theorem node_first (schema : Schema) (v : Value) : First schema v := by
  refine forall_of_members (fun v hfirst => ?_) v
  intro path b
  rw [node.eq_def]
  split
  · rename_i members
    split
    · rename_i hkind
      rw [Problems.ofNode]
      split
      · rename_i kind hm
        rw [kindOf?_eq_some_iff.2 hm] at hkind
        cases hkind
      · rfl
    · rename_i kind hkind
      rw [Problems.ofNode, kindOf?_eq_some_iff.1 hkind]
      dsimp only
      rw [← span?_eq]
      split
      · rename_i hspan
        rw [if_pos hspan]
        rfl
      · rename_i span hspan
        have hslots := @slots_first schema path kind members (hfirst members rfl) (b.node kind span).2 (schema.fieldsOf kind)
          (b.node kind span).1
        rw [if_neg (by rw [hspan]; simp), List.nil_append, ← hslots]
        split <;> rename_i heq <;> rw [heq] <;> rfl
  · rw [Problems.ofNode]
    · rfl
    · assumption

theorem item_first {κ : Type} {ofTag? : String → Option κ} {list : ListName}
    (hknows : ∀ tag, list.knows tag = (ofTag? tag).isSome) (v : Value) :
    failure? (item ofTag? v) = Problems.ofListed? list v := by
  unfold item Problems.ofListed?
  cases v with
  | object members =>
    dsimp only
    cases hkind : kindOf? members with
    | none =>
      dsimp only
      split
      · rename_i tag hm
        rw [kindOf?_eq_some_iff.2 hm] at hkind
        cases hkind
      · rfl
    | some tag =>
      rw [kindOf?_eq_some_iff.1 hkind]
      dsimp only
      rw [hknows, ← span?_eq]
      cases ofTag? tag with
      | none => rfl
      | some kind => cases spanOf? members <;> rfl
  | _ => rfl

section Lists

variable {α : Type} {list : ListName} {load : Value → Except ItemProblem α}

theorem each_first (hload : ∀ v, failure? (load v) = Problems.ofListed? list v) (values : List Value) :
    ∀ i, (failure? (each load i values)).map (fun e => LoadError.item list e.1 e.2) =
      ((values.zipIdx i).filterMap fun (v, j) => (Problems.ofListed? list v).map (.item list j)).head? := by
  induction values with
  | nil => intro i; rfl
  | cons v rest ih =>
    intro i
    have hv := hload v
    rw [each, List.zipIdx_cons, List.filterMap_cons]
    dsimp only
    rw [← hv]
    cases load v with
    | error p => rfl
    | ok a =>
      rw [failure?_ok, Option.map_none]
      dsimp only
      rw [← ih (i + 1)]
      cases each load (i + 1) rest <;> rfl

theorem listOf_first (hload : ∀ v, failure? (load v) = Problems.ofListed? list v) (found : Option Value) :
    failure? (listOf list load found) = (Problems.ofList list found).head? := by
  cases found with
  | none => rfl
  | some w =>
    cases w with
    | array values =>
      rw [listOf, Problems.ofList, ← each_first hload values 0]
      cases each load 0 values <;> rfl
    | _ => rfl

end Lists

theorem comment_first (v : Value) : failure? (comment v) = Problems.ofListed? .comments v := by
  rw [comment, failure?_map]
  exact item_first (fun _ => rfl) v

theorem token_first (v : Value) : failure? (token v) = Problems.ofListed? .tokens v := by
  rw [token, failure?_map]
  exact item_first (fun _ => rfl) v

end Load

theorem Tree.ofValue_first (schema : Schema) (v : Value) :
    failure? (Tree.ofValue schema v) = (Problems.ofNode schema [] v).head? := by
  rw [← Load.node_first schema v [] .empty, Tree.ofValue]
  cases Load.node schema [] v .empty <;> rfl

theorem Document.ofValue_first (schema : Schema) (v : Value) :
    failure? (Document.ofValue schema v) = (Document.problems schema v).head? := by
  have htree := Tree.ofValue_first schema v
  unfold Document.ofValue Document.problems
  rw [List.head?_append, List.head?_map, ← htree]
  cases ht : Tree.ofValue schema v with
  | error e => rfl
  | ok t =>
    -- what loads is an object
    obtain ⟨members, rfl⟩ : ∃ members, v = .object members := by
      obtain ⟨-, records, hlaid, -⟩ := ofValue_lays ht
      cases hlaid
      exact ⟨_, rfl⟩
    have hcomments := Load.listOf_first Load.comment_first (member? members "comments")
    have htokens := Load.listOf_first Load.token_first (member? members "tokens")
    simp only [failure?_ok, Option.map_none, Option.none_or, List.head?_append, Value.asObject?, Option.getD_some]
    rw [← hcomments, ← htokens]
    cases Load.listOf .comments Load.comment (member? members "comments") with
    | error e => rfl
    | ok comments => cases Load.listOf .tokens Load.token (member? members "tokens") <;> rfl

/-! ## Where the problems are -/

/-- What the error says is so at the end of its path, if the steps `front` are taken off: no object with a `type` string is
there, or a node without a usable range. The third error has no path, but there is a node that it is about. -/
def TreeError.Locates (front : List PathStep) (v : Value) : TreeError → Prop
  | .missingType path => ∃ steps w, path = front ++ steps ∧ v.follow? steps = some w ∧
      ∀ members kind, w = .object members → member? members "type" ≠ some (.string kind)
  | .invalidSpan kind path => ∃ steps members, path = front ++ steps ∧ v.follow? steps = some (.object members) ∧
      member? members "type" = some (.string kind) ∧ Shape.span? members = none
  | .notANode kind field => ∃ steps members w, v.follow? steps = some (.object members) ∧
      member? members "type" = some (.string kind) ∧ member? members field = some w ∧
      w ≠ .null ∧ w.asArray? = none ∧ w.asObject? = none

theorem TreeError.Locates.step {front : List PathStep} {v w : Value} {s : PathStep} (h : v.step? s = some w)
    {e : TreeError} (he : e.Locates (front ++ [s]) w) : e.Locates front v := by
  cases e with
  | missingType path =>
    obtain ⟨steps, u, rfl, hu, hbad⟩ := he
    exact ⟨s :: steps, u, by simp, by rw [Value.follow?_cons h, hu], hbad⟩
  | invalidSpan kind path =>
    obtain ⟨steps, members, rfl, hu, hbad⟩ := he
    exact ⟨s :: steps, members, by simp, by rw [Value.follow?_cons h, hu], hbad⟩
  | notANode kind field =>
    obtain ⟨steps, members, u, hu, hbad⟩ := he
    exact ⟨s :: steps, members, u, by rw [Value.follow?_cons h, hu], hbad⟩

namespace Problems

theorem exists_of_mem_ofItems {schema : Schema} {path : List PathStep} {e : TreeError} (values : List Value) :
    ∀ i, e ∈ ofItems schema path i values →
      ∃ j w, values[j]? = some w ∧ e ∈ ofNode schema (path ++ [.index (i + j)]) w := by
  induction values with
  | nil => intro i he; rw [ofItems] at he; cases he
  | cons v rest ih =>
    intro i he
    have hlater : e ∈ ofItems schema path (i + 1) rest →
        ∃ j w, (v :: rest)[j]? = some w ∧ e ∈ ofNode schema (path ++ [.index (i + j)]) w := by
      intro he
      obtain ⟨j, w, hw, hmem⟩ := ih (i + 1) he
      exact ⟨j + 1, w, hw, by rwa [Nat.add_assoc, Nat.add_comm 1 j] at hmem⟩
    rw [ofItems.eq_def] at he
    split at he
    · cases he
    · rename_i heq
      cases heq
      exact hlater he
    · rename_i heq
      cases heq
      rcases List.mem_append.1 he with he | he
      · exact ⟨0, v, rfl, he⟩
      · exact hlater he

theorem exists_of_mem_ofFields {schema : Schema} {path : List PathStep} {kind : String}
    {members : List (String × Value)} {e : TreeError} (fields : List Field) :
    e ∈ ofFields schema path kind members fields →
      ∃ f ∈ fields, e ∈ ofField schema path kind f.name (member? members f.name) := by
  induction fields with
  | nil => intro he; rw [ofFields] at he; cases he
  | cons f rest ih =>
    intro he
    rw [ofFields, List.mem_append] at he
    rcases he with he | he
    · exact ⟨f, List.mem_cons_self, he⟩
    · obtain ⟨g, hg, hmem⟩ := ih he
      exact ⟨g, List.mem_cons_of_mem f hg, hmem⟩

theorem ofField_locates {schema : Schema} {members : List (String × Value)}
    (hlocates : ∀ w, sizeOf w < sizeOf members → ∀ path, ∀ e ∈ ofNode schema path w, e.Locates path w)
    {path : List PathStep} {kind name : String} (hkind : member? members "type" = some (.string kind)) {e : TreeError}
    (he : e ∈ ofField schema path kind name (member? members name)) : e.Locates path (.object members) := by
  rw [ofField.eq_def] at he
  split at he
  · cases he
  · cases he
  · rename_i w hm
    have hfield : (Value.object members).step? (.field name) = some (.object w) := hm
    exact .step hfield (hlocates _ (Load.sizeOf_member?_lt hm) _ e he)
  · rename_i values hm
    obtain ⟨j, w, hw, he⟩ := exists_of_mem_ofItems values 0 he
    have hsize : sizeOf w < sizeOf members := sizeOf_item_lt hm (List.mem_of_getElem? hw)
    have hfield : (Value.object members).step? (.field name) = some (.array values) := hm
    have hindex : (Value.array values).step? (.index (0 + j)) = some w := by rw [Nat.zero_add]; exact hw
    exact .step hfield (.step hindex (hlocates w hsize _ e he))
  · rename_i w hnull hobject harray hm
    rw [List.mem_singleton] at he
    subst he
    refine ⟨[], members, w, rfl, hkind, hm, hnull, ?_, ?_⟩
    · cases w with
      | array values => exact absurd rfl (harray values)
      | _ => rfl
    · cases w with
      | object members => exact absurd rfl (hobject members)
      | _ => rfl

/-- **Every problem of a tree is where it says.** -/
theorem ofNode_locates (schema : Schema) (v : Value) :
    ∀ path, ∀ e ∈ ofNode schema path v, e.Locates path v := by
  refine @forall_of_members (fun v => ∀ path, ∀ e ∈ ofNode schema path v, e.Locates path v) (fun v hlocates => ?_) v
  intro path e he
  rw [ofNode.eq_def] at he
  split at he
  · rename_i members
    split at he
    · rename_i kind hkind
      rcases List.mem_append.1 he with he | he
      · split at he
        · rename_i hspan
          rw [List.mem_singleton] at he
          subst he
          exact ⟨[], members, by simp, rfl, hkind, hspan⟩
        · cases he
      · obtain ⟨f, -, he⟩ := exists_of_mem_ofFields _ he
        exact ofField_locates (hlocates members rfl) hkind he
    · rename_i hkind
      rw [List.mem_singleton] at he
      subst he
      refine ⟨[], .object members, by simp, rfl, ?_⟩
      intro others kind heq
      cases heq
      exact hkind kind
  · rename_i hobject
    rw [List.mem_singleton] at he
    subst he
    exact ⟨[], v, by simp, rfl, fun members _ h => absurd h (hobject members)⟩

/-- what a list is reported for: it is no array, with the index 0, or the item at the index is the first that cannot be
used, with what is wrong with it -/
def Blames (list : ListName) (found : Value) (i : Nat) (p : ItemProblem) : Prop :=
  (found.asArray? = none ∧ i = 0 ∧ p = .notAnArray) ∨
    ∃ values w, found = .array values ∧ values[i]? = some w ∧ ofListed? list w = some p ∧
      ∀ j u, j < i → values[j]? = some u → ofListed? list u = none

theorem ofList_blames {list : ListName} {found : Option Value} {e : LoadError}
    (h : (ofList list found).head? = some e) : ∃ w i p, found = some w ∧ e = .item list i p ∧ Blames list w i p := by
  unfold ofList at h
  split at h
  · cases h
  · rename_i values
    rw [List.head?_filterMap, List.findSome?_eq_some_iff] at h
    obtain ⟨before, ⟨w, i⟩, after, hsplit, hw, hbefore⟩ := h
    obtain ⟨p, hp, rfl⟩ := Option.map_eq_some_iff.1 hw
    have hget : values.zipIdx[before.length]? = some (w, i) := by simp [hsplit]
    rw [List.getElem?_zipIdx, Option.map_eq_some_iff] at hget
    obtain ⟨w', hw', heq⟩ := hget
    obtain ⟨rfl, rfl⟩ := Prod.mk.inj heq
    refine ⟨_, _, p, rfl, rfl, .inr ⟨values, w', rfl, by simpa using hw', hp, fun j u hj hu => ?_⟩⟩
    rw [Nat.zero_add] at hj
    have hmem : (u, j) ∈ before := by
      have hget : values.zipIdx[j]? = some (u, j) := by simp [List.getElem?_zipIdx, hu]
      rw [hsplit, List.getElem?_append_left hj] at hget
      exact List.mem_of_getElem? hget
    exact Option.map_eq_none_iff.1 (hbefore _ hmem)
  · rename_i w harray
    refine ⟨w, 0, .notAnArray, rfl, (Option.some.inj h).symm, .inl ⟨?_, rfl, rfl⟩⟩
    cases w with
    | array values => exact absurd rfl (harray values)
    | _ => rfl

end Problems

/-- the first problem of a document is one of its tree, or the tree has none and it is the one that a list is reported for -/
theorem Document.first_problem_cases {schema : Schema} {v : Value} {e : LoadError}
    (h : (Document.problems schema v).head? = some e) :
    (∃ problem, e = .tree problem ∧ problem.Locates [] v) ∨
      ∃ list i p members w, e = .item list i p ∧ v = .object members ∧ member? members list.key = some w ∧
        Problems.Blames list w i p := by
  unfold Document.problems at h
  rw [List.head?_append, Option.or_eq_some_iff] at h
  rcases h with h | ⟨-, h⟩
  · obtain ⟨problem, hproblem, rfl⟩ := List.mem_map.1 (List.mem_of_head? h)
    exact .inl ⟨problem, rfl, Problems.ofNode_locates schema v [] problem hproblem⟩
  · right
    split at h
    · rename_i members
      rw [List.head?_append, Option.or_eq_some_iff] at h
      rcases h with h | ⟨-, h⟩
      · obtain ⟨w, i, p, hw, rfl, hp⟩ := Problems.ofList_blames h
        exact ⟨.comments, i, p, members, w, rfl, rfl, hw, hp⟩
      · obtain ⟨w, i, p, hw, rfl, hp⟩ := Problems.ofList_blames h
        exact ⟨.tokens, i, p, members, w, rfl, rfl, hw, hp⟩
    · cases h

/-! ## Main result -/

/-- **Loading fails exactly when a check fails, with the first failure.** For every value and every schema:
- a document loads exactly if it has no problem;
- an error is the first problem in the order of the document;
- the path of a missing type or an unusable range, which the report shows, leads from the root of the value to a part that
  is no object with a `type` string, or to an object of the reported kind without a usable range;
- a list is reported with the index 0 if it is no array, else with the least index of an item that cannot be used. -/
theorem ofValue_first_problem (schema : Schema) (v : Value) :
    ((∃ d, Document.ofValue schema v = .ok d) ↔ Document.problems schema v = []) ∧
    (∀ e, Document.ofValue schema v = .error e ↔ (Document.problems schema v).head? = some e) ∧
    (∀ path, Document.ofValue schema v = .error (.tree (.missingType path)) →
      (LoadError.tree (.missingType path)).message =
        "expected a node object with a `type` string at `" ++ pathText path ++ "`" ∧
      ∃ w, v.follow? path = some w ∧
        ∀ members kind, w = .object members → member? members "type" ≠ some (.string kind)) ∧
    (∀ kind path, Document.ofValue schema v = .error (.tree (.invalidSpan kind path)) →
      (LoadError.tree (.invalidSpan kind path)).message =
        "node `" ++ kind ++ "` at `" ++ pathText path ++ "` has no usable `start`/`end` or `range`" ∧
      ∃ members, v.follow? path = some (.object members) ∧ member? members "type" = some (.string kind) ∧
        Shape.span? members = none) ∧
    (∀ list i p, Document.ofValue schema v = .error (.item list i p) →
      ∃ members w, v = .object members ∧ member? members list.key = some w ∧ Problems.Blames list w i p) := by
  have hfirst := Document.ofValue_first schema v
  have herror : ∀ e, Document.ofValue schema v = .error e ↔ (Document.problems schema v).head? = some e := by
    intro e
    rw [← failure?_eq_some_iff, hfirst]
  refine ⟨?_, herror, fun path h => ⟨rfl, ?_⟩, fun kind path h => ⟨rfl, ?_⟩, fun list i p h => ?_⟩
  · rw [← failure?_eq_none_iff, hfirst, List.head?_eq_none_iff]
  · rcases Document.first_problem_cases ((herror _).1 h) with ⟨problem, heq, hlocates⟩ | ⟨_, _, _, _, _, heq, -⟩
    · cases heq
      obtain ⟨steps, w, rfl, hw, hbad⟩ := hlocates
      exact ⟨w, hw, hbad⟩
    · cases heq
  · rcases Document.first_problem_cases ((herror _).1 h) with ⟨problem, heq, hlocates⟩ | ⟨_, _, _, _, _, heq, -⟩
    · cases heq
      obtain ⟨steps, members, rfl, hm, hbad⟩ := hlocates
      exact ⟨members, hm, hbad⟩
    · cases heq
  · rcases Document.first_problem_cases ((herror _).1 h) with ⟨_, heq, -⟩ | ⟨_, _, _, members, w, heq, hv, hw, hp⟩
    · cases heq
    · cases heq
      exact ⟨members, w, hv, hw, hp⟩

/-- a list whose second item has no range, whose tail is a number and whose comments are no array -/
def brokenValue : Value :=
  .object [("comments", .bool false), ("end", .nat 9), ("head", nameValue "x" 1 2),
    ("items", .array [.null, .object [("type", .string "Name")]]), ("start", .nat 0), ("tail", .nat 7),
    ("type", .string "List")]

/-- the item comes before the tail and the comments, and the reported path leads to it -/
theorem ofValue_first_problem_broken :
    Document.ofValue listSchema brokenValue = .error (.tree (.invalidSpan "Name" [.field "items", .index 1])) ∧
    (Document.problems listSchema brokenValue).head? =
      some (.tree (.invalidSpan "Name" [.field "items", .index 1])) ∧
    pathText [.field "items", .index 1] = "$.items[1]" ∧
    ∃ members, brokenValue.follow? [.field "items", .index 1] = some (.object members) ∧
      member? members "type" = some (.string "Name") ∧ Shape.span? members = none := by
  have hload : Document.ofValue listSchema brokenValue =
      .error (.tree (.invalidSpan "Name" [.field "items", .index 1])) := by cbv
  obtain ⟨-, herror, -, hspan, -⟩ := ofValue_first_problem listSchema brokenValue
  exact ⟨hload, (herror _).1 hload, by decide +kernel, (hspan _ _ hload).2⟩

end Arbor
