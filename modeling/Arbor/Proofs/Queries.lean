/-
Searching is filtering. The order in which the nodes below a root are visited is one list, and `PreOrder` says which, without
naming a walk: a node, then its children each with all that is below it, then its brothers. Every search is a question about
this list.

A search for a kind compares symbols and gives up at once if the name list does not know the kind. Symbols are as good as
kinds because the names are distinct and the kind of every node is one of them; the list also holds field and attribute names,
and these do no harm.

- `preOrder_iff`: where the walk ends, its visits are the one pre-order list.
- `findFirst_eq`, `walk_noted_seeker`: a search for the first hit finds the head of the filtered list, and it tries the nodes up
  to the hit and no other.
- `findByKind_eq`: comparing symbols is comparing kinds.
- `queries_filter_preorder`: all searches over built trees.
-/
import Arbor.Proofs.Built
import Arbor.Proofs.FirstSpots

namespace Arbor

/-- the text of a kind that was read stands behind the symbol of the node -/
theorem Tree.resolve_of_ref {t : Tree} {id : NodeId} {ref : NodeRef} (h : t.ref id = .ok ref) :
    t.names.resolve? ref.node.kind = some ref.kind := by
  simp only [Tree.ref, bind, Except.bind, pure, Except.pure] at h
  split at h
  · cases h
  · rename_i n hn
    cases hk : t.names.resolve? n.kind with
    | none => simp [Names.resolve, hk] at h
    | some kind =>
      simp only [Names.resolve, hk] at h
      cases h
      exact hk

namespace View

variable {v : View} {root : Option NodeId}

/-! ## The pre-order list -/

/-- the nodes of a row and all that is below them, in pre-order: a node comes before its children, and a child with all that is
below it comes before the next one -/
inductive PreOrder (v : View) : List NodeId → List NodeRef → Prop
  | nil : PreOrder v [] []
  | cons {id : NodeId} {row : List NodeId} {ref : NodeRef} {below after : List NodeRef} (hr : v.tree.ref id = .ok ref)
    (hbelow : PreOrder v ((v.childrenOf ref).map ChildSlot.node) below) (hafter : PreOrder v row after) :
    PreOrder v (id :: row) (ref :: (below ++ after))

theorem PreOrder.unique {row : List NodeId} {all : List NodeRef} (h : v.PreOrder row all) :
    ∀ other, v.PreOrder row other → all = other := by
  induction h with
  | nil => intro other h; cases h; rfl
  | cons hr _ _ ihbelow ihafter =>
    intro other h
    cases h with
    | cons hr' hbelow hafter =>
      rw [hr] at hr'
      cases hr'
      rw [ihbelow _ hbelow, ihafter _ hafter]

theorem Unfolds.preOrder {row : List Seat} {forest : Forest} (h : v.Unfolds row forest) (hu : forest.Unbroken) :
    v.PreOrder (row.map Seat.node) forest.refs := by
  induction h with
  | nil => exact .nil
  | broken _ => exact absurd hu id
  | @cons seat rest ref below next hr _ _ ihbelow ihnext =>
    have hbelow := ihbelow hu.1
    rw [nodes_seats] at hbelow
    exact .cons hr hbelow (ihnext hu.2)

/-- **The visits are the pre-order list**, and there is no other. -/
theorem preOrder_iff (h : v.Ends root) (other : List NodeRef) :
    v.PreOrder root.toList other ↔ other = (v.spots root).map Spot.ref := by
  have hvisits : v.PreOrder root.toList ((v.spots root).map Spot.ref) := by
    cases root with
    | none => exact .nil
    | some top =>
      rw [spots, Forest.map_ref_spots]
      exact (h top rfl).1.unfolds.preOrder h.unbroken
  constructor
  · intro hother
    exact hother.unique _ hvisits
  · rintro rfl
    exact hvisits

/-! ## Searches -/

theorem findAll_filter (h : v.Ends root) (p : NodeRef → Bool) :
    v.findAll root p = .ok ((((v.spots root).map Spot.ref).filter p).map NodeRef.id) := by
  cases root with
  | none => simp [findAll, walk, spots, bind, Except.bind, pure, Except.pure]
  | some top =>
    obtain ⟨hacyclic, hwhole⟩ := h top rfl
    rw [findAll_eq hacyclic hwhole, spots, Forest.map_ref_spots]

/-- the first hit is the head of all hits -/
theorem findFirst_eq (h : v.Ends root) (p : NodeRef → Bool) :
    v.findFirst root p = .ok ((((v.spots root).map Spot.ref).filter p).head?.map NodeRef.id) := by
  have hfind : (((v.spots root).map Spot.ref).filter p).head? =
      ((v.spots root).find? fun x => p x.ref).map Spot.ref := by
    rw [List.head?_filter, List.find?_map]
    rfl
  rw [findFirst, search_eq h, hfind, Option.map_map]
  rfl

/-- the visitor of a search: it tries the node and ends the walk at a hit -/
def seeker (p : NodeRef → Bool) : NodeRef → Search → Visit × Search :=
  fun ref s => if p ref then (.stop, ⟨some ref.id, s.tried + 1⟩) else (.descend, { s with tried := s.tried + 1 })

theorem search_eq_walk (v : View) (root : Option NodeId) (p : NodeRef → Bool) :
    v.search root p = v.walk root (seeker p) ⟨none, 0⟩ := rfl

/-- one call of the visitor of a search, with the list of calls -/
def noteCall (p : NodeRef → Bool) (x : Spot) (s : List (NodeRef × Search × Visit) × Search) :
    List (NodeRef × Search × Visit) × Search :=
  (noted (seeker p) x.ref s).2

theorem seeker_eq (p : NodeRef → Bool) :
    (fun (ref : NodeRef) (_ : Context) => seeker p ref) =
      seeking (fun x => p x.ref) (fun x s => (seeker p x.ref s).2) := by
  funext ref context s
  by_cases hp : p ref = true <;> simp [seeker, seeking, hp]

theorem noted_seeker_eq (p : NodeRef → Bool) :
    (fun (ref : NodeRef) (_ : Context) => noted (seeker p) ref) = seeking (fun x => p x.ref) (noteCall p) := by
  funext ref context s
  by_cases hp : p ref = true <;> simp [noted, seeker, seeking, noteCall, hp]

/-- the calls that were noted are those at the given spots -/
theorem foldl_noteCall (p : NodeRef → Bool) (xs : List Spot) (s : List (NodeRef × Search × Visit) × Search) :
    ((xs.foldl (fun s x => noteCall p x s) s).1).map Prod.fst = s.1.map Prod.fst ++ xs.map Spot.ref ∧
    (xs.foldl (fun s x => noteCall p x s) s).2 = xs.foldl (fun s x => (seeker p x.ref s).2) s.2 := by
  induction xs generalizing s with
  | nil => simp
  | cons x rest ih =>
    obtain ⟨hcalls, hstate⟩ := ih (noteCall p x s)
    constructor
    · rw [List.foldl_cons, hcalls]
      simp [noteCall, noted]
    · rw [List.foldl_cons, hstate]
      rfl

theorem map_upTo {α β : Type} (f : α → β) (p : β → Bool) (xs : List α) :
    (upTo (fun x => p (f x)) xs).map f = upTo p (xs.map f) := by
  induction xs with
  | nil => rfl
  | cons x rest ih => by_cases hp : p (f x) = true <;> simp [upTo, hp, ih]

/-- **A search tries the nodes up to the first hit**, in pre-order, and no other. -/
theorem walk_noted_seeker (h : v.Ends root) (p : NodeRef → Bool) :
    ∃ calls outcome, v.walk root (noted (seeker p)) ([], ⟨none, 0⟩) = .ok (calls, outcome) ∧
      v.search root p = .ok outcome ∧ calls.map Prod.fst = upTo p ((v.spots root).map Spot.ref) := by
  set tried := upTo (fun x => p x.ref) (v.spots root) with htried
  obtain ⟨hcalls, hstate⟩ := foldl_noteCall p tried ([], ⟨none, 0⟩)
  have hnoted : v.walk root (noted (seeker p)) ([], ⟨none, 0⟩) =
      .ok (tried.foldl (fun s x => noteCall p x s) ([], ⟨none, 0⟩)) := by
    rw [walk_eq_walkPath, noted_seeker_eq, walkPath_seeking h]
  have hsearch : v.search root p = .ok (tried.foldl (fun s x => noteCall p x s) ([], ⟨none, 0⟩)).2 := by
    rw [search_eq_walk, walk_eq_walkPath, seeker_eq, walkPath_seeking h, hstate]
  refine ⟨_, _, hnoted, hsearch, ?_⟩
  rw [hcalls, htried, ← map_upTo]
  rfl

/-! ## Kinds -/

/-- **Comparing symbols is comparing kinds**, and a kind that is not among the names has no node. -/
theorem findByKind_eq (h : v.Ends root) (hd : v.tree.names.Distinct) (kind : String) :
    v.findByKind root kind = v.findAll root fun ref => ref.kind == kind := by
  have hresolve : ∀ ref ∈ (v.spots root).map Spot.ref, v.tree.names.resolve? ref.node.kind = some ref.kind := by
    intro ref hm
    obtain ⟨x, hx, rfl⟩ := List.mem_map.1 hm
    exact Tree.resolve_of_ref (ref_of_spot h hx)
  unfold findByKind
  cases hfind : v.tree.names.find? kind with
  | none =>
    -- a node of this kind would have its kind among the names
    have hnone : ((v.spots root).map Spot.ref).filter (fun ref => ref.kind == kind) = [] := by
      apply List.filter_eq_nil_iff.2
      intro ref hm heq
      have hkind : v.tree.names.resolve? ref.node.kind = some kind := by
        rw [hresolve ref hm, eq_of_beq heq]
      rw [(Names.find?_eq_some_iff hd).2 hkind] at hfind
      cases hfind
    rw [findAll_filter h, hnone]
    rfl
  | some symbol =>
    have hsymbol : v.tree.names.resolve? symbol = some kind := (Names.find?_eq_some_iff hd).1 hfind
    have hsame : ((v.spots root).map Spot.ref).filter (fun ref => ref.node.kind == symbol) =
        ((v.spots root).map Spot.ref).filter (fun ref => ref.kind == kind) := by
      apply List.filter_congr
      intro ref hm
      rw [Bool.eq_iff_iff, beq_iff_eq, beq_iff_eq]
      exact Names.key_eq_iff hd (hresolve ref hm) hsymbol
    show v.findAll root _ = v.findAll root _
    rw [findAll_filter h, findAll_filter h, hsame]

/-! ## Main result -/

/-- **Searches are filters of the pre-order.** For every tree that was finished from a builder or loaded, every schema (also one
that lists a field twice) and every root, or none, below which no node lies below itself (shared nodes allowed), there is one
pre-order list, and:
- all visited nodes are this list, and their number is its length;
- for every predicate, all hits are the list filtered, and the first hit is the head of these; on the way to it the visitor of
  the search is called on the list up to the hit, on the whole list if there is none, and on nothing else;
- for every string, the nodes of this kind are the hits of the search that compares the texts of the kinds. -/
theorem queries_filter_preorder (t : Tree) (ht : t.Built) (schema : Schema) (root : Option NodeId)
    (hroot : ∀ id ∈ root, id < t.size ∧ View.Acyclic ⟨t, schema⟩ id) :
    let v : View := ⟨t, schema⟩
    ∃ all, (∀ other, v.PreOrder root.toList other ↔ other = all) ∧
      v.nodes root = .ok all ∧ v.countNodes root = .ok all.length ∧
      (∀ p : NodeRef → Bool,
        v.findAll root p = .ok ((all.filter p).map NodeRef.id) ∧
        v.findFirst root p = .ok ((all.filter p).head?.map NodeRef.id) ∧
        v.search root p = v.walk root (seeker p) ⟨none, 0⟩ ∧
        ∃ calls outcome, v.walk root (noted (seeker p)) ([], ⟨none, 0⟩) = .ok (calls, outcome) ∧
          v.search root p = .ok outcome ∧ calls.map Prod.fst = upTo p all) ∧
      ∀ kind : String, v.findByKind root kind = v.findAll root fun ref => ref.kind == kind := by
  intro v
  have h : v.Ends root := ht.ends schema hroot
  refine ⟨(v.spots root).map Spot.ref, preOrder_iff h, nodes_eq_spots h, ?_, fun p => ?_, findByKind_eq h ht.wellFormed.distinct⟩
  · rw [countNodes_eq h, List.length_map]
  · exact ⟨findAll_filter h p, findFirst_eq h p, search_eq_walk v root p, walk_noted_seeker h p⟩

/-- The name is met twice, below the list and as the head of the inner list. Its kind is found by its symbol; `head` is a name
of the tree too, but of a field, and `Leaf` is no name of it. The search for a name tries two nodes of four. -/
theorem queries_filter_preorder_labelled :
    labelledView.tree.Built ∧ labelledView.Acyclic 0 ∧
      labelledView.countNodes (some 0) = .ok 4 ∧
      labelledView.findByKind (some 0) "Name" = .ok [2, 2] ∧
      labelledView.findByKind (some 0) "head" = .ok [] ∧ labelledView.findByKind (some 0) "Leaf" = .ok [] ∧
      labelledView.findFirst (some 0) (fun ref => ref.kind == "Name") = .ok (some 2) ∧
      ∃ calls outcome,
        labelledView.walk (some 0) (noted (seeker fun ref => ref.kind == "Name")) ([], ⟨none, 0⟩) = .ok (calls, outcome) ∧
        calls.map (fun call => call.1.id) = [0, 2] := by
  have hfinish : labelledBuilder.Finishes labelledView.tree := .inr ⟨0, by decide +kernel⟩
  have hbuilt : labelledView.tree.Built := .finished _ hfinish
  have hacyclic : labelledView.Acyclic 0 := acyclic_of_rising (by decide +kernel) 0
  have hroot : ∀ id ∈ some 0, id < labelledView.tree.size ∧ labelledView.Acyclic id := by
    rintro id ⟨⟩
    exact ⟨by decide +kernel, hacyclic⟩
  obtain ⟨all, hall, hnodes, hcount, hsearch, hkind⟩ :=
    queries_filter_preorder labelledView.tree hbuilt labelledView.schema (some 0) hroot
  have hlist : all = (labelledView.spots (some 0)).map Spot.ref :=
    ((hall _).1 ((preOrder_iff (hbuilt.ends labelledView.schema hroot) _).2 rfl)).symm
  subst hlist
  obtain ⟨hfind, hfirst, -, calls, outcome, hwalk, -, hcalls⟩ := hsearch fun ref => ref.kind == "Name"
  refine ⟨hbuilt, hacyclic, hcount.trans (by decide +kernel), ?_, ?_, ?_, hfirst.trans (by decide +kernel), calls, outcome,
    hwalk, ?_⟩
  · rw [hkind]
    exact hfind.trans (by decide +kernel)
  · rw [hkind]
    exact ((hsearch _).1).trans (by decide +kernel)
  · rw [hkind]
    exact ((hsearch _).1).trans (by decide +kernel)
  · have hids : calls.map (fun call => call.1.id) = (calls.map Prod.fst).map NodeRef.id := by simp
    rw [hids, hcalls]
    decide +kernel

end View

end Arbor
