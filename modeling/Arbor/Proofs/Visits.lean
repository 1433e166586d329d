/-
What visitors are called with. A visitor is any function with a state; to speak of its calls, let it note them (`noting`),
and to compare two walks, let one repeat the verdicts of the other (`replay`).

- `walk_refines_recursion`: on an acyclic tree the walk ends, and its calls and its final state are those of the recursion.
- `walkPath_contexts_exact`: the walk with contexts makes the same visits, and every context is the way from the root to
  the visited node, whatever was left out before.
- `nodes_eq_refs`: the list of all visited nodes is the unfolding read from the front.
-/
import Arbor.Proofs.Recursion
import Arbor.View.Search

namespace Arbor

/-! ## Visitors that note their calls -/

/-- the visitor with a list of notes about its calls, the first call first -/
def noting {α σ : Type} (note : Call σ → α) (visit : NodeRef → Context → σ → Visit × σ) :
    NodeRef → Context → List α × σ → Visit × (List α × σ) :=
  fun ref context s =>
    let (verdict, after) := visit ref context s.2
    (verdict, (s.1 ++ [note ⟨ref, context, s.2, verdict⟩], after))

/-- the visitor of a plain walk with a list of its calls: the node, the state before and the verdict -/
def noted {σ : Type} (visit : NodeRef → σ → Visit × σ) :
    NodeRef → List (NodeRef × σ × Visit) × σ → Visit × (List (NodeRef × σ × Visit) × σ) :=
  fun ref s =>
    let (verdict, after) := visit ref s.2
    (verdict, (s.1 ++ [(ref, s.2, verdict)], after))

/-- a visitor that repeats given verdicts and lists the nodes it sees -/
def replay : NodeRef → List Visit × List NodeRef → Visit × (List Visit × List NodeRef)
  | ref, (verdicts, seen) => (verdicts.headD .stop, (verdicts.tail, seen ++ [ref]))

namespace Outcome

variable {σ : Type}

theorem andThen_of_done {out : Outcome σ} (h : out.ending = .done) (more : σ → Outcome σ) :
    out.andThen more = { more out.state with calls := out.calls ++ (more out.state).calls } := by
  simp [andThen, h]

theorem andThen_of_not_done {out : Outcome σ} (h : out.ending ≠ .done) (more : σ → Outcome σ) :
    out.andThen more = out := by
  unfold andThen
  split
  · contradiction
  · rfl

theorem mem_calls_andThen {out : Outcome σ} {more : σ → Outcome σ} {call : Call σ}
    (h : call ∈ (out.andThen more).calls) : call ∈ out.calls ∨ call ∈ (more out.state).calls := by
  by_cases hd : out.ending = .done
  · rw [andThen_of_done hd] at h
    exact List.mem_append.1 h
  · rw [andThen_of_not_done hd] at h
    exact Or.inl h

end Outcome

namespace Forest

variable {σ : Type}

/-- noting does not change the visits -/
theorem recurse_noting {α : Type} (note : Call σ → α) (visit : NodeRef → Context → σ → Visit × σ) (forest : Forest) :
    ∀ (path : List NodeId) (log : List α) (s : σ),
      (forest.recurse (noting note visit) path (log, s)).ending = (forest.recurse visit path s).ending ∧
      (forest.recurse (noting note visit) path (log, s)).state =
        (log ++ (forest.recurse visit path s).calls.map note, (forest.recurse visit path s).state) := by
  induction forest with
  | nil => intro path log s; simp [recurse]
  | broken fault => intro path log s; simp [recurse]
  | cons field index ref below next ihbelow ihnext =>
    intro path log s
    simp only [recurse, noting]
    cases hv : visit ref ⟨path.toArray, field, index⟩ s with
    | mk verdict after =>
      cases verdict with
      | stop => simp
      | skip =>
        obtain ⟨hend, hstate⟩ := ihnext path (log ++ [note ⟨ref, ⟨path.toArray, field, index⟩, s, .skip⟩]) after
        simp [Outcome.andThen, hend, hstate]
      | descend =>
        obtain ⟨hend, hstate⟩ :=
          ihbelow (path ++ [ref.id]) (log ++ [note ⟨ref, ⟨path.toArray, field, index⟩, s, .descend⟩]) after
        simp only [Outcome.andThen, hend]
        cases hd : (below.recurse visit (path ++ [ref.id]) after).ending with
        | done =>
          obtain ⟨hend', hstate'⟩ := ihnext path _ (below.recurse visit (path ++ [ref.id]) after).state
          simp only [hstate]
          refine ⟨hend', ?_⟩
          rw [hstate']; simp
        | stopped => simp [hstate]
        | faulty fault => simp [hstate]

/-- a plain visitor that repeats the verdicts of another one is called on the same nodes -/
theorem recurse_replay (visit : NodeRef → Context → σ → Visit × σ) (forest : Forest) :
    ∀ (path around : List NodeId) (s : σ) (more : List Visit) (seen : List NodeRef),
      (forest.recurse (fun ref _ => replay ref) around
        ((forest.recurse visit path s).calls.map Call.verdict ++ more, seen)).ending =
          (forest.recurse visit path s).ending ∧
      (forest.recurse (fun ref _ => replay ref) around
        ((forest.recurse visit path s).calls.map Call.verdict ++ more, seen)).state =
          (more, seen ++ (forest.recurse visit path s).calls.map Call.ref) := by
  induction forest with
  | nil => intro path around s more seen; simp [recurse]
  | broken fault => intro path around s more seen; simp [recurse]
  | cons field index ref below next ihbelow ihnext =>
    intro path around s more seen
    simp only [recurse]
    cases hv : visit ref ⟨path.toArray, field, index⟩ s with
    | mk verdict after =>
      cases verdict with
      | stop => simp [replay]
      | skip =>
        obtain ⟨hend, hstate⟩ := ihnext path around after more (seen ++ [ref])
        simp [Outcome.andThen, replay, hend, hstate]
      | descend =>
        simp only [Outcome.andThen]
        cases hd : (below.recurse visit (path ++ [ref.id]) after).ending with
        | done =>
          obtain ⟨hend, hstate⟩ := ihbelow (path ++ [ref.id]) (around ++ [ref.id]) after
            ((next.recurse visit path (below.recurse visit (path ++ [ref.id]) after).state).calls.map Call.verdict ++ more)
            (seen ++ [ref])
          obtain ⟨hend', hstate'⟩ := ihnext path around (below.recurse visit (path ++ [ref.id]) after).state more
            (seen ++ ref :: (below.recurse visit (path ++ [ref.id]) after).calls.map Call.ref)
          simp [replay, hend, hstate, hd, hend', hstate']
        | stopped =>
          obtain ⟨hend, hstate⟩ := ihbelow (path ++ [ref.id]) (around ++ [ref.id]) after more (seen ++ [ref])
          simp [replay, hend, hstate, hd]
        | faulty fault =>
          obtain ⟨hend, hstate⟩ := ihbelow (path ++ [ref.id]) (around ++ [ref.id]) after more (seen ++ [ref])
          simp [replay, hend, hstate, hd]

/-- a visitor that always goes on below sees every node of an unbroken forest, in order -/
theorem recurse_descend (f : NodeRef → σ → σ) (forest : Forest) (hu : forest.Unbroken) :
    ∀ (path : List NodeId) (s : σ),
      (forest.recurse (fun ref _ s => (.descend, f ref s)) path s).ending = .done ∧
      (forest.recurse (fun ref _ s => (.descend, f ref s)) path s).state = forest.refs.foldl (fun s ref => f ref s) s := by
  induction forest with
  | nil => intro path s; exact ⟨rfl, rfl⟩
  | broken fault => exact absurd hu id
  | cons field index ref below next ihbelow ihnext =>
    intro path s
    obtain ⟨hend, hstate⟩ := ihbelow hu.1 (path ++ [ref.id]) (f ref s)
    obtain ⟨hend', hstate'⟩ := ihnext hu.2 path (below.refs.foldl (fun s ref => f ref s) (f ref s))
    simp [recurse, Outcome.andThen, refs, hend, hstate, hend', hstate']

end Forest

/-! ## The way to a visited node -/

/-- the nodes from the root down to a seat, each of them holding the next one in the seat through which it is reached -/
inductive View.Way (v : View) (root : NodeId) : List NodeId → Seat → Prop
  | top : View.Way v root [] (Seat.top root)
  | child {path : List NodeId} {parent seat : Seat} {ref : NodeRef} (hway : View.Way v root path parent)
    (hr : v.tree.ref parent.node = .ok ref) (hseat : seat ∈ v.seats ref) :
    View.Way v root (path ++ [parent.node]) seat

/-- the seat of the node that a call was made for -/
def Call.seat {σ : Type} (call : Call σ) : Seat := ⟨call.ref.id, call.context.field, call.context.index⟩

namespace View

variable {σ : Type}

theorem Way.reaches {v : View} {root : NodeId} {path : List NodeId} {seat : Seat} (h : v.Way root path seat) :
    v.Reaches root seat.node := by
  induction h with
  | top => exact .refl
  | child _ hr hseat ih => exact ih.tail (child_of_seat hr hseat)

/-- below an acyclic root only the root itself has nothing around it -/
theorem Way.path_eq_nil_iff {v : View} {root : NodeId} (hacyclic : v.Acyclic root) {path : List NodeId} {seat : Seat}
    (h : v.Way root path seat) : path = [] ↔ seat.node = root := by
  cases h with
  | top => simp [Seat.top]
  | child hway hr hseat =>
    have hc := child_of_seat hr hseat
    constructor
    · intro hnil; simp at hnil
    · intro hroot
      rw [hroot] at hc
      exact absurd (Relation.TransGen.tail' hway.reaches hc) (hacyclic root .refl)

/-- every call of the recursion is given the way to its node -/
theorem Unfolds.calls_way {v : View} {root : NodeId} {row : List Seat} {forest : Forest} (h : v.Unfolds row forest)
    (visit : NodeRef → Context → σ → Visit × σ) :
    ∀ (path : List NodeId) (s : σ), (∀ seat ∈ row, v.Way root path seat) →
      ∀ call ∈ (forest.recurse visit path s).calls, v.Way root call.context.ancestors.toList call.seat := by
  induction h with
  | nil => intro path s _ call hm; simp [Forest.recurse] at hm
  | broken _ => intro path s _ call hm; simp [Forest.recurse] at hm
  | @cons seat rest ref below next hr _ _ ihbelow ihnext =>
    intro path s hrow call hm
    have hself : v.Way root path seat := hrow seat List.mem_cons_self
    have hhere : ∀ verdict : Visit, call = ⟨ref, ⟨path.toArray, seat.field, seat.index⟩, s, verdict⟩ →
        v.Way root call.context.ancestors.toList call.seat := by
      rintro verdict rfl
      have hseat : (⟨ref.id, seat.field, seat.index⟩ : Seat) = seat := by rw [Tree.ref_id hr]
      simpa [Call.seat, hseat] using hself
    have hbelow : ∀ s, ∀ call ∈ (below.recurse visit (path ++ [ref.id]) s).calls,
        v.Way root call.context.ancestors.toList call.seat := by
      intro s
      refine ihbelow (path ++ [ref.id]) s fun child hchild => ?_
      rw [Tree.ref_id hr]
      exact .child hself hr hchild
    have hnext : ∀ s, ∀ call ∈ (next.recurse visit path s).calls,
        v.Way root call.context.ancestors.toList call.seat :=
      fun s => ihnext path s fun brother hb => hrow brother (List.mem_cons_of_mem _ hb)
    simp only [Forest.recurse] at hm
    split at hm
    · exact hhere .stop (by simpa using hm)
    · rcases Outcome.mem_calls_andThen hm with hm | hm
      · exact hhere .skip (by simpa using hm)
      · exact hnext _ call hm
    · rcases Outcome.mem_calls_andThen hm with hm | hm
      · rcases Outcome.mem_calls_andThen hm with hm | hm
        · exact hhere .descend (by simpa using hm)
        · exact hbelow _ call hm
      · exact hnext _ call hm

/-- **The visited nodes are the unfolding.** -/
theorem nodes_eq_refs {v : View} {root : NodeId} (h : v.Acyclic root) (hw : v.Whole root) {forest : Forest}
    (hu : v.Unfolds [Seat.top root] forest) : v.nodes (some root) = .ok forest.refs := by
  have hunbroken : forest.Unbroken := hu.unbroken (by simpa [Seat.top] using hw)
  obtain ⟨hend, hstate⟩ := Forest.recurse_descend (fun ref (all : Array NodeRef) => all.push ref) forest hunbroken [] #[]
  have hwalk : v.walk (some root) (fun ref (all : Array NodeRef) => (.descend, all.push ref)) #[] =
      .ok forest.refs.toArray := by
    rw [walk_eq_walkPath, walkPath_eq_recurse h hu, Outcome.result, hend, hstate]
    simp
  simp [nodes, hwalk, bind, Except.bind, pure, Except.pure]

/-- what a walk that notes its calls returns: the notes of the recursion's calls and its final state -/
theorem walkPath_noting {v : View} {root : NodeId} (h : v.Acyclic root) {forest : Forest}
    (hu : v.Unfolds [Seat.top root] forest) {α : Type} (note : Call σ → α)
    (visit : NodeRef → Context → σ → Visit × σ) (s : σ) :
    v.walkPath (some root) (noting note visit) ([], s) = (forest.recurse visit [] s).record note := by
  obtain ⟨hend, hstate⟩ := Forest.recurse_noting note visit forest [] [] s
  rw [walkPath_eq_recurse h hu, Outcome.record, Outcome.result, Outcome.result, hend, hstate]
  split <;> simp [Except.map]

end View

/-! ## Main results -/

/-- a list that holds a name twice itself, with a hole between, and once more through the list it holds third -/
def sharedTree : Tree where
  names := ⟨#["List", "items", "Name", "head"]⟩
  nodes := #[
    ⟨0, ⟨0, 9⟩, [(1, .sequence [some 2, none, some 1, some 2])], []⟩,
    ⟨0, ⟨3, 6⟩, [(1, .sequence []), (3, .node 2)], []⟩,
    ⟨2, ⟨4, 5⟩, [], []⟩]
  root := some 0

/-- the shared tree with lists that hold items and a head -/
def sharedView : View :=
  ⟨sharedTree, ⟨fun kind => if kind = "List" then some [⟨"items", .many⟩, ⟨"head", .optional⟩] else none⟩⟩

namespace View

/-- **The walk refines the recursion.** Below an acyclic root (shared nodes allowed) and for every visitor with a state:
- the loop, with no bound on its rounds, ends and returns what the recursion returns and nothing else;
- so does the walk;
- the calls of the visitor, each with its node, the state it was given and its verdict, are those of the recursion.
Without a root the visitor is never called. -/
theorem walk_refines_recursion (v : View) (root : NodeId) (h : v.Acyclic root) :
    (∀ forest, v.Unfolds [Seat.top root] forest ↔ forest = v.unfolding root) ∧
      ∀ (σ : Type) (visit : NodeRef → σ → Visit × σ) (s : σ),
        let out := (v.unfolding root).recurse (fun ref _ => visit ref) [] s
        (∀ r, v.Loop visit [root] s r ↔ r = out.result) ∧
        v.walk (some root) visit s = out.result ∧
        v.walk (some root) (noted visit) ([], s) = out.record (fun call => (call.ref, call.before, call.verdict)) ∧
        v.walk none (noted visit) ([], s) = .ok ([], s) := by
  have hu := h.unfolds
  refine ⟨h.unfolds_iff, fun σ visit s => ?_⟩
  intro out
  have hwalk : v.walk (some root) visit s = out.result := by
    rw [walk_eq_walkPath, walkPath_eq_recurse h hu]
  have hloop : v.Loop visit [root] s out.result := by
    rw [← hwalk]
    exact loop_walkFrom visit [(root, v.tree.size)] s (by simpa using h.fits)
  refine ⟨fun r => ⟨fun hr => hr.unique _ hloop, fun hr => hr ▸ hloop⟩, hwalk, ?_, rfl⟩
  rw [walk_eq_walkPath]
  exact walkPath_noting h hu (fun call => (call.ref, call.before, call.verdict)) (fun ref _ => visit ref) s

/-- the shared name is visited once for every way to it, but for the ways through a list that is skipped -/
theorem walk_refines_recursion_shared :
    sharedView.Acyclic 0 ∧
    sharedView.walk (some 0) (fun ref ids => (.descend, ids ++ [ref.id])) [] = .ok [0, 2, 1, 2, 2] ∧
    sharedView.walk (some 0) (fun ref ids => (if ref.id = 1 then .skip else .descend, ids ++ [ref.id])) [] =
      .ok [0, 2, 1, 2] ∧
    sharedView.walk (some 0) (fun ref ids => (if ref.id = 1 then .stop else .descend, ids ++ [ref.id])) [] =
      .ok [0, 2, 1] := by
  have hacyclic := acyclic_of_rising (v := sharedView) (by decide +kernel) 0
  have hwalk := (walk_refines_recursion sharedView 0 hacyclic).2
  refine ⟨hacyclic, ?_, ?_, ?_⟩
  · rw [(hwalk _ _ _).2.1]; decide +kernel
  · rw [(hwalk _ _ _).2.1]; decide +kernel
  · rw [(hwalk _ _ _).2.1]; decide +kernel

/-- **Contexts are exact.** Below an acyclic root and for every visitor, whatever it skips and wherever it stops:
- the calls of the walk, with their contexts, are those of the recursion, where the nodes around a node are the nodes on
  the way of the recursion to it;
- a plain walk with the same verdicts visits the same nodes;
- the context of every call is the way from the root to the node through the seat it was reached by; the parent is the
  last node on it, and only the root of the walk has none. -/
theorem walkPath_contexts_exact (v : View) (root : NodeId) (h : v.Acyclic root) :
    (∀ forest, v.Unfolds [Seat.top root] forest ↔ forest = v.unfolding root) ∧
      ∀ (σ : Type) (visit : NodeRef → Context → σ → Visit × σ) (s : σ),
        let out := (v.unfolding root).recurse visit [] s
        v.walkPath (some root) visit s = out.result ∧
        v.walkPath (some root) (noting id visit) ([], s) = out.record id ∧
        v.walk (some root) replay (out.calls.map Call.verdict, []) =
          out.result.map (fun _ => ([], out.calls.map Call.ref)) ∧
        ∀ call ∈ out.calls,
          v.Way root call.context.ancestors.toList call.seat ∧
          call.context.parent? = call.context.ancestors.toList.getLast? ∧
          (call.context.parent? = none ↔ call.ref.id = root) ∧
          call.context.depth = call.context.ancestors.toList.length := by
  have hu := h.unfolds
  refine ⟨h.unfolds_iff, fun σ visit s => ?_⟩
  intro out
  refine ⟨walkPath_eq_recurse h hu visit s, walkPath_noting h hu id visit s, ?_, fun call hcall => ?_⟩
  · obtain ⟨hend, hstate⟩ := Forest.recurse_replay visit (v.unfolding root) [] [] s [] []
    rw [List.append_nil] at hend hstate
    rw [walk_eq_walkPath, walkPath_eq_recurse h hu, Outcome.result, Outcome.result, hend, hstate]
    split <;> simp_all [Except.map, out]
  · have hway : v.Way root call.context.ancestors.toList call.seat :=
      hu.calls_way visit [] s (by simpa using Way.top) call hcall
    have hparent : call.context.parent? = call.context.ancestors.toList.getLast? := by
      rw [Context.parent?, Array.getLast?_toList]
    refine ⟨hway, hparent, ?_, rfl⟩
    rw [hparent, List.getLast?_eq_none_iff]
    exact hway.path_eq_nil_iff h

/-- after the items of the inner list were skipped, the last item is again one level below the root -/
theorem walkPath_contexts_exact_shared :
    sharedView.Acyclic 0 ∧
    sharedView.walkPath (some 0) (fun ref ctx seen => (if ref.id = 1 then .skip else .descend, seen ++ [(ref.id, ctx)])) [] =
      .ok [(0, ⟨#[], none, none⟩), (2, ⟨#[0], some "items", some 0⟩), (1, ⟨#[0], some "items", some 2⟩),
        (2, ⟨#[0], some "items", some 3⟩)] ∧
    sharedView.walkPath (some 0) (fun ref ctx seen => (.descend, seen ++ [(ref.id, ctx)])) [] =
      .ok [(0, ⟨#[], none, none⟩), (2, ⟨#[0], some "items", some 0⟩), (1, ⟨#[0], some "items", some 2⟩),
        (2, ⟨#[0, 1], some "head", none⟩), (2, ⟨#[0], some "items", some 3⟩)] := by
  have hacyclic := acyclic_of_rising (v := sharedView) (by decide +kernel) 0
  have hwalk := (walkPath_contexts_exact sharedView 0 hacyclic).2
  refine ⟨hacyclic, ?_, ?_⟩
  · rw [(hwalk _ _ _).1]; decide +kernel
  · rw [(hwalk _ _ _).1]; decide +kernel

end View

end Arbor
