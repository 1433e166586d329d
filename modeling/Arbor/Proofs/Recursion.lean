/-
The walk as a recursion. The walks of `Arbor.View.Walk` are loops over a stack; here the same visits are described by the
recursion that one would write down first: visit a node; if the visitor says so, visit what is below it; then go on with
the next brother, unless a visit ended the walk.

The recursion runs along the unfolding of the tree, so it ends, and it carries the way from the root to the current node.
Its outcome holds every call of the visitor with the context and the state that the call was given.

- `walkPathFrom_row`: the loop visits a row of the stack as the recursion does and then goes on with the rest of the stack.
- `walkFrom_eq_walkPathFrom`: the walk without contexts makes the same visits as the one with contexts.
- `loop_walkFrom`: where there is room for every level, the walk is the loop without any bound on its rounds.
-/
import Arbor.Proofs.Unfold

namespace Arbor

/-- one call of a visitor: what it was given and what it said -/
structure Call (σ : Type) where
  ref : NodeRef
  context : Context
  before : σ
  verdict : Visit
  deriving Repr

/-- how a row of visits ended -/
inductive Ending where
  /-- every node was visited or left out -/
  | done
  /-- a visit ended the walk -/
  | stopped
  /-- a node could not be read -/
  | faulty (fault : Fault)
  deriving DecidableEq, Repr

/-- the calls of a row of visits in order, how it ended and the state it left -/
structure Outcome (σ : Type) where
  calls : List (Call σ)
  ending : Ending
  state : σ
  deriving Repr

namespace Outcome

variable {σ : Type}

/-- go on with more visits, unless these were cut short -/
def andThen (out : Outcome σ) (more : σ → Outcome σ) : Outcome σ :=
  match out.ending with
  | .done => { more out.state with calls := out.calls ++ (more out.state).calls }
  | _ => out

/-- what a walk returns: the state at the end, or the fault -/
def result (out : Outcome σ) : Except Fault σ :=
  match out.ending with
  | .faulty fault => .error fault
  | _ => .ok out.state

/-- what a walk returns that also notes its calls -/
def record {α : Type} (out : Outcome σ) (note : Call σ → α) : Except Fault (List α × σ) :=
  out.result.map fun s => (out.calls.map note, s)

end Outcome

namespace Forest

variable {σ : Type}

/-- **The recursion.** Visit the brothers one after the other, each with the nodes around it; below a node, the nodes
around it and itself are around. -/
def recurse (visit : NodeRef → Context → σ → Visit × σ) : List NodeId → Forest → σ → Outcome σ
  | _, .nil, s => ⟨[], .done, s⟩
  | _, .broken fault, s => ⟨[], .faulty fault, s⟩
  | path, .cons field index ref below next, s =>
    let context : Context := ⟨path.toArray, field, index⟩
    match visit ref context s with
    | (.stop, after) => ⟨[⟨ref, context, s, .stop⟩], .stopped, after⟩
    | (.skip, after) => Outcome.andThen ⟨[⟨ref, context, s, .skip⟩], .done, after⟩ (recurse visit path next)
    | (.descend, after) =>
      Outcome.andThen
        (Outcome.andThen ⟨[⟨ref, context, s, .descend⟩], .done, after⟩ (recurse visit (path ++ [ref.id]) below))
        (recurse visit path next)

end Forest

namespace View

variable {σ : Type}

/-! ## The loop with contexts -/

/-- what the loop does after a row of visits: go on with the rest of the stack, unless they were cut short -/
def resume (v : View) (visit : NodeRef → Context → σ → Visit × σ) (rest : List Frame) (path : Array NodeId)
    (out : Outcome σ) : Except Fault σ :=
  match out.ending with
  | .done => v.walkPathFrom visit rest path out.state
  | .stopped => .ok out.state
  | .faulty fault => .error fault

/-- the frame of a seat -/
def frame (room depth : Nat) (seat : Seat) : Frame := ⟨seat.node, room, depth, seat.field, seat.index⟩

theorem framesBelow_eq (v : View) (ref : NodeRef) (room depth : Nat) :
    v.framesBelow ref room depth = (v.seats ref).map (frame room depth) := by
  simp [framesBelow, seats, frame, Seat.ofSlot, Function.comp_def]

theorem walkPathFrom_error {v : View} {visit : NodeRef → Context → σ → Visit × σ} (top : Frame) {fault : Fault}
    (hr : v.tree.ref top.node = .error fault) (rest : List Frame) (path : Array NodeId) (s : σ) :
    v.walkPathFrom visit (top :: rest) path s = .error fault := by
  rw [walkPathFrom]
  split
  · rename_i f h; rw [hr] at h; cases h; rfl
  · rename_i ref h; rw [hr] at h; cases h

/-- one round of the loop: truncate the path, call the visitor, and either end, drop the node, or put its children on the
stack -/
theorem walkPathFrom_ok {v : View} {visit : NodeRef → Context → σ → Visit × σ} (top : Frame) {ref : NodeRef}
    (hr : v.tree.ref top.node = .ok ref) (rest : List Frame) (path : Array NodeId) (s : σ) :
    v.walkPathFrom visit (top :: rest) path s =
      match visit ref ⟨path.shrink top.depth, top.field, top.index⟩ s with
      | (.stop, after) => .ok after
      | (.skip, after) => v.walkPathFrom visit rest (path.shrink top.depth) after
      | (.descend, after) =>
        match top.room with
        | 0 => v.walkPathFrom visit rest (path.shrink top.depth) after
        | less + 1 =>
          v.walkPathFrom visit (v.framesBelow ref less ((path.shrink top.depth).push top.node).size ++ rest)
            ((path.shrink top.depth).push top.node) after := by
  rw [walkPathFrom]
  split
  · rename_i f h; rw [hr] at h; cases h
  · rename_i ref' h
    rw [hr] at h; cases h
    rfl

theorem shrink_eq_toArray {path : List NodeId} {around : Array NodeId} (h : around.toList.take path.length = path) :
    around.shrink path.length = path.toArray := by
  apply Array.toList_inj.1
  rw [Array.toList_shrink, h]

/-- going on after two rows, the second of them visited only if the first was not cut short -/
theorem resume_andThen (v : View) (visit : NodeRef → Context → σ → Visit × σ) (rest : List Frame)
    (left : Array NodeId) (out : Outcome σ) (more : σ → Outcome σ) :
    v.resume visit rest left (out.andThen more) =
      match out.ending with
      | .done => v.resume visit rest left (more out.state)
      | .stopped => .ok out.state
      | .faulty fault => .error fault := by
  cases h : out.ending <;> simp [Outcome.andThen, resume, h]

/-- if what is on the stack is a row above a rest, going on with the stack after some visits is going on with the rest after
these visits and the row -/
theorem resume_row {v : View} {visit : NodeRef → Context → σ → Visit × σ} {stack rest : List Frame} {path : List NodeId}
    {left : Array NodeId} (hleft : left.toList.take path.length = path) (out : Outcome σ) (more : σ → Outcome σ)
    (hmore : ∀ s, ∃ left' : Array NodeId, left'.toList.take path.length = path ∧
      v.walkPathFrom visit stack left s = v.resume visit rest left' (more s)) :
    ∃ left' : Array NodeId, left'.toList.take path.length = path ∧
      v.resume visit stack left out = v.resume visit rest left' (out.andThen more) := by
  cases hend : out.ending with
  | done =>
    obtain ⟨left', hl', heq⟩ := hmore out.state
    refine ⟨left', hl', ?_⟩
    rw [resume_andThen, resume, hend]
    exact heq
  | stopped => exact ⟨left, hleft, by rw [resume_andThen, resume, hend]⟩
  | faulty fault => exact ⟨left, hleft, by rw [resume_andThen, resume, hend]⟩

/-- **One row of the stack.** The loop visits a row as the recursion does and goes on with the rest of the stack. The path
may hold anything after the nodes around the row: every frame truncates it to its own depth first. -/
theorem walkPathFrom_row {v : View} {row : List Seat} {forest : Forest} (h : v.Unfolds row forest)
    (visit : NodeRef → Context → σ → Visit × σ) :
    ∀ (room : Nat) (path : List NodeId) (around : Array NodeId) (rest : List Frame) (s : σ),
      (∀ seat ∈ row, v.Fits room seat.node) → around.toList.take path.length = path →
      ∃ left : Array NodeId, left.toList.take path.length = path ∧
        v.walkPathFrom visit (row.map (frame room path.length) ++ rest) around s =
          v.resume visit rest left (forest.recurse visit path s) := by
  induction h with
  | nil => intro room path around rest s _ hpath; exact ⟨around, hpath, rfl⟩
  | @broken seat _ fault hr =>
    intro room path around rest s _ hpath
    exact ⟨around, hpath, walkPathFrom_error (frame room path.length seat) hr _ around s⟩
  | @cons seat brothers ref below next hr hbelow hnext ihbelow ihnext =>
    intro room path around rest s hfit hpath
    have hself : path.toArray.toList.take path.length = path := by simp
    have hfit' : ∀ s ∈ brothers, v.Fits room s.node := fun s hs => hfit s (List.mem_cons_of_mem _ hs)
    rw [List.map_cons, List.cons_append, walkPathFrom_ok (frame room path.length seat) hr]
    simp only [frame, Forest.recurse, shrink_eq_toArray hpath]
    cases hv : visit ref ⟨path.toArray, seat.field, seat.index⟩ s with
    | mk verdict after =>
      cases verdict with
      | stop => exact ⟨around, hpath, rfl⟩
      | skip => exact ihnext room path path.toArray rest after hfit' hself
      | descend =>
        rcases (hfit seat List.mem_cons_self).children hr with ⟨rfl, hnone⟩ | ⟨less, rfl, hchildren⟩
        · -- no room below means no children, and then the two verdicts do the same
          have hnil : v.seats ref = [] := by simp [seats, hnone]
          rw [hnil] at hbelow
          cases hbelow
          exact ihnext 0 path path.toArray rest after hfit' hself
        · have hpush : path.toArray.push seat.node = (path ++ [ref.id]).toArray := by
            rw [Tree.ref_id hr]; simp
          have hseats : ∀ s ∈ v.seats ref, v.Fits less s.node := by
            intro s hs
            obtain ⟨slot, hslot, rfl⟩ := mem_seats.1 hs
            exact hchildren slot hslot
          obtain ⟨left, hleft, heq⟩ := ihbelow less (path ++ [ref.id]) (path ++ [ref.id]).toArray
            (brothers.map (frame (less + 1) path.length) ++ rest) after hseats (by simp)
          have hleft' : left.toList.take path.length = path := by
            have := congrArg (List.take path.length) hleft
            rw [List.take_take] at this
            simpa using this
          simp only [hpush, framesBelow_eq, List.size_toArray, heq]
          obtain ⟨left', hl', heq'⟩ := resume_row hleft' (below.recurse visit (path ++ [ref.id]) after)
            (next.recurse visit path) fun s => ihnext (less + 1) path left rest s hfit' hleft'
          refine ⟨left', hl', heq'.trans ?_⟩
          rw [resume_andThen, resume_andThen]
          rfl

/-- **The walk with contexts is the recursion.** -/
theorem walkPath_eq_recurse {v : View} {root : NodeId} (h : v.Acyclic root) {forest : Forest}
    (hu : v.Unfolds [Seat.top root] forest) (visit : NodeRef → Context → σ → Visit × σ) (s : σ) :
    v.walkPath (some root) visit s = (forest.recurse visit [] s).result := by
  obtain ⟨left, -, heq⟩ := walkPathFrom_row hu visit v.tree.size [] #[] [] s (by simpa [Seat.top] using h.fits) rfl
  have hwalk : v.walkPath (some root) visit s = v.resume visit [] left (forest.recurse visit [] s) := heq
  rw [hwalk, resume, Outcome.result]
  split <;> simp [*, walkPathFrom]

/-! ## The loop without contexts -/

theorem walkFrom_error {v : View} {visit : NodeRef → σ → Visit × σ} {id : NodeId} {fault : Fault}
    (hr : v.tree.ref id = .error fault) (room : Nat) (rest : List (NodeId × Nat)) (s : σ) :
    v.walkFrom visit ((id, room) :: rest) s = .error fault := by
  rw [walkFrom]
  split
  · rename_i f h; rw [hr] at h; cases h; rfl
  · rename_i ref h; rw [hr] at h; cases h

theorem walkFrom_ok {v : View} {visit : NodeRef → σ → Visit × σ} {id : NodeId} {ref : NodeRef}
    (hr : v.tree.ref id = .ok ref) (room : Nat) (rest : List (NodeId × Nat)) (s : σ) :
    v.walkFrom visit ((id, room) :: rest) s =
      match visit ref s with
      | (.stop, after) => .ok after
      | (.skip, after) => v.walkFrom visit rest after
      | (.descend, after) =>
        match room with
        | 0 => v.walkFrom visit rest after
        | less + 1 => v.walkFrom visit ((v.childrenOf ref).map (fun c => (c.node, less)) ++ rest) after := by
  rw [walkFrom]
  split
  · rename_i f h; rw [hr] at h; cases h
  · rename_i ref' h
    rw [hr] at h; cases h
    rfl

/-- the walk without contexts makes the visits of the walk with contexts, whatever is on the path -/
theorem walkFrom_eq_walkPathFrom (v : View) (visit : NodeRef → σ → Visit × σ) (stack : List Frame)
    (path : Array NodeId) (s : σ) :
    v.walkFrom visit (stack.map fun top => (top.node, top.room)) s =
      v.walkPathFrom (fun ref _ => visit ref) stack path s := by
  fun_induction walkPathFrom v (fun ref _ => visit ref) stack path s with
  | case1 => simp [walkFrom]
  | case2 path s id room depth field index rest fault hr => rw [List.map_cons, walkFrom_error hr]
  | case3 path s id room depth field index rest ref hr path' after hv => rw [List.map_cons, walkFrom_ok hr, hv]
  | case4 path s id room depth field index rest ref hr path' after hv ih => rw [List.map_cons, walkFrom_ok hr, hv, ← ih]
  | case5 path s id depth field index rest ref hr path' after hv ih => rw [List.map_cons, walkFrom_ok hr, hv, ← ih]
  | case6 path s id depth field index rest ref hr path' after hv less _ path'' ih =>
    rw [List.map_cons, walkFrom_ok hr, hv, ← ih]
    simp [framesBelow, Function.comp_def]

theorem walk_eq_walkPath (v : View) (root : Option NodeId) (visit : NodeRef → σ → Visit × σ) (s : σ) :
    v.walk root visit s = v.walkPath root (fun ref _ => visit ref) s := by
  cases root with
  | none => rfl
  | some root => exact walkFrom_eq_walkPathFrom v visit [⟨root, v.tree.size, 0, none, none⟩] #[] s

/-! ## The loop without a bound -/

/-- the loop of a walk with no bound on its rounds: what it returns for a stack and a state, if it ends -/
inductive Loop (v : View) (visit : NodeRef → σ → Visit × σ) : List NodeId → σ → Except Fault σ → Prop
  | empty {s : σ} : Loop v visit [] s (.ok s)
  | fault {id : NodeId} {rest : List NodeId} {s : σ} {fault : Fault} (hr : v.tree.ref id = .error fault) :
    Loop v visit (id :: rest) s (.error fault)
  | stop {id : NodeId} {rest : List NodeId} {s after : σ} {ref : NodeRef} (hr : v.tree.ref id = .ok ref)
    (hv : visit ref s = (.stop, after)) : Loop v visit (id :: rest) s (.ok after)
  | skip {id : NodeId} {rest : List NodeId} {s after : σ} {ref : NodeRef} {r : Except Fault σ}
    (hr : v.tree.ref id = .ok ref) (hv : visit ref s = (.skip, after)) (hrest : Loop v visit rest after r) :
    Loop v visit (id :: rest) s r
  | descend {id : NodeId} {rest : List NodeId} {s after : σ} {ref : NodeRef} {r : Except Fault σ}
    (hr : v.tree.ref id = .ok ref) (hv : visit ref s = (.descend, after))
    (hrest : Loop v visit ((v.childrenOf ref).map ChildSlot.node ++ rest) after r) : Loop v visit (id :: rest) s r

/-- **The bound is never met.** With room for every level, the walk is the loop without a bound. -/
theorem loop_walkFrom {v : View} (visit : NodeRef → σ → Visit × σ) (stack : List (NodeId × Nat)) (s : σ)
    (h : ∀ top ∈ stack, v.Fits top.2 top.1) : v.Loop visit (stack.map Prod.fst) s (v.walkFrom visit stack s) := by
  fun_induction walkFrom v visit stack s with
  | case1 => exact .empty
  | case2 s id room rest fault hr => exact .fault hr
  | case3 s id room rest ref hr after hv => exact .stop hr hv
  | case4 s id room rest ref hr after hv ih => exact .skip hr hv (ih fun top ht => h top (List.mem_cons_of_mem _ ht))
  | case5 s id rest ref hr after hv ih =>
    rcases (h (id, 0) List.mem_cons_self).children hr with ⟨-, hnone⟩ | ⟨less, hless, -⟩
    · refine .descend hr hv ?_
      rw [hnone]
      exact ih fun top ht => h top (List.mem_cons_of_mem _ ht)
    · cases hless
  | case6 s id rest ref hr after hv less _ ih =>
    refine .descend hr hv ?_
    have hfit : ∀ top ∈ (v.childrenOf ref).map (fun c => (c.node, less)) ++ rest, v.Fits top.2 top.1 := by
      intro top ht
      rcases List.mem_append.1 ht with ht | ht
      · obtain ⟨slot, hslot, rfl⟩ := List.mem_map.1 ht
        exact h (id, less + 1) List.mem_cons_self slot.node (child_of_mem hr hslot)
      · exact h top (List.mem_cons_of_mem _ ht)
    simpa [Function.comp_def] using ih hfit

/-- a loop returns one thing only -/
theorem Loop.unique {v : View} {visit : NodeRef → σ → Visit × σ} {stack : List NodeId} {s : σ} {r : Except Fault σ}
    (h : v.Loop visit stack s r) : ∀ other, v.Loop visit stack s other → r = other := by
  induction h with
  | empty => intro other h; cases h; rfl
  | fault hr => intro other h; cases h <;> grind
  | stop hr hv => intro other h; cases h <;> grind
  | skip hr hv _ ih => intro other h; cases h <;> grind
  | descend hr hv _ ih => intro other h; cases h <;> grind

end View

end Arbor
