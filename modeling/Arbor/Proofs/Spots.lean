/-
The spots of a walk: each visited node with the context it is visited in, in the order of the visits. A walk that goes on
below every node folds its state along this list, and a walk that ends at the first hit folds it along the list up to the
hit. So the searches and the questions about where a node sits are questions about one list.

- `walkPath_seeking`: what such a walk returns. From it `locate_eq`, `search_eq`, `contains_eq` and `countNodes_eq`.
- `spots_cases`: a spot is that of the root, or it hangs below another spot, whose node holds it in the field and at the
  index of its context.
- `Loop.ends`: if the loop of a walk, with no bound on its rounds, comes to its end without a fault, then no node below
  the root lies below itself and every one can be read. With `loop_walkFrom` this makes `Ends` the exact condition.
-/
import Arbor.Proofs.Visits
import Arbor.View.Position

namespace Arbor

/-! ## Lists up to a hit -/

/-- the list up to the first element that satisfies `p`, this one included -/
def upTo {α : Type} (p : α → Bool) : List α → List α
  | [] => []
  | x :: rest => if p x then [x] else x :: upTo p rest

section UpTo

variable {α β : Type} {p : α → Bool}

theorem upTo_of_any {xs : List α} (h : xs.any p = true) (ys : List α) : upTo p (xs ++ ys) = upTo p xs := by
  induction xs with
  | nil => simp at h
  | cons x rest ih =>
    by_cases hx : p x = true
    · simp [upTo, hx]
    · have hrest : rest.any p = true := by simpa [hx] using h
      simp [upTo, hx, ih hrest]

theorem upTo_of_not_any {xs : List α} (h : ¬ xs.any p = true) (ys : List α) : upTo p (xs ++ ys) = xs ++ upTo p ys := by
  induction xs with
  | nil => rfl
  | cons x rest ih =>
    rw [List.any_cons, Bool.or_eq_true, not_or] at h
    simp [upTo, h.1, ih h.2]

theorem upTo_false (xs : List α) : upTo (fun _ => false) xs = xs := by
  simpa [upTo] using @upTo_of_not_any α (fun _ => false) xs (by simp) []

/-- a state that is written at a hit holds the first hit at the end -/
theorem foldl_upTo_find? (g : α → β) (xs : List α) (found : Option β) :
    (upTo p xs).foldl (fun found x => if p x then some (g x) else found) found = ((xs.find? p).map g).or found := by
  induction xs with
  | nil => rfl
  | cons x rest ih =>
    by_cases hx : p x = true
    · simp [upTo, hx]
    · simp only [upTo, hx, List.find?_cons]
      simpa [hx] using ih

end UpTo

/-! ## Spots of a forest -/

/-- a visited node and the context of the visit -/
structure Spot where
  ref : NodeRef
  context : Context
  deriving DecidableEq, Repr

namespace Forest

/-- the spots of the brothers and of all that is below them, where `path` are the nodes around the brothers -/
def spots : List NodeId → Forest → List Spot
  | _, .nil => []
  | _, .broken _ => []
  | path, .cons field index ref below next =>
    ⟨ref, ⟨path.toArray, field, index⟩⟩ :: (below.spots (path ++ [ref.id]) ++ next.spots path)

theorem map_ref_spots (forest : Forest) : ∀ path : List NodeId, (forest.spots path).map Spot.ref = forest.refs := by
  induction forest with
  | nil => intro path; rfl
  | broken fault => intro path; rfl
  | cons field index ref below next ihbelow ihnext =>
    intro path
    simp [spots, refs, ihbelow, ihnext]

end Forest

/-- a visitor that ends the walk at a hit and goes on below every other node -/
def seeking {σ : Type} (p : Spot → Bool) (f : Spot → σ → σ) : NodeRef → Context → σ → Visit × σ :=
  fun ref context s => (if p ⟨ref, context⟩ then .stop else .descend, f ⟨ref, context⟩ s)

theorem Outcome.ending_andThen {σ : Type} (out : Outcome σ) (more : σ → Outcome σ) :
    (out.andThen more).ending = if out.ending = .done then (more out.state).ending else out.ending := by
  by_cases h : out.ending = .done
  · rw [andThen_of_done h, if_pos h]
  · rw [andThen_of_not_done h, if_neg h]

theorem Outcome.state_andThen {σ : Type} (out : Outcome σ) (more : σ → Outcome σ) :
    (out.andThen more).state = if out.ending = .done then (more out.state).state else out.state := by
  by_cases h : out.ending = .done
  · rw [andThen_of_done h, if_pos h]
  · rw [andThen_of_not_done h, if_neg h]

theorem Forest.recurse_seeking {σ : Type} (p : Spot → Bool) (f : Spot → σ → σ) (forest : Forest)
    (hu : forest.Unbroken) :
    ∀ (path : List NodeId) (s : σ),
      (forest.recurse (seeking p f) path s).ending = (if (forest.spots path).any p then .stopped else .done) ∧
      (forest.recurse (seeking p f) path s).state = (upTo p (forest.spots path)).foldl (fun s x => f x s) s := by
  induction forest with
  | nil => intro path s; exact ⟨rfl, rfl⟩
  | broken fault => exact absurd hu id
  | cons field index ref below next ihbelow ihnext =>
    intro path s
    simp only [recurse, seeking, spots]
    by_cases hp : p ⟨ref, ⟨path.toArray, field, index⟩⟩ = true
    · simp [hp, upTo]
    · -- no hit here: go on below the node, and with its brothers unless there was a hit below
      obtain ⟨hend, hstate⟩ := ihbelow hu.1 (path ++ [ref.id]) (f ⟨ref, ⟨path.toArray, field, index⟩⟩ s)
      simp only [hp, Bool.false_eq_true, if_false, upTo, List.any_cons, List.any_append, Bool.false_or,
        Outcome.ending_andThen, Outcome.state_andThen, if_true, List.foldl_cons, hend, hstate]
      by_cases hbelow : (below.spots (path ++ [ref.id])).any p = true
      · simp [hbelow, upTo_of_any hbelow]
      · have hall : upTo p (below.spots (path ++ [ref.id])) = below.spots (path ++ [ref.id]) := by
          simpa [upTo] using upTo_of_not_any hbelow []
        obtain ⟨hend', hstate'⟩ := ihnext hu.2 path
          ((below.spots (path ++ [ref.id])).foldl (fun s x => f x s) (f ⟨ref, ⟨path.toArray, field, index⟩⟩ s))
        rw [upTo_of_not_any hbelow, List.foldl_append, hall, if_neg hbelow, if_pos rfl, if_pos rfl, hend', hstate']
        simp [hbelow]

namespace View

variable {v : View} {root : Option NodeId}

/-! ## Spots of a walk -/

/-- no node below the root lies below itself, and all of them can be read -/
def Ends (v : View) (root : Option NodeId) : Prop := ∀ id ∈ root, v.Acyclic id ∧ v.Whole id

theorem ends_some {top : NodeId} (hacyclic : v.Acyclic top) (hwhole : v.Whole top) : v.Ends (some top) := by
  intro id hid
  cases hid
  exact ⟨hacyclic, hwhole⟩

theorem Ends.unbroken {top : NodeId} (h : v.Ends (some top)) : (v.unfolding top).Unbroken := by
  obtain ⟨hacyclic, hwhole⟩ := h top rfl
  exact hacyclic.unfolds.unbroken (by simpa [Seat.top] using hwhole)

/-- the spots of the walk from a root -/
def spots (v : View) : Option NodeId → List Spot
  | none => []
  | some root => (v.unfolding root).spots []

/-- the first spot of a node -/
def spot? (v : View) (root : Option NodeId) (target : NodeId) : Option Spot :=
  (v.spots root).find? fun x => x.ref.id == target

/-- **A walk that seeks a hit** folds its state along the spots up to the first hit. -/
theorem walkPath_seeking {σ : Type} (h : v.Ends root) (p : Spot → Bool) (f : Spot → σ → σ) (s : σ) :
    v.walkPath root (seeking p f) s = .ok ((upTo p (v.spots root)).foldl (fun s x => f x s) s) := by
  cases root with
  | none => rfl
  | some root =>
    obtain ⟨hacyclic, hwhole⟩ := h root rfl
    have hu := hacyclic.unfolds
    obtain ⟨hend, hstate⟩ := (v.unfolding root).recurse_seeking p f (hu.unbroken (by simpa [Seat.top] using hwhole)) [] s
    rw [walkPath_eq_recurse hacyclic hu, Outcome.result, hend, hstate]
    split_ifs <;> rfl

/-- a walk that goes on below every node folds its state along all spots -/
theorem walkPath_descend {σ : Type} (h : v.Ends root) (f : Spot → σ → σ) (s : σ) :
    v.walkPath root (fun ref context s => (.descend, f ⟨ref, context⟩ s)) s =
      .ok ((v.spots root).foldl (fun s x => f x s) s) := by
  have hseek := walkPath_seeking h (fun _ => false) f s
  rw [upTo_false] at hseek
  exact hseek

theorem locate_eq (h : v.Ends root) (target : NodeId) :
    v.locate root target = .ok ((v.spot? root target).map Spot.context) := by
  have hvisit : (fun ref ctx found => if ref.id = target then (.stop, some ctx) else (.descend, found)) =
      seeking (fun x => x.ref.id == target)
        (fun x found => if x.ref.id == target then some x.context else found) := by
    funext ref ctx found
    by_cases hid : ref.id = target <;> simp [seeking, hid]
  rw [locate, hvisit, walkPath_seeking h, foldl_upTo_find?, Option.or_none]
  rfl

theorem search_eq (h : v.Ends root) (p : NodeRef → Bool) :
    v.search root p = .ok ⟨((v.spots root).find? fun x => p x.ref).map fun x => x.ref.id,
      (upTo (fun x => p x.ref) (v.spots root)).length⟩ := by
  have hvisit : (fun (ref : NodeRef) (_ : Context) (s : Search) =>
        if p ref then (Visit.stop, (⟨some ref.id, s.tried + 1⟩ : Search))
        else (.descend, { s with tried := s.tried + 1 })) =
      seeking (fun x => p x.ref)
        (fun x s => ⟨if p x.ref then some x.ref.id else s.found, s.tried + 1⟩) := by
    funext ref ctx s
    by_cases hp : p ref = true <;> simp [seeking, hp]
  have hfold : ∀ (xs : List Spot) (s : Search),
      xs.foldl (fun s x => (⟨if p x.ref then some x.ref.id else s.found, s.tried + 1⟩ : Search)) s =
        ⟨xs.foldl (fun found x => if p x.ref then some x.ref.id else found) s.found, s.tried + xs.length⟩ := by
    intro xs
    induction xs with
    | nil => intro s; rfl
    | cons x rest ih =>
      intro s
      simp only [List.foldl_cons, ih, List.length_cons]
      congr 1
      omega
  rw [search, walk_eq_walkPath, hvisit, walkPath_seeking h, hfold, foldl_upTo_find?, Option.or_none, Nat.zero_add]

theorem contains_eq (h : v.Ends root) (target : NodeId) :
    v.contains root target = .ok (v.spot? root target).isSome := by
  simp [contains, findFirst, search_eq h, spot?, bind, Except.bind, pure, Except.pure]

theorem countNodes_eq (h : v.Ends root) : v.countNodes root = .ok (v.spots root).length := by
  have hfold := walkPath_descend h (fun _ n => n + 1) 0
  rw [List.foldl_add_const, Nat.zero_add, Nat.one_mul] at hfold
  rw [countNodes, walk_eq_walkPath]
  exact hfold

/-! ## What the spots are -/

/-- the second spot is that of a child at the first one -/
def Hangs (v : View) (y x : Spot) : Prop :=
  ∃ slot ∈ v.childrenOf y.ref, x.ref.id = slot.node ∧
    x.context = ⟨y.context.ancestors.push y.ref.id, some slot.field, slot.index⟩

theorem Unfolds.spots_cases {row : List Seat} {forest : Forest} (h : v.Unfolds row forest) :
    ∀ (path : List NodeId), ∀ x ∈ forest.spots path,
      (∃ seat ∈ row, x.ref.id = seat.node ∧ x.context = ⟨path.toArray, seat.field, seat.index⟩) ∨
      ∃ y ∈ forest.spots path, v.Hangs y x := by
  induction h with
  | nil => intro path x hx; simp [Forest.spots] at hx
  | broken _ => intro path x hx; simp [Forest.spots] at hx
  | @cons seat rest ref below next hr hbelow hnext ihbelow ihnext =>
    intro path x hx
    simp only [Forest.spots, List.mem_cons, List.mem_append] at hx ⊢
    rcases hx with rfl | hx | hx
    · exact .inl ⟨seat, .inl rfl, Tree.ref_id hr, rfl⟩
    · rcases ihbelow (path ++ [ref.id]) x hx with ⟨child, hchild, hid, hctx⟩ | ⟨y, hy, hhang⟩
      · obtain ⟨slot, hslot, rfl⟩ := mem_seats.1 hchild
        exact .inr ⟨_, .inl rfl, slot, hslot, hid, by simpa [Seat.ofSlot] using hctx⟩
      · exact .inr ⟨y, .inr (.inl hy), hhang⟩
    · rcases ihnext path x hx with ⟨brother, hb, hid, hctx⟩ | ⟨y, hy, hhang⟩
      · exact .inl ⟨brother, .inr hb, hid, hctx⟩
      · exact .inr ⟨y, .inr (.inr hy), hhang⟩

/-- **A spot is that of the root, or it hangs below another one.** -/
theorem spots_cases (h : v.Ends root) {x : Spot} (hx : x ∈ v.spots root) :
    (root = some x.ref.id ∧ x.context = ⟨#[], none, none⟩) ∨ ∃ y ∈ v.spots root, v.Hangs y x := by
  cases root with
  | none => simp [spots] at hx
  | some root =>
    rcases (h root rfl).1.unfolds.spots_cases [] x hx with ⟨seat, hseat, hid, hctx⟩ | hbelow
    · rw [List.mem_singleton] at hseat
      subst hseat
      exact .inl ⟨congrArg some hid.symm, hctx⟩
    · exact .inr hbelow

theorem ref_of_spot (h : v.Ends root) {x : Spot} (hx : x ∈ v.spots root) : v.tree.ref x.ref.id = .ok x.ref := by
  cases root with
  | none => simp [spots] at hx
  | some root =>
    have hm : x.ref ∈ (v.unfolding root).refs := by
      rw [← Forest.map_ref_spots _ []]
      exact List.mem_map.2 ⟨x, hx, rfl⟩
    exact ((h root rfl).1.unfolds.reaches x.ref hm).1

theorem Unfolds.depth_le {row : List Seat} {forest : Forest} (h : v.Unfolds row forest) :
    ∀ (room : Nat) (path : List NodeId), (∀ seat ∈ row, v.Fits room seat.node) →
      ∀ x ∈ forest.spots path, x.context.depth ≤ path.length + room := by
  induction h with
  | nil => intro room path _ x hx; simp [Forest.spots] at hx
  | broken _ => intro room path _ x hx; simp [Forest.spots] at hx
  | @cons seat rest ref below next hr hbelow hnext ihbelow ihnext =>
    intro room path hfit x hx
    simp only [Forest.spots, List.mem_cons, List.mem_append] at hx
    rcases hx with rfl | hx | hx
    · simp [Context.depth]
    · rcases (hfit seat List.mem_cons_self).children hr with ⟨-, hnone⟩ | ⟨less, rfl, hchildren⟩
      · have hnil : v.seats ref = [] := by simp [seats, hnone]
        rw [hnil] at hbelow
        cases hbelow
        simp [Forest.spots] at hx
      · have hseats : ∀ s ∈ v.seats ref, v.Fits less s.node := by
          intro s hs
          obtain ⟨slot, hslot, rfl⟩ := mem_seats.1 hs
          exact hchildren slot hslot
        have hdepth := ihbelow less (path ++ [ref.id]) hseats x hx
        rw [List.length_append, List.length_singleton] at hdepth
        omega
    · exact ihnext room path (fun s hs => hfit s (List.mem_cons_of_mem _ hs)) x hx

/-- no context is longer than the arena -/
theorem depth_le_size (h : v.Ends root) {x : Spot} (hx : x ∈ v.spots root) : x.context.depth ≤ v.tree.size := by
  cases root with
  | none => simp [spots] at hx
  | some root =>
    have hacyclic := (h root rfl).1
    have hdepth := hacyclic.unfolds.depth_le v.tree.size [] (by simpa [Seat.top] using hacyclic.fits) x hx
    simpa using hdepth

/-! ## Loops that come to their end -/

theorem Unfolds.split {first rest : List Seat} {forest : Forest} (h : v.Unfolds (first ++ rest) forest)
    (hu : forest.Unbroken) :
    ∃ left right, v.Unfolds first left ∧ v.Unfolds rest right ∧ left.Unbroken ∧ right.Unbroken ∧
      forest.refs = left.refs ++ right.refs := by
  induction first generalizing forest with
  | nil => exact ⟨.nil, forest, .nil, h, trivial, hu, rfl⟩
  | cons seat more ih =>
    cases h with
    | broken _ => exact absurd hu id
    | cons hr hbelow hnext =>
      obtain ⟨left, right, hleft, hright, hl, hrt, hrefs⟩ := ih hnext hu.2
      refine ⟨_, right, .cons hr hbelow hleft, hright, ⟨hu.1, hl⟩, hrt, ?_⟩
      simp [Forest.refs, hrefs]

/-- a loop that goes on below every node and comes to its end has unfolded its stack -/
theorem Loop.unfolds {σ : Type} {f : NodeRef → σ → σ} {stack : List NodeId} {s : σ} {result : Except Fault σ}
    (h : v.Loop (fun ref s => (.descend, f ref s)) stack s result) :
    ∀ last, result = .ok last → ∀ row : List Seat, row.map Seat.node = stack →
      ∃ forest, v.Unfolds row forest ∧ forest.Unbroken ∧ last = forest.refs.foldl (fun s ref => f ref s) s := by
  induction h with
  | empty =>
    intro last hlast row hrow
    cases hlast
    rw [List.map_eq_nil_iff] at hrow
    subst hrow
    exact ⟨.nil, .nil, trivial, rfl⟩
  | fault hr => intro last hlast; cases hlast
  | stop hr hv => cases hv
  | skip hr hv _ _ => cases hv
  | @descend id rest s after ref r hr hv _ ih =>
    intro last hlast row hrow
    cases hv
    obtain ⟨seat, brothers, rfl, hseat, hbrothers⟩ := List.map_eq_cons_iff.1 hrow
    have hrow' : (v.seats ref ++ brothers).map Seat.node = (v.childrenOf ref).map ChildSlot.node ++ rest := by
      rw [List.map_append, hbrothers]
      simp [seats, Seat.ofSlot, Function.comp_def]
    obtain ⟨forest, hforest, hu, hstate⟩ := ih last hlast (v.seats ref ++ brothers) hrow'
    obtain ⟨below, next, hbelow, hnext, hb, hn, hrefs⟩ := hforest.split hu
    refine ⟨_, .cons (by rw [hseat]; exact hr) hbelow hnext, ⟨hb, hn⟩, ?_⟩
    rw [hstate, hrefs, Forest.refs, List.foldl_cons]

/-- every chain of children below an unfolded seat ends -/
theorem Unfolds.acc {row : List Seat} {forest : Forest} (h : v.Unfolds row forest) (hu : forest.Unbroken) :
    ∀ seat ∈ row, Acc (fun child parent => v.Child parent child) seat.node := by
  induction h with
  | nil => intro seat hs; simp at hs
  | broken _ => exact absurd hu id
  | @cons first rest ref below next hr _ _ ihbelow ihnext =>
    intro seat hs
    rcases List.mem_cons.1 hs with rfl | hs
    · refine .intro _ fun child hchild => ?_
      obtain ⟨s, hs, rfl⟩ := seat_of_child hr hchild
      exact ihbelow hu.1 s hs
    · exact ihnext hu.2 seat hs

theorem acyclic_of_acc {id : NodeId} (h : Acc (fun child parent => v.Child parent child) id) : v.Acyclic id := by
  induction h with
  | intro id _ ih =>
    intro n hn hloop
    rcases Relation.ReflTransGen.cases_head hn with rfl | ⟨child, hc, hreach⟩
    · -- a loop at the node itself is one at its child on the loop
      obtain ⟨child, hc, hback⟩ := Relation.TransGen.head'_iff.1 hloop
      exact ih child hc child .refl (Relation.TransGen.tail' hback hc)
    · exact ih child hc n hreach hloop

/-- **A loop that comes to its end** shows that the walk ends, and it has folded its state along the spots. -/
theorem Loop.ends {σ : Type} {f : NodeRef → σ → σ} {s last : σ}
    (h : v.Loop (fun ref s => (.descend, f ref s)) root.toList s (.ok last)) :
    v.Ends root ∧ last = (v.spots root).foldl (fun s x => f x.ref s) s := by
  cases root with
  | none =>
    refine ⟨fun id hid => by simp at hid, ?_⟩
    cases h
    rfl
  | some root =>
    obtain ⟨forest, hforest, hu, hlast⟩ := h.unfolds last rfl [Seat.top root] rfl
    have hacyclic : v.Acyclic root := acyclic_of_acc (hforest.acc hu (Seat.top root) (by simp))
    have hsame : forest = v.unfolding root := (hacyclic.unfolds_iff forest).1 hforest
    have hwhole : v.Whole root := by
      intro n hn
      obtain ⟨ref, hm, rfl⟩ := hforest.mem_of_reaches hu (Seat.top root) (by simp) n hn
      exact ⟨ref, (hforest.reaches ref hm).1⟩
    refine ⟨?_, ?_⟩
    · intro id hid
      cases hid
      exact ⟨hacyclic, hwhole⟩
    · rw [hlast, hsame, ← Forest.map_ref_spots _ [], List.foldl_map]
      rfl

/-- the loop of the walk comes to its end without a fault, and no node was visited twice -/
def VisitsOnce (v : View) (root : Option NodeId) : Prop :=
  ∃ seen, v.Loop (fun ref seen => (.descend, seen ++ [ref])) root.toList [] (.ok seen) ∧ (seen.map NodeRef.id).Nodup

theorem VisitsOnce.ends (h : v.VisitsOnce root) : v.Ends root := by
  obtain ⟨seen, hloop, -⟩ := h
  exact hloop.ends.1

theorem VisitsOnce.nodup (h : v.VisitsOnce root) : ((v.spots root).map fun x => x.ref.id).Nodup := by
  obtain ⟨seen, hloop, hnodup⟩ := h
  have hseen := hloop.ends.2
  rw [List.foldl_append_eq_append, List.nil_append, ← List.flatMap_def, ← List.map_eq_flatMap] at hseen
  rw [hseen, List.map_map] at hnodup
  exact hnodup

/-- a test: the walk below an acyclic root visits different nodes -/
theorem visitsOnce_of_nodup {id : NodeId} (hacyclic : v.Acyclic id) {seen : List NodeRef}
    (hwalk : v.walk (some id) (fun ref seen => (.descend, seen ++ [ref])) [] = .ok seen)
    (hnodup : (seen.map NodeRef.id).Nodup) : v.VisitsOnce (some id) := by
  refine ⟨seen, ?_, hnodup⟩
  rw [← hwalk]
  exact loop_walkFrom _ [(id, v.tree.size)] [] (by simpa using hacyclic.fits)

end View

end Arbor
