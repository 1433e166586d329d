/-
The sweep over arbitrary nodes and comments. Nothing is assumed about the spans here: they may overlap, repeat or be
reversed, and the open nodes need not nest.

What one part of the sweep does is said by `Emits`: it attaches the next comments, in their order, and moves past them.
Closing a node and leading up to a node emit (`takeInner_emits`, `lead_emits`), so every comment is attached once and in
order, and each attachment is as good as the test that was made for it (`Fair`).

- `attachComments_complete`: every comment is attached exactly once, in order of the starts, to a visited node; inner
  comments lie inside their nodes, leading comments end by or start before the start of theirs, and the trailing comments
  come last and are all on the last node.
-/
import Mathlib.Data.List.TakeWhile
import Arbor.Proofs.Order
import Arbor.Proofs.Visits

namespace Arbor

/-- the extent of a visited node -/
def Extent.ofRef (ref : NodeRef) : Extent := ⟨ref.id, ref.node.span⟩

namespace Sweep

variable {γ : Type}

/-! ## What the parts of a sweep emit -/

/-- the given attachments were made for the next comments, in their order -/
structure Emits (s t : Sweep γ) (made : List (Attachment γ)) : Prop where
  attached : t.attached.toList = s.attached.toList ++ made
  pending : s.pending = made.map Attachment.comment ++ t.pending

theorem Emits.refl (s : Sweep γ) : Emits s s [] := ⟨by simp, by simp⟩

theorem Emits.trans {s t u : Sweep γ} {made more : List (Attachment γ)} (h : Emits s t made) (h' : Emits t u more) :
    Emits s u (made ++ more) :=
  ⟨by rw [h'.attached, h.attached, List.append_assoc], by rw [h.pending, h'.pending, List.map_append, List.append_assoc]⟩

theorem Emits.mem_pending {s t : Sweep γ} {made : List (Attachment γ)} (h : Emits s t made) {c : γ}
    (hc : c ∈ t.pending) : c ∈ s.pending := by
  rw [h.pending]
  exact List.mem_append_right _ hc

/-- opening and closing nodes emits nothing by itself -/
theorem Emits.reopen {s t : Sweep γ} {made : List (Attachment γ)} (h : Emits s t made) (opened : List Extent) :
    Emits s { t with opened := opened } made :=
  ⟨h.attached, h.pending⟩

theorem toList_attach (out : Array (Attachment γ)) (comments : List γ) (id : NodeId) (relation : Relation) :
    (attach out comments id relation).toList = out.toList ++ comments.map fun c => ⟨c, id, relation⟩ := by
  unfold attach
  induction comments generalizing out with
  | nil => simp
  | cons c rest ih => rw [List.foldl_cons, ih]; simp

variable [HasSpan γ]

theorem takeInner_emits (s : Sweep γ) (node : Extent) :
    Emits s (s.takeInner node)
      ((s.pending.takeWhile fun c => node.span.contains (HasSpan.span c)).map fun c => ⟨c, node.id, .inner⟩) := by
  refine ⟨toList_attach _ _ _ _, ?_⟩
  rw [List.map_map]
  simp [takeInner, Function.comp_def]

/-- closing up to a range is closing the open nodes in front that do not contain it -/
theorem closeUntil_eq (range : Span) (stack : List Extent) (s : Sweep γ) :
    s.closeUntil range stack =
      { (stack.takeWhile fun node => !node.span.contains range).foldl takeInner s with
        opened := stack.dropWhile fun node => !node.span.contains range } := by
  induction stack generalizing s with
  | nil => rfl
  | cons node outer ih =>
    cases h : node.span.contains range with
    | true => simp [closeUntil, h]
    | false => simp [closeUntil, h, ih]

theorem closeAll_eq (stack : List Extent) (s : Sweep γ) :
    s.closeAll stack = { stack.foldl takeInner s with opened := [] } := by
  induction stack generalizing s with
  | nil => rfl
  | cons node outer ih => rw [closeAll, ih, List.foldl_cons]

/-- where a comment goes that is met on the way to a node: it leads the node, unless it lies across the start of the node
and inside an open node -/
def leadAt (opened : List Extent) (node : Extent) (c : γ) : Attachment γ :=
  if (HasSpan.span c).stop ≤ node.span.start then ⟨c, node.id, .leading⟩
  else
    match opened.find? fun around => around.span.contains (HasSpan.span c) with
    | some around => ⟨c, around.id, .inner⟩
    | none => ⟨c, node.id, .leading⟩

/-- a comment is met on the way to a node if it ends by the start of the node or starts before it -/
def ahead (node : Extent) (c : γ) : Bool :=
  (HasSpan.span c).stop ≤ node.span.start || (HasSpan.span c).start < node.span.start

theorem ahead_iff {node : Extent} {c : γ} : ahead node c = true ↔
    (HasSpan.span c).stop ≤ node.span.start ∨ (HasSpan.span c).start < node.span.start := by
  simp [ahead]

@[simp] theorem leadAt_comment (opened : List Extent) (node : Extent) (c : γ) : (leadAt opened node c).comment = c := by
  unfold leadAt
  repeat' split
  all_goals rfl

theorem lead_eq (node : Extent) (comments : List γ) (s : Sweep γ) :
    s.lead node comments =
      { s with
        pending := comments.dropWhile (ahead node)
        attached := s.attached ++ (comments.takeWhile (ahead node)).map (leadAt s.opened node) } := by
  induction comments generalizing s with
  | nil => simp [lead]
  | cons c rest ih =>
    by_cases hstop : (HasSpan.span c).stop ≤ node.span.start
    · simp [lead, hstop, ih, ahead, leadAt]
    · by_cases hstart : (HasSpan.span c).start < node.span.start
      · cases hf : s.opened.find? fun around => around.span.contains (HasSpan.span c) with
        | some around => simp [lead, hstop, hstart, hf, ih, ahead, leadAt]
        | none => simp [lead, hstop, hstart, hf, ih, ahead, leadAt]
      · simp [lead, hstop, hstart, ahead]

theorem lead_emits (s : Sweep γ) (node : Extent) :
    Emits s (s.lead node s.pending) ((s.pending.takeWhile (ahead node)).map (leadAt s.opened node)) := by
  rw [lead_eq]
  refine ⟨by simp, ?_⟩
  rw [List.map_map]
  simp [Function.comp_def]

/-! ## Every attachment is as good as its test -/

/-- the attachment is to one of the nodes; an inner comment lies inside it, a leading one ends by its start or starts
before it -/
structure Fair (nodes : List Extent) (a : Attachment γ) (node : Extent) : Prop where
  mem : node ∈ nodes
  id_eq : node.id = a.node
  inner : a.relation = .inner → node.span.contains (HasSpan.span a.comment) = true
  leading : a.relation = .leading → ahead node a.comment = true

/-- what has been attached so far is fair, and the open nodes are among those swept over -/
structure Sound (nodes : List Extent) (comments : List γ) (s : Sweep γ) : Prop where
  opened : ∀ node ∈ s.opened, node ∈ nodes
  emits : ∃ made, Emits ⟨comments, [], #[]⟩ s made ∧ ∀ a ∈ made, a.relation ≠ .trailing ∧ ∃ node, Fair nodes a node

theorem sound_start (nodes : List Extent) (comments : List γ) : Sound nodes comments ⟨comments, [], #[]⟩ :=
  ⟨by simp, [], Emits.refl _, by simp⟩

theorem takeInner_fair {nodes : List Extent} {node : Extent} (hn : node ∈ nodes) (comments : List γ) :
    ∀ a ∈ (comments.takeWhile fun c => node.span.contains (HasSpan.span c)).map fun c =>
        (⟨c, node.id, .inner⟩ : Attachment γ), a.relation ≠ .trailing ∧ ∃ node, Fair nodes a node := by
  intro a ha
  obtain ⟨c, hc, rfl⟩ := List.mem_map.1 ha
  have hin := List.mem_takeWhile_imp hc
  exact ⟨by simp, node, hn, rfl, fun _ => hin, by simp⟩

theorem leadAt_fair {nodes opened : List Extent} (ho : ∀ node ∈ opened, node ∈ nodes) {node : Extent} (hn : node ∈ nodes)
    {c : γ} (hc : ahead node c = true) :
    (leadAt opened node c).relation ≠ .trailing ∧ ∃ n, Fair nodes (leadAt opened node c) n := by
  unfold leadAt
  split
  · exact ⟨by simp, node, hn, rfl, by simp, fun _ => hc⟩
  · split
    · rename_i around hf
      have hin := List.find?_some hf
      exact ⟨by simp, around, ho around (List.mem_of_find?_eq_some hf), rfl, fun _ => hin, by simp⟩
    · exact ⟨by simp, node, hn, rfl, by simp, fun _ => hc⟩

/-- closing nodes one after the other keeps the attachments fair -/
theorem foldl_takeInner_sound {nodes : List Extent} {comments : List γ} (stack : List Extent) :
    ∀ s : Sweep γ, Sound nodes comments s → (∀ node ∈ stack, node ∈ nodes) →
      Sound nodes comments (stack.foldl takeInner s) := by
  induction stack with
  | nil => intro s hs _; exact hs
  | cons node outer ih =>
    intro s hs hstack
    refine ih _ ?_ fun n hn => hstack n (List.mem_cons_of_mem _ hn)
    obtain ⟨made, hmade, hfair⟩ := hs.emits
    refine ⟨hs.opened, _, hmade.trans (takeInner_emits s node), fun a ha => ?_⟩
    rcases List.mem_append.1 ha with ha | ha
    · exact hfair a ha
    · exact takeInner_fair (hstack node List.mem_cons_self) s.pending a ha

theorem Sound.reopen {nodes : List Extent} {comments : List γ} {s : Sweep γ} (hs : Sound nodes comments s)
    {opened : List Extent} (ho : ∀ node ∈ opened, node ∈ nodes) : Sound nodes comments { s with opened := opened } := by
  obtain ⟨made, hmade, hfair⟩ := hs.emits
  exact ⟨ho, made, hmade.reopen opened, hfair⟩

theorem lead_sound {nodes : List Extent} {comments : List γ} {s : Sweep γ} (hs : Sound nodes comments s)
    {node : Extent} (hn : node ∈ nodes) : Sound nodes comments (s.lead node s.pending) := by
  obtain ⟨made, hmade, hfair⟩ := hs.emits
  refine ⟨by rw [lead_eq]; exact hs.opened, _, hmade.trans (lead_emits s node), fun a ha => ?_⟩
  rcases List.mem_append.1 ha with ha | ha
  · exact hfair a ha
  · obtain ⟨c, hc, rfl⟩ := List.mem_map.1 ha
    exact leadAt_fair hs.opened hn (List.mem_takeWhile_imp hc)

theorem step_sound {nodes : List Extent} {comments : List γ} {s : Sweep γ} (hs : Sound nodes comments s)
    {node : Extent} (hn : node ∈ nodes) : Sound nodes comments (s.step node) := by
  have hclosed : Sound nodes comments (s.closeUntil node.span s.opened) := by
    rw [closeUntil_eq]
    refine (foldl_takeInner_sound _ s hs fun n h => ?_).reopen fun n h => ?_
    · exact hs.opened n ((List.takeWhile_sublist _).subset h)
    · exact hs.opened n ((List.dropWhile_sublist _).subset h)
  have hled := lead_sound hclosed hn
  refine hled.reopen fun n h => ?_
  rcases List.mem_cons.1 h with rfl | h
  · exact hn
  · exact hled.opened n h

theorem foldl_step_sound {nodes : List Extent} {comments : List γ} (rest : List Extent) :
    ∀ s : Sweep γ, Sound nodes comments s → (∀ node ∈ rest, node ∈ nodes) →
      Sound nodes comments (rest.foldl step s) := by
  induction rest with
  | nil => intro s hs _; exact hs
  | cons node rest ih =>
    intro s hs hrest
    exact ih _ (step_sound hs (hrest node List.mem_cons_self)) fun n hn => hrest n (List.mem_cons_of_mem _ hn)

/-- **The sweep is sound for any nodes and comments.** -/
theorem run_sound (comments : List γ) (nodes : List Extent) : Sound nodes comments (run comments nodes) := by
  have hs := foldl_step_sound nodes _ (sound_start nodes comments) fun n hn => hn
  unfold run
  rw [closeAll_eq]
  exact (foldl_takeInner_sound _ _ hs hs.opened).reopen (by simp)

end Sweep

/-! ## Main result -/

/-- what `attachSorted` gives for any nodes, as long as there are some -/
theorem attachSorted_complete {γ : Type} [HasSpan γ] (comments : List γ) {nodes : List Extent} {last : Extent}
    (hlast : nodes.getLast? = some last) :
    ∃ placed rest : List (Attachment γ), attachSorted comments nodes = placed ++ rest ∧
      (placed ++ rest).map Attachment.comment = comments ∧
      (∀ a ∈ placed, a.relation ≠ .trailing ∧ ∃ node, Sweep.Fair nodes a node) ∧
      ∀ a ∈ rest, a.relation = .trailing ∧ a.node = last.id := by
  obtain ⟨made, hmade, hfair⟩ := (Sweep.run_sound comments nodes).emits
  refine ⟨made, (Sweep.run comments nodes).pending.map fun c => ⟨c, last.id, .trailing⟩, ?_, ?_, hfair, ?_⟩
  · have hattached : (Sweep.run comments nodes).attached.toList = made := by simpa using hmade.attached
    simp only [attachSorted, hlast]
    rw [Sweep.toList_attach, hattached]
  · have hpending := hmade.pending
    rw [List.map_append, List.map_map]
    simpa [Function.comp_def] using hpending.symm
  · intro a ha
    obtain ⟨c, -, rfl⟩ := List.mem_map.1 ha
    exact ⟨rfl, rfl⟩

/-- the visited nodes in order of their starts, as the sweep goes over them -/
def View.sweepOrder (v : View) (root : NodeId) : List Extent := byStart ((v.unfolding root).refs.map Extent.ofRef)

theorem View.mem_sweepOrder {v : View} {root : NodeId} {node : Extent} :
    node ∈ v.sweepOrder root ↔ ∃ ref ∈ (v.unfolding root).refs, Extent.ofRef ref = node := by
  rw [sweepOrder, (byStart_inStartOrder _).mem, List.mem_map]

/-- the root is visited, so there is a last node -/
theorem exists_last {v : View} {root : NodeId} (hacyclic : v.Acyclic root) (hwhole : v.Whole root) :
    ∃ last, (v.sweepOrder root).getLast? = some last := by
  obtain ⟨ref, hr⟩ := hwhole root .refl
  have hid := Tree.ref_id hr
  have hm : ref ∈ (v.unfolding root).refs :=
    (hacyclic.unfolds.mem_refs hwhole ref).2 ⟨hid ▸ .refl, by rw [hid]; exact hr⟩
  have hsorted : Extent.ofRef ref ∈ v.sweepOrder root := View.mem_sweepOrder.2 ⟨ref, hm, rfl⟩
  exact ⟨_, List.getLast?_eq_some_getLast (List.ne_nil_of_mem hsorted)⟩

/-- below a whole acyclic root the comments are swept with the visited nodes, also if there are no comments -/
theorem attachComments_eq {γ : Type} [HasSpan γ] {v : View} {root : NodeId} (hacyclic : v.Acyclic root)
    (hwhole : v.Whole root) (comments : List γ) :
    v.attachComments (some root) comments = .ok (attachSorted (byStart comments) (v.sweepOrder root)) := by
  have hnodes := v.nodes_eq_refs hacyclic hwhole hacyclic.unfolds
  cases comments with
  | nil =>
    obtain ⟨last, hlast⟩ := exists_last hacyclic hwhole
    obtain ⟨placed, rest, hout, hcomments, -, -⟩ := attachSorted_complete (byStart ([] : List γ)) hlast
    have hnone : placed ++ rest = [] := List.map_eq_nil_iff.1 (hcomments.trans (by simp [byStart]))
    rw [hout, hnone]
    rfl
  | cons c rest =>
    simp only [View.attachComments, Option.isNone_some, List.isEmpty_cons, Bool.or_self, Bool.false_eq_true, if_false,
      hnodes]
    rfl

/-- **Every comment is attached, once and fairly.** For every tree that is acyclic below the root, whatever its spans are,
and for every list of comments, whether they overlap, repeat or are empty:
- the comments of the result are the given ones in order of their starts, equal starts in the order given;
- every comment is attached to a node that the walk visits;
- an inner comment lies inside its node, a leading one ends by or starts before the start of its node;
- the trailing comments come last, all on the last node in order of the starts. -/
theorem attachComments_complete {γ : Type} [HasSpan γ] (v : View) (root : NodeId) (comments : List γ)
    (hacyclic : v.Acyclic root) (hwhole : v.Whole root) :
    ∃ (nodes : List NodeRef) (sorted : List Extent) (placed rest : List (Attachment γ)),
      v.nodes (some root) = .ok nodes ∧ InStartOrder (nodes.map Extent.ofRef) sorted ∧
      v.attachComments (some root) comments = .ok (placed ++ rest) ∧
      InStartOrder comments ((placed ++ rest).map Attachment.comment) ∧
      (∀ a ∈ placed ++ rest, ∃ ref ∈ nodes, ref.id = a.node ∧
        (a.relation = .inner → ref.node.span.contains (HasSpan.span a.comment) = true) ∧
        (a.relation = .leading → (HasSpan.span a.comment).stop ≤ ref.node.span.start ∨
          (HasSpan.span a.comment).start < ref.node.span.start)) ∧
      (∀ a ∈ placed, a.relation ≠ .trailing) ∧
      ∀ a ∈ rest, a.relation = .trailing ∧ sorted.getLast?.map Extent.id = some a.node := by
  obtain ⟨last, hlast⟩ := exists_last hacyclic hwhole
  obtain ⟨placed, rest, hout, hcomments, hplaced, hrest⟩ := attachSorted_complete (byStart comments) hlast
  refine ⟨(v.unfolding root).refs, v.sweepOrder root, placed, rest,
    v.nodes_eq_refs hacyclic hwhole hacyclic.unfolds, byStart_inStartOrder _, ?_, ?_, ?_,
    fun a ha => (hplaced a ha).1, fun a ha => ?_⟩
  · rw [attachComments_eq hacyclic hwhole, hout]
  · rw [hcomments]; exact byStart_inStartOrder comments
  · intro a ha
    rcases List.mem_append.1 ha with ha | ha
    · obtain ⟨-, node, hfair⟩ := hplaced a ha
      obtain ⟨ref, hm, rfl⟩ := View.mem_sweepOrder.1 hfair.mem
      exact ⟨ref, hm, hfair.id_eq, hfair.inner, fun hl => Sweep.ahead_iff.1 (hfair.leading hl)⟩
    · obtain ⟨htrailing, hnode⟩ := hrest a ha
      obtain ⟨ref, hm, rfl⟩ := View.mem_sweepOrder.1 (List.mem_of_getLast? hlast)
      exact ⟨ref, hm, hnode.symm, by simp [htrailing], by simp [htrailing]⟩
  · obtain ⟨htrailing, hnode⟩ := hrest a ha
    exact ⟨htrailing, by rw [hlast, hnode]; rfl⟩

/-- spans that cross each other, a shared name, and children that do not come in order of their starts -/
def tangledView : View where
  schema := sharedView.schema
  tree := {
    names := sharedTree.names
    nodes := #[
      ⟨0, ⟨2, 6⟩, [(1, .sequence [some 1, none, some 2])], []⟩,
      ⟨0, ⟨4, 9⟩, [(3, .node 2)], []⟩,
      ⟨2, ⟨1, 5⟩, [], []⟩]
    root := some 0 }

/-- comments that overlap, one of them twice and one empty -/
def tangledComments : List Span := [⟨5, 8⟩, ⟨20, 22⟩, ⟨0, 3⟩, ⟨5, 8⟩, ⟨4, 4⟩]

theorem attachComments_complete_tangled :
    tangledView.Acyclic 0 ∧ tangledView.Whole 0 ∧
    tangledView.attachComments (some 0) tangledComments =
      .ok [⟨⟨0, 3⟩, 2, .leading⟩, ⟨⟨4, 4⟩, 2, .inner⟩, ⟨⟨5, 8⟩, 1, .inner⟩, ⟨⟨5, 8⟩, 1, .inner⟩,
        ⟨⟨20, 22⟩, 1, .trailing⟩] ∧
    InStartOrder tangledComments [⟨0, 3⟩, ⟨4, 4⟩, ⟨5, 8⟩, ⟨5, 8⟩, ⟨20, 22⟩] := by
  have hacyclic := View.acyclic_of_rising (v := tangledView) (by decide +kernel) 0
  have hwhole : tangledView.Whole 0 := View.whole_of_closed (by decide +kernel) (by decide)
  obtain ⟨nodes, sorted, placed, rest, -, -, hout, horder, -⟩ :=
    attachComments_complete tangledView 0 tangledComments hacyclic hwhole
  have hresult : tangledView.attachComments (some 0) tangledComments =
      .ok [⟨⟨0, 3⟩, 2, .leading⟩, ⟨⟨4, 4⟩, 2, .inner⟩, ⟨⟨5, 8⟩, 1, .inner⟩, ⟨⟨5, 8⟩, 1, .inner⟩,
        ⟨⟨20, 22⟩, 1, .trailing⟩] := by
    rw [attachComments_eq hacyclic hwhole]
    cbv
  refine ⟨hacyclic, hwhole, hresult, ?_⟩
  rw [hresult] at hout
  rw [← Except.ok.inj hout] at horder
  exact horder

end Arbor
