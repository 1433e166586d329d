/-
Where each comment goes in a nested tree. Two nodes decide: the innermost node around the comment and the first node that
starts after the start of the comment. A comment inside a node is inner to it, unless the node after the comment lies in the
same node and the comment ends by its start; then, or with nothing around it, the comment leads the node after it; with
neither it trails the last node.

The sweep has one cursor, and a node that closes takes comments only from there. The invariant (`Swept`) says that this
blocks nothing: the open nodes are the swept nodes that contain all that was swept after them, and every pending comment
starts at or after the place of the sweep. So an open node contains a pending comment as soon as it ends late enough, and
where the comments end in order, a comment that a closing node should take has none before it that the node cannot take.

- `attachSorted_eq_placed`: the sweep over nested nodes, empty ones included, is the rule, comment by comment.
- `attachComments_placement`: so it is for every nested tree, with the rule read off the tree.
-/
import Arbor.Proofs.Nesting

namespace Arbor

/-! ## The rule on a list of nodes -/

/-- the first of the nodes that start after the start of a range -/
def following (nodes : List Extent) (range : Span) : Option Extent :=
  nodes.find? fun node => range.start < node.span.start

/-- where a comment belongs, by its range alone -/
def place (nodes : List Extent) (last : Extent) (range : Span) : NodeId × Relation :=
  match enclosing nodes range, following nodes range with
  | some around, some next =>
    if around.span.contains next.span && range.stop ≤ next.span.start then (next.id, .leading) else (around.id, .inner)
  | some around, none => (around.id, .inner)
  | none, some next => (next.id, .leading)
  | none, none => (last.id, .trailing)

/-- the attachment that the rule gives for a comment -/
def placed {γ : Type} [HasSpan γ] (nodes : List Extent) (last : Extent) (c : γ) : Attachment γ :=
  ⟨c, (place nodes last (HasSpan.span c)).1, (place nodes last (HasSpan.span c)).2⟩

/-- nodes in order of their starts, each inside or after every earlier one; there may be empty nodes -/
def Nests (nodes : List Extent) : Prop :=
  nodes.Pairwise fun m n =>
    m.span.start ≤ n.span.start ∧ (m.span.contains n.span = true ∨ m.span.stop ≤ n.span.start)

/-- comments with positions of their own whose starts and ends both go up -/
structure Advancing {γ : Type} [HasSpan γ] (comments : List γ) : Prop where
  nonempty : ∀ c ∈ comments, (HasSpan.span c).start < (HasSpan.span c).stop
  starts : comments.Pairwise fun c d => (HasSpan.span c).start ≤ (HasSpan.span d).start
  stops : comments.Pairwise fun c d => (HasSpan.span c).stop ≤ (HasSpan.span d).stop

theorem Advancing.of_append {γ : Type} [HasSpan γ] {before after : List γ} (h : Advancing (before ++ after)) :
    Advancing after :=
  ⟨fun c hc => h.nonempty c (List.mem_append_right _ hc), (List.pairwise_append.1 h.starts).2.1,
    (List.pairwise_append.1 h.stops).2.1⟩

theorem Advancing.of_emits {γ : Type} [HasSpan γ] {s t : Sweep γ} {made : List (Attachment γ)}
    (h : Advancing s.pending) (ht : Sweep.Emits s t made) : Advancing t.pending := by
  rw [ht.pending] at h
  exact h.of_append

theorem Nests.of_append {before after : List Extent} (h : Nests (before ++ after)) : Nests before :=
  (List.pairwise_append.1 h).1

/-- where a test that has failed once fails from then on, dropping from the front while it holds drops all that pass it -/
theorem dropWhile_eq_filter {α : Type} {p : α → Bool} {l : List α}
    (h : l.Pairwise fun a b => p b = true → p a = true) : l.dropWhile p = l.filter fun a => !p a := by
  induction l with
  | nil => rfl
  | cons a rest ih =>
    obtain ⟨ha, hrest⟩ := List.pairwise_cons.1 h
    cases hp : p a with
    | true => simp [hp, ih hrest]
    | false =>
      have hall : rest.filter (fun b => !p b) = rest := by
        refine List.filter_eq_self.2 fun b hb => ?_
        rw [Bool.not_eq_true', Bool.eq_false_iff]
        intro hpb
        rw [ha b hb hpb] at hp
        cases hp
      simp [hp, hall]

/-- a search does not miss what a filter leaves out, if the filter keeps all that is searched for -/
theorem find?_filter_of_imp {α : Type} {p q : α → Bool} {l : List α} (h : ∀ a ∈ l, p a = true → q a = true) :
    (l.filter q).find? p = l.find? p := by
  induction l with
  | nil => rfl
  | cons a rest ih =>
    have ih := ih fun b hb => h b (List.mem_cons_of_mem _ hb)
    cases hp : p a with
    | true => simp [h a List.mem_cons_self hp, hp]
    | false => cases hq : q a <;> simp [hq, hp, ih]

/-! ## Open nodes -/

/-- the swept nodes that contain every node swept after them, the innermost first -/
def stillOpen (done : List Extent) : List Extent :=
  done.foldl (fun opened node => node :: opened.filter fun m => m.span.contains node.span) []

/-- one more node: it is open, and of the others those that contain it -/
theorem stillOpen_snoc (done : List Extent) (node : Extent) :
    stillOpen (done ++ [node]) = node :: (stillOpen done).filter fun m => m.span.contains node.span := by
  simp [stillOpen, List.foldl_append]

theorem mem_of_mem_stillOpen {done : List Extent} {m : Extent} (h : m ∈ stillOpen done) : m ∈ done := by
  induction done using List.reverseRecOn with
  | nil => simp [stillOpen] at h
  | append_singleton done node ih =>
    rw [stillOpen_snoc, List.mem_cons] at h
    rcases h with rfl | h
    · simp
    · exact List.mem_append_left _ (ih (List.mem_of_mem_filter h))

/-- the open nodes lie in each other, whatever was swept -/
theorem stillOpen_contains (done : List Extent) :
    (stillOpen done).Pairwise fun inner outer => outer.span.contains inner.span = true := by
  induction done using List.reverseRecOn with
  | nil => exact .nil
  | append_singleton done node ih =>
    rw [stillOpen_snoc]
    exact List.pairwise_cons.2 ⟨fun m hm => (List.mem_filter.1 hm).2, ih.sublist List.filter_sublist⟩

/-- the last swept node around a range is the innermost open one, if the range starts at or after all that was swept -/
theorem find?_stillOpen {done : List Extent} (h : Nests done) {range : Span} (hrange : range.start < range.stop)
    (hdone : ∀ node ∈ done, node.span.start ≤ range.start) :
    (stillOpen done).find? (fun m => m.span.contains range) = done.reverse.find? fun m => m.span.contains range := by
  induction done using List.reverseRecOn with
  | nil => rfl
  | append_singleton done node ih =>
    have hstart := hdone node (by simp)
    have ih := ih h.of_append fun n hn => hdone n (List.mem_append_left _ hn)
    have hopen : ∀ m ∈ stillOpen done, m.span.contains range = true → m.span.contains node.span = true := by
      intro m hm hin
      rcases ((List.pairwise_append.1 h).2.2 m (mem_of_mem_stillOpen hm) node (by simp)).2 with hcontains | hended
      · exact hcontains
      · have := (Span.contains_iff.1 hin).2
        omega
    rw [stillOpen_snoc, List.reverse_append, List.reverse_singleton, List.singleton_append, List.find?_cons,
      List.find?_cons, find?_filter_of_imp hopen, ih]

/-- the open nodes that close before the next node -/
def closing (done : List Extent) (node : Extent) : List Extent :=
  (stillOpen done).takeWhile fun m => !m.span.contains node.span

/-- the open nodes that stay open at the next node -/
def kept (done : List Extent) (node : Extent) : List Extent :=
  (stillOpen done).dropWhile fun m => !m.span.contains node.span

theorem closing_append_kept (done : List Extent) (node : Extent) : closing done node ++ kept done node = stillOpen done :=
  List.takeWhile_append_dropWhile

/-- closing stops at the first node that contains the next one, and all the nodes around that one contain it too -/
theorem kept_eq_filter (done : List Extent) (node : Extent) :
    kept done node = (stillOpen done).filter fun m => m.span.contains node.span := by
  have hmono : (stillOpen done).Pairwise fun inner outer =>
      (!outer.span.contains node.span) = true → (!inner.span.contains node.span) = true := by
    refine (stillOpen_contains done).imp fun {inner outer} hcontains hnot => ?_
    rw [Bool.not_eq_true', Bool.eq_false_iff] at hnot ⊢
    exact fun hin => hnot (Span.contains_trans hcontains hin)
  simpa [kept] using dropWhile_eq_filter hmono

theorem mem_closing {done rest : List Extent} {node : Extent} (h : Nests (done ++ node :: rest)) {m : Extent}
    (hm : m ∈ closing done node) :
    m ∈ done ∧ m.span.contains node.span = false ∧ m.span.stop ≤ node.span.start := by
  have hdone := mem_of_mem_stillOpen ((List.takeWhile_sublist _).subset hm)
  have hnot : m.span.contains node.span = false := by simpa using List.mem_takeWhile_imp hm
  refine ⟨hdone, hnot, ?_⟩
  rcases ((List.pairwise_append.1 h).2.2 m hdone node (by simp)).2 with hcontains | hended
  · rw [hnot] at hcontains
    cases hcontains
  · exact hended

/-! ## What the rule sees at the place of the sweep -/

/-- the sweep has come to a range: the swept nodes start by its start and the others after it -/
structure At (done rest : List Extent) (range : Span) : Prop where
  nonempty : range.start < range.stop
  before : ∀ node ∈ done, node.span.start ≤ range.start
  after : ∀ node ∈ rest, range.start < node.span.start

theorem At.enclosing_eq {done rest : List Extent} {range : Span} (hn : Nests (done ++ rest)) (h : At done rest range) :
    enclosing (done ++ rest) range = (stillOpen done).find? fun node => node.span.contains range := by
  have hrest : rest.reverse.find? (fun node => node.span.contains range) = none := by
    refine List.find?_eq_none.2 fun node hm hcontains => ?_
    have h1 := h.after node (List.mem_reverse.1 hm)
    have h2 := (Span.contains_iff.1 hcontains).1
    omega
  rw [enclosing, List.reverse_append, List.find?_append, hrest, Option.none_or,
    find?_stillOpen hn.of_append h.nonempty h.before]

theorem At.following_eq {done rest : List Extent} {range : Span} (h : At done rest range) :
    following (done ++ rest) range = rest.head? := by
  have hdone : done.find? (fun node => range.start < node.span.start) = none := by
    refine List.find?_eq_none.2 fun node hn => ?_
    have := h.before node hn
    simp; omega
  rw [following, List.find?_append, hdone, Option.none_or]
  cases rest with
  | nil => rfl
  | cons node rest => simp [h.after node (by simp)]

/-! ## Closing -/

namespace Sweep

variable {γ : Type} [HasSpan γ]

/-- the comments end in order, so what a node leaves over when it closes does not lie in it -/
theorem takeInner_pending {s : Sweep γ} (hadv : Advancing s.pending) {node : Extent}
    (hstart : ∀ c ∈ s.pending, node.span.start ≤ (HasSpan.span c).start) {c : γ}
    (hm : c ∈ (s.takeInner node).pending) : c ∈ s.pending ∧ node.span.contains (HasSpan.span c) = false := by
  have hmono : s.pending.Pairwise fun c d =>
      node.span.contains (HasSpan.span d) = true → node.span.contains (HasSpan.span c) = true := by
    refine List.Pairwise.imp_of_mem (fun {c d} hc _ hstop hin => ?_) hadv.stops
    exact Span.contains_iff.2 ⟨hstart c hc, Nat.le_trans hstop (Span.contains_iff.1 hin).2⟩
  simpa [takeInner, dropWhile_eq_filter hmono] using hm

/-- **No comment blocks the cursor.** When nodes close that start by the start of every pending comment, each comment that
lies in one of them is taken, by the first one that contains it. -/
theorem foldl_takeInner_placed (target : γ → Attachment γ) (closing : List Extent) :
    ∀ s : Sweep γ, Advancing s.pending →
      (∀ node ∈ closing, ∀ c ∈ s.pending, node.span.start ≤ (HasSpan.span c).start) →
      (∀ c ∈ s.pending, ∀ node, (closing.find? fun n => n.span.contains (HasSpan.span c)) = some node →
        target c = ⟨c, node.id, .inner⟩) →
      ∃ made, Emits s (closing.foldl takeInner s) made ∧ (∀ a ∈ made, a = target a.comment) ∧
        ∀ c ∈ (closing.foldl takeInner s).pending, ∀ node ∈ closing,
          node.span.contains (HasSpan.span c) = false := by
  induction closing with
  | nil => intro s _ _ _; exact ⟨[], Emits.refl s, by simp, by simp⟩
  | cons node outer ih =>
    intro s hadv hstart htarget
    have htake := takeInner_emits s node
    have hleft : ∀ c ∈ (s.takeInner node).pending,
        c ∈ s.pending ∧ node.span.contains (HasSpan.span c) = false :=
      fun c hc => takeInner_pending hadv (hstart node List.mem_cons_self) hc
    obtain ⟨made, hmade, hright, hnone⟩ := ih (s.takeInner node) (hadv.of_emits htake)
      (fun n hn c hc => hstart n (List.mem_cons_of_mem _ hn) c (hleft c hc).1)
      (fun c hc n hfind => htarget c (hleft c hc).1 n (by rw [List.find?_cons, (hleft c hc).2]; exact hfind))
    refine ⟨_, htake.trans hmade, fun a ha => ?_, fun c hc n hn => ?_⟩
    · rcases List.mem_append.1 ha with ha | ha
      · obtain ⟨c, hc, rfl⟩ := List.mem_map.1 ha
        have hin := List.mem_takeWhile_imp hc
        exact (htarget c ((List.takeWhile_sublist _).subset hc) node (by simp [hin])).symm
      · exact hright a ha
    · rcases List.mem_cons.1 hn with rfl | hn
      · exact (hleft c (hmade.mem_pending hc)).2
      · exact hnone c hc n hn

/-! ## One step of the sweep -/

/-- what has been attached after some of the nodes is right, every pending comment starts at or after each of these nodes,
and the open nodes are those of them that contain all that came after them -/
structure Swept (nodes done : List Extent) (last : Extent) (comments : List γ) (s : Sweep γ) : Prop where
  emits : ∃ made, Emits ⟨comments, [], #[]⟩ s made ∧ ∀ a ∈ made, a = placed nodes last a.comment
  later : ∀ c ∈ s.pending, ∀ node ∈ done, node.span.start ≤ (HasSpan.span c).start
  opened : s.opened = stillOpen done

theorem Swept.advancing {nodes done : List Extent} {last : Extent} {comments : List γ} {s : Sweep γ}
    (h : Swept nodes done last comments s) (hc : Advancing comments) : Advancing s.pending := by
  obtain ⟨made, hmade, -⟩ := h.emits
  exact Advancing.of_emits (s := ⟨comments, [], #[]⟩) hc hmade

theorem swept_start (nodes : List Extent) (last : Extent) (comments : List γ) :
    Swept nodes [] last comments ⟨comments, [], #[]⟩ :=
  ⟨⟨[], Emits.refl _, by simp⟩, by simp, rfl⟩

/-- a pending comment that starts before the next node is at the place of the sweep -/
theorem Swept.at_next {done rest : List Extent} {node last : Extent} {comments : List γ} {s : Sweep γ}
    (hn : Nests (done ++ node :: rest)) (hc : Advancing comments)
    (h : Swept (done ++ node :: rest) done last comments s) {c : γ} (hm : c ∈ s.pending)
    (hlt : (HasSpan.span c).start < node.span.start) : At done (node :: rest) (HasSpan.span c) := by
  refine ⟨(h.advancing hc).nonempty c hm, h.later c hm, fun n hn' => ?_⟩
  rcases List.mem_cons.1 hn' with rfl | hn'
  · exact hlt
  · have := ((List.pairwise_cons.1 (List.pairwise_append.1 hn).2.1).1 n hn').1
    omega

/-- a comment whose innermost open node closes at the next node belongs inside it -/
theorem Swept.placed_closing {done rest : List Extent} {node last : Extent} {comments : List γ} {s : Sweep γ}
    (hn : Nests (done ++ node :: rest)) (hc : Advancing comments)
    (h : Swept (done ++ node :: rest) done last comments s) {c : γ} (hm : c ∈ s.pending) {m : Extent}
    (hfind : (closing done node).find? (fun m => m.span.contains (HasSpan.span c)) = some m) :
    placed (done ++ node :: rest) last c = ⟨c, m.id, .inner⟩ := by
  obtain ⟨hdone, hnot, hended⟩ := mem_closing hn (List.mem_of_find?_eq_some hfind)
  have hin : m.span.contains (HasSpan.span c) = true := by simpa using List.find?_some hfind
  have hlt : (HasSpan.span c).start < node.span.start := by
    have hstop := (Span.contains_iff.1 hin).2
    have hpos := (h.advancing hc).nonempty c hm
    omega
  have hat := h.at_next hn hc hm hlt
  have henclosing : enclosing (done ++ node :: rest) (HasSpan.span c) = some m := by
    rw [hat.enclosing_eq hn, ← closing_append_kept done node, List.find?_append, hfind, Option.some_or]
  simp [placed, place, henclosing, hat.following_eq, hnot]

/-- a comment on the way to the next node that lies in none of the closing nodes belongs where `leadAt` puts it -/
theorem Swept.placed_lead {done rest : List Extent} {node last : Extent} {comments : List γ} {s : Sweep γ}
    (hn : Nests (done ++ node :: rest)) (hc : Advancing comments)
    (h : Swept (done ++ node :: rest) done last comments s) {c : γ} (hm : c ∈ s.pending)
    (hlt : (HasSpan.span c).start < node.span.start)
    (hclosing : ∀ m ∈ closing done node, m.span.contains (HasSpan.span c) = false) :
    leadAt (kept done node) node c = placed (done ++ node :: rest) last c := by
  have hat := h.at_next hn hc hm hlt
  have hnone : (closing done node).find? (fun m => m.span.contains (HasSpan.span c)) = none :=
    List.find?_eq_none.2 fun m hm => by simp [hclosing m hm]
  have henclosing : enclosing (done ++ node :: rest) (HasSpan.span c) =
      (kept done node).find? fun m => m.span.contains (HasSpan.span c) := by
    rw [hat.enclosing_eq hn, ← closing_append_kept done node, List.find?_append, hnone, Option.none_or]
  cases hfind : (kept done node).find? fun m => m.span.contains (HasSpan.span c) with
  | none => simp [leadAt, placed, place, henclosing, hat.following_eq, hfind]
  | some around =>
    have haround : around.span.contains node.span = true := by
      have hmem := List.mem_of_find?_eq_some hfind
      rw [kept_eq_filter] at hmem
      exact (List.mem_filter.1 hmem).2
    by_cases hstop : (HasSpan.span c).stop ≤ node.span.start
    · simp [leadAt, placed, place, henclosing, hat.following_eq, hfind, haround, hstop]
    · simp [leadAt, placed, place, henclosing, hat.following_eq, hfind, hstop]

/-- closing up to the next node takes exactly the comments that belong inside a closing node -/
theorem Swept.close {done rest : List Extent} {node last : Extent} {comments : List γ} {s : Sweep γ}
    (hn : Nests (done ++ node :: rest)) (hc : Advancing comments)
    (h : Swept (done ++ node :: rest) done last comments s) :
    ∃ made, Emits s (s.closeUntil node.span s.opened) made ∧
      (∀ a ∈ made, a = placed (done ++ node :: rest) last a.comment) ∧
      (s.closeUntil node.span s.opened).opened = kept done node ∧
      ∀ c ∈ (s.closeUntil node.span s.opened).pending, ∀ m ∈ closing done node,
        m.span.contains (HasSpan.span c) = false := by
  obtain ⟨made, hmade, hright, hout⟩ := foldl_takeInner_placed (placed (done ++ node :: rest) last)
    (closing done node) s (h.advancing hc) (fun m hm c hcm => h.later c hcm m (mem_closing hn hm).1)
    (fun c hcm m hfind => h.placed_closing hn hc hcm hfind)
  rw [closeUntil_eq, h.opened]
  exact ⟨made, hmade.reopen _, hright, rfl, hout⟩

theorem ahead_iff_start {node : Extent} {c : γ} (hc : (HasSpan.span c).start < (HasSpan.span c).stop) :
    ahead node c = true ↔ (HasSpan.span c).start < node.span.start := by
  rw [ahead_iff]
  omega

/-- the comments start in order, so those that are left after leading up to a node start at or after it -/
theorem lead_pending {s : Sweep γ} (hadv : Advancing s.pending) {node : Extent} {c : γ}
    (hm : c ∈ (s.lead node s.pending).pending) : c ∈ s.pending ∧ node.span.start ≤ (HasSpan.span c).start := by
  have hmono : s.pending.Pairwise fun c d => ahead node d = true → ahead node c = true := by
    refine List.Pairwise.imp_of_mem (fun {c d} hc hd hstart hahead => ?_) hadv.starts
    rw [ahead_iff_start (hadv.nonempty d hd)] at hahead
    rw [ahead_iff_start (hadv.nonempty c hc)]
    omega
  rw [lead_eq] at hm
  simp only [dropWhile_eq_filter hmono, List.mem_filter, Bool.not_eq_true', Bool.eq_false_iff, ne_eq] at hm
  rw [ahead_iff_start (hadv.nonempty c hm.1)] at hm
  exact ⟨hm.1, Nat.le_of_not_lt hm.2⟩

/-- **One step.** Closing takes what belongs inside a closing node; what is then met on the way to the next node belongs
where it is put; and what is left starts at or after that node. -/
theorem step_swept {done rest : List Extent} {node last : Extent} {comments : List γ} {s : Sweep γ}
    (hn : Nests (done ++ node :: rest)) (hc : Advancing comments)
    (h : Swept (done ++ node :: rest) done last comments s) :
    Swept (done ++ node :: rest) (done ++ [node]) last comments (s.step node) := by
  obtain ⟨made, hmade, hright⟩ := h.emits
  obtain ⟨taken, htaken, htright, hopened, hout⟩ := h.close hn hc
  unfold step
  generalize s.closeUntil node.span s.opened = t at htaken hopened hout ⊢
  have hadv : Advancing t.pending := (h.advancing hc).of_emits htaken
  have hled : ∀ a ∈ (t.pending.takeWhile (ahead node)).map (leadAt t.opened node),
      a = placed (done ++ node :: rest) last a.comment := by
    intro a ha
    obtain ⟨c, hcm, rfl⟩ := List.mem_map.1 ha
    have hct := (List.takeWhile_sublist _).subset hcm
    have hlt := (ahead_iff_start (hadv.nonempty c hct)).1 (List.mem_takeWhile_imp hcm)
    rw [leadAt_comment, hopened]
    exact h.placed_lead hn hc (htaken.mem_pending hct) hlt (hout c hct)
  refine ⟨⟨_, ((hmade.trans htaken).trans (lead_emits t node)).reopen _, fun a ha => ?_⟩, fun c hcm n hnm => ?_, ?_⟩
  · rcases List.mem_append.1 ha with ha | ha
    · rcases List.mem_append.1 ha with ha | ha
      · exact hright a ha
      · exact htright a ha
    · exact hled a ha
  · obtain ⟨hct, hstart⟩ := lead_pending hadv hcm
    rcases List.mem_append.1 hnm with hnm | hnm
    · exact h.later c (htaken.mem_pending hct) n hnm
    · rw [List.mem_singleton] at hnm
      subst hnm
      exact hstart
  · have hlead : (t.lead node t.pending).opened = t.opened := by rw [lead_eq]
    rw [stillOpen_snoc, ← kept_eq_filter, ← hopened]
    exact congrArg (node :: ·) hlead

/-! ## The whole sweep -/

theorem foldl_step_swept {last : Extent} {comments : List γ} (hc : Advancing comments) (rest : List Extent) :
    ∀ (done : List Extent) (s : Sweep γ), Nests (done ++ rest) → Swept (done ++ rest) done last comments s →
      Swept (done ++ rest) (done ++ rest) last comments (rest.foldl step s) := by
  induction rest with
  | nil => intro done s _ h; simpa using h
  | cons node rest ih =>
    intro done s hn h
    have hstep := step_swept hn hc h
    rw [show done ++ node :: rest = (done ++ [node]) ++ rest by simp] at hn hstep ⊢
    exact ih (done ++ [node]) (s.step node) hn hstep

/-- after the last node every pending comment is past all of them -/
theorem Swept.at_end {nodes : List Extent} {last : Extent} {comments : List γ} {s : Sweep γ} (hn : Nests nodes)
    (hc : Advancing comments) (h : Swept nodes nodes last comments s) {c : γ} (hm : c ∈ s.pending) :
    enclosing nodes (HasSpan.span c) = (stillOpen nodes).find? (fun m => m.span.contains (HasSpan.span c)) ∧
      following nodes (HasSpan.span c) = none := by
  have hat : At nodes [] (HasSpan.span c) := ⟨(h.advancing hc).nonempty c hm, h.later c hm, by simp⟩
  have henclosing := hat.enclosing_eq (by rwa [List.append_nil])
  have hfollowing := hat.following_eq
  rw [List.append_nil] at henclosing hfollowing
  exact ⟨henclosing, hfollowing⟩

/-- **The whole sweep.** What it attaches is right, and what it leaves over lies in no node and has no node after it. -/
theorem run_placed {nodes : List Extent} (last : Extent) {comments : List γ} (hn : Nests nodes)
    (hc : Advancing comments) :
    ∃ made, Emits ⟨comments, [], #[]⟩ (run comments nodes) made ∧ (∀ a ∈ made, a = placed nodes last a.comment) ∧
      ∀ c ∈ (run comments nodes).pending,
        enclosing nodes (HasSpan.span c) = none ∧ following nodes (HasSpan.span c) = none := by
  have hswept : Swept nodes nodes last comments (nodes.foldl step ⟨comments, [], #[]⟩) :=
    foldl_step_swept hc nodes [] _ hn (swept_start nodes last comments)
  unfold run
  rw [closeAll_eq, hswept.opened]
  generalize nodes.foldl step ⟨comments, [], #[]⟩ = s at hswept ⊢
  obtain ⟨made, hmade, hright⟩ := hswept.emits
  obtain ⟨taken, htaken, htright, hout⟩ := foldl_takeInner_placed (placed nodes last) (stillOpen nodes) s
    (hswept.advancing hc) (fun m hm c hcm => hswept.later c hcm m (mem_of_mem_stillOpen hm))
    (fun c hcm m hfind => by simp [placed, place, hswept.at_end hn hc hcm, hfind])
  refine ⟨made ++ taken, (hmade.trans htaken).reopen _, fun a ha => ?_, fun c hcm => ?_⟩
  · rcases List.mem_append.1 ha with ha | ha
    · exact hright a ha
    · exact htright a ha
  · obtain ⟨henclosing, hfollowing⟩ := hswept.at_end hn hc (htaken.mem_pending hcm)
    refine ⟨henclosing.trans (List.find?_eq_none.2 fun m hm => ?_), hfollowing⟩
    simp [hout c hcm m hm]

end Sweep

/-- **The sweep follows the rule.** For nested nodes and advancing comments, every comment goes where the rule puts it,
whatever the other comments are. -/
theorem attachSorted_eq_placed {γ : Type} [HasSpan γ] {nodes : List Extent} {last : Extent} {comments : List γ}
    (hn : Nests nodes) (hlast : nodes.getLast? = some last) (hc : Advancing comments) :
    attachSorted comments nodes = comments.map (placed nodes last) := by
  obtain ⟨made, hmade, hright, hleft⟩ := Sweep.run_placed last hn hc
  have hattached : (Sweep.run comments nodes).attached.toList = made := by simpa using hmade.attached
  have hsplit : comments = made.map Attachment.comment ++ (Sweep.run comments nodes).pending := hmade.pending
  have hmap : (made.map Attachment.comment).map (placed nodes last) = made := by
    rw [List.map_map]
    exact (List.map_congr_left fun a ha => (hright a ha).symm).trans (List.map_id made)
  have htrail : ∀ c ∈ (Sweep.run comments nodes).pending,
      (⟨c, last.id, .trailing⟩ : Attachment γ) = placed nodes last c := by
    intro c hcm
    simp [placed, place, hleft c hcm]
  calc attachSorted comments nodes
      = made ++ (Sweep.run comments nodes).pending.map fun c => ⟨c, last.id, .trailing⟩ := by
        simp only [attachSorted, hlast]
        rw [Sweep.toList_attach, hattached]
    _ = (made.map Attachment.comment).map (placed nodes last) ++
          (Sweep.run comments nodes).pending.map (placed nodes last) := by
        rw [hmap, List.map_congr_left htrail]
    _ = comments.map (placed nodes last) := by rw [← List.map_append, ← hsplit]

/-! ## Main result -/

namespace View

/-- where a comment belongs, read off the tree; `nodes` are its nodes in order of their starts -/
inductive Belongs (v : View) (root : NodeId) (nodes : List Extent) (range : Span) : NodeId → Relation → Prop
  | inner {around : NodeRef} :
      v.Innermost root range around →
      (∀ next, following nodes range = some next →
        around.node.span.contains next.span = false ∨ next.span.start < range.stop) →
      Belongs v root nodes range around.id .inner
  | between {around : NodeRef} {next : Extent} :
      v.Innermost root range around → following nodes range = some next →
      around.node.span.contains next.span = true → range.stop ≤ next.span.start →
      Belongs v root nodes range next.id .leading
  | before {next : Extent} :
      (∀ ref, v.Visible root ref → ref.node.span.contains range = false) → following nodes range = some next →
      Belongs v root nodes range next.id .leading
  | after {last : Extent} :
      (∀ ref, v.Visible root ref → ref.node.span.contains range = false) → following nodes range = none →
      nodes.getLast? = some last →
      Belongs v root nodes range last.id .trailing

theorem Parted.nests {v : View} {root : NodeId} (hn : v.Parted root) (hacyclic : v.Acyclic root)
    (hwhole : v.Whole root) : Nests (v.sweepOrder root) := by
  refine List.Pairwise.imp_of_mem (fun {m n} hm hn' h => ⟨h.1, ?_⟩) (hn.sorted hacyclic hwhole)
  obtain ⟨a, ha, rfl⟩ := (mem_sweepOrder_iff hacyclic hwhole).1 hm
  obtain ⟨b, hb, rfl⟩ := (mem_sweepOrder_iff hacyclic hwhole).1 hn'
  rcases h.2 with hr | hapart
  · exact .inl (hn.contains_of_reaches ha hr b hb.2)
  · -- where the second ends by the start of the first one, it lies in it, unless the first has ended
    rw [Span.overlaps_eq_false_iff] at hapart
    rw [Span.contains_iff]
    have hstart := h.1
    omega

theorem Nested.nests {v : View} {root : NodeId} (hn : v.Nested root) (hacyclic : v.Acyclic root)
    (hwhole : v.Whole root) : Nests (v.sweepOrder root) :=
  hn.parted.nests hacyclic hwhole

/-- what the tree says, the list of its nodes says -/
theorem Belongs.place_eq {v : View} {root : NodeId} (hn : v.Nested root) (hacyclic : v.Acyclic root)
    (hwhole : v.Whole root) {last : Extent} (hlast : (v.sweepOrder root).getLast? = some last) {range : Span}
    (hrange : range.start < range.stop) {id : NodeId} {relation : Relation}
    (h : v.Belongs root (v.sweepOrder root) range id relation) :
    place (v.sweepOrder root) last range = (id, relation) := by
  cases h with
  | @inner around hin hnext =>
    have haround := hin.enclosing_eq hn.parted hacyclic hwhole hrange
    cases hf : following (v.sweepOrder root) range with
    | none => simp [place, haround, hf, Extent.ofRef]
    | some next =>
      rcases hnext next hf with hnot | hlt
      · simp [place, haround, hf, Extent.ofRef, hnot]
      · simp [place, haround, hf, Extent.ofRef, hlt]
  | between hin hf hcontains hstop =>
    have haround := hin.enclosing_eq hn.parted hacyclic hwhole hrange
    simp [place, haround, hf, Extent.ofRef, hcontains, hstop]
  | before hnone hf =>
    rw [← enclosing_eq_none_iff hacyclic hwhole] at hnone
    simp [place, hnone, hf]
  | after hnone hf hl =>
    rw [← enclosing_eq_none_iff hacyclic hwhole] at hnone
    rw [hlast] at hl
    cases hl
    simp [place, hnone, hf]

/-- what the list of the nodes says, the tree says -/
theorem Nested.belongs_place {v : View} {root : NodeId} (hn : v.Nested root) (hacyclic : v.Acyclic root)
    (hwhole : v.Whole root) {last : Extent} (hlast : (v.sweepOrder root).getLast? = some last) {range : Span}
    (hrange : range.start < range.stop) :
    v.Belongs root (v.sweepOrder root) range (place (v.sweepOrder root) last range).1
      (place (v.sweepOrder root) last range).2 := by
  cases he : enclosing (v.sweepOrder root) range with
  | some node =>
    obtain ⟨around, hin, rfl⟩ := hn.parted.innermost_enclosing hacyclic hwhole hrange he
    cases hf : following (v.sweepOrder root) range with
    | some next =>
      by_cases hbetween : (around.node.span.contains next.span && decide (range.stop ≤ next.span.start)) = true
      · simp only [place, he, hf, Extent.ofRef, hbetween, if_true]
        rw [Bool.and_eq_true, decide_eq_true_eq] at hbetween
        exact .between hin hf hbetween.1 hbetween.2
      · simp only [place, he, hf, Extent.ofRef, hbetween]
        refine .inner hin fun other hother => ?_
        rw [hf] at hother
        cases hother
        simpa [Decidable.imp_iff_not_or] using hbetween
    | none =>
      simp only [place, he, hf, Extent.ofRef]
      exact .inner hin (by simp [hf])
  | none =>
    have hnone := (enclosing_eq_none_iff hacyclic hwhole).1 he
    cases hf : following (v.sweepOrder root) range with
    | some next =>
      simp only [place, he, hf]
      exact .before hnone hf
    | none =>
      simp only [place, he, hf]
      exact .after hnone hf hlast

end View

/-- **Where every comment goes.** In a nested tree there is one place for every range that is not empty, read off the
tree: inside the innermost node around it, unless the next node to start lies in that node too and not before the end of
the range; else in front of the next node to start; else behind the last node. For every list of comments that are not
empty and whose ends go up in order of the starts, each comment goes to the place of its range, whatever the others are. -/
theorem attachComments_placement (v : View) (root : NodeId) (hacyclic : v.Acyclic root) (hwhole : v.Whole root)
    (hnested : v.Nested root) :
    ∃ (nodes : List NodeRef) (sorted : List Extent) (target : Span → NodeId × Relation),
      v.nodes (some root) = .ok nodes ∧ InStartOrder (nodes.map Extent.ofRef) sorted ∧
      (∀ range : Span, range.start < range.stop → ∀ id relation,
        v.Belongs root sorted range id relation ↔ target range = (id, relation)) ∧
      ∀ (γ : Type) [HasSpan γ] (comments ordered : List γ), InStartOrder comments ordered →
        (∀ c ∈ comments, (HasSpan.span c).start < (HasSpan.span c).stop) →
        ordered.Pairwise (fun c d => (HasSpan.span c).stop ≤ (HasSpan.span d).stop) →
        v.attachComments (some root) comments =
          .ok (ordered.map fun c => ⟨c, (target (HasSpan.span c)).1, (target (HasSpan.span c)).2⟩) := by
  obtain ⟨last, hlast⟩ := exists_last hacyclic hwhole
  refine ⟨(v.unfolding root).refs, v.sweepOrder root, place (v.sweepOrder root) last,
    v.nodes_eq_refs hacyclic hwhole hacyclic.unfolds, byStart_inStartOrder _, fun range hrange id relation => ?_, ?_⟩
  · refine ⟨fun h => h.place_eq hnested hacyclic hwhole hlast hrange, fun h => ?_⟩
    have hplace := hnested.belongs_place hacyclic hwhole hlast hrange
    rw [h] at hplace
    exact hplace
  · intro γ _ comments ordered horder hnonempty hstops
    have hadvancing : Advancing ordered := ⟨fun c hc => hnonempty c (horder.mem.1 hc), horder.sorted, hstops⟩
    rw [attachComments_eq hacyclic hwhole, (byStart_inStartOrder comments).unique horder,
      attachSorted_eq_placed (hnested.nests hacyclic hwhole) hlast hadvancing]
    rfl

/-- items that come out of order, and a list that is as wide as the name it holds -/
def nestedView : View where
  schema := sharedView.schema
  tree := {
    names := sharedTree.names
    nodes := #[
      ⟨0, ⟨1, 30⟩, [(1, .sequence [some 1, some 2])], []⟩,
      ⟨0, ⟨10, 20⟩, [(3, .node 3)], []⟩,
      ⟨2, ⟨2, 5⟩, [], []⟩,
      ⟨2, ⟨10, 20⟩, [], []⟩]
    root := some 0 }

/-- a comment for every case of the rule, one of them across the start of a node -/
def nestedComments : List Span := [⟨12, 14⟩, ⟨0, 1⟩, ⟨35, 40⟩, ⟨6, 8⟩, ⟨9, 11⟩]

theorem attachComments_placement_nested :
    nestedView.Acyclic 0 ∧ nestedView.Whole 0 ∧ nestedView.Nested 0 ∧
    InStartOrder nestedComments [⟨0, 1⟩, ⟨6, 8⟩, ⟨9, 11⟩, ⟨12, 14⟩, ⟨35, 40⟩] ∧
    nestedView.attachComments (some 0) nestedComments =
      .ok [⟨⟨0, 1⟩, 0, .leading⟩, ⟨⟨6, 8⟩, 1, .leading⟩, ⟨⟨9, 11⟩, 0, .inner⟩, ⟨⟨12, 14⟩, 3, .inner⟩,
        ⟨⟨35, 40⟩, 3, .trailing⟩] ∧
    ∃ nodes sorted, nestedView.nodes (some 0) = .ok nodes ∧ InStartOrder (nodes.map Extent.ofRef) sorted ∧
      nestedView.Belongs 0 sorted ⟨9, 11⟩ 0 .inner ∧ nestedView.Belongs 0 sorted ⟨35, 40⟩ 3 .trailing := by
  have hacyclic := View.acyclic_of_rising (v := nestedView) (by decide +kernel) 0
  have hwhole : nestedView.Whole 0 := View.whole_of_closed (by decide +kernel) (by decide)
  have hnested : nestedView.Nested 0 := View.nested_of_tidy (by decide +kernel) 0
  have horder : InStartOrder nestedComments [⟨0, 1⟩, ⟨6, 8⟩, ⟨9, 11⟩, ⟨12, 14⟩, ⟨35, 40⟩] := by
    have hsorted : byStart nestedComments = [⟨0, 1⟩, ⟨6, 8⟩, ⟨9, 11⟩, ⟨12, 14⟩, ⟨35, 40⟩] := by cbv
    exact hsorted ▸ byStart_inStartOrder nestedComments
  have hresult : nestedView.attachComments (some 0) nestedComments =
      .ok [⟨⟨0, 1⟩, 0, .leading⟩, ⟨⟨6, 8⟩, 1, .leading⟩, ⟨⟨9, 11⟩, 0, .inner⟩, ⟨⟨12, 14⟩, 3, .inner⟩,
        ⟨⟨35, 40⟩, 3, .trailing⟩] := by
    rw [attachComments_eq hacyclic hwhole]
    cbv
  obtain ⟨nodes, sorted, target, hnodes, hsorted, hbelongs, hattach⟩ :=
    attachComments_placement nestedView 0 hacyclic hwhole hnested
  have htargets := hattach Span nestedComments _ horder (by decide) (by decide)
  simp only [hresult, List.map_cons, Except.ok.injEq, List.cons.injEq, Attachment.mk.injEq, true_and] at htargets
  obtain ⟨-, -, hacross, -, hbehind, -⟩ := htargets
  exact ⟨hacyclic, hwhole, hnested, horder, hresult, nodes, sorted, hnodes, hsorted,
    (hbelongs _ (by decide) _ _).2 (Prod.ext hacross.1.symm hacross.2.symm),
    (hbelongs _ (by decide) _ _).2 (Prod.ext hbehind.1.symm hbehind.2.symm)⟩

end Arbor
