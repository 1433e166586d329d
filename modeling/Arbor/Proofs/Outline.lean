/-
Outlines as nested texts. The outline is written line by line: one walk lists the nodes with their depths, and each line gets
the closing parentheses that the depth of the next one leaves to it. `Printed` says what the text of a node is without lines:
the indented label and header of the node, the texts of its children on lines of their own, and one closing parenthesis.

- `closes_cons`: if the lines below a node close to the texts of its children, then its own line and those lines close to its
  text. The parentheses that belong to the nodes around it come after its own, on the same line.
- `Unfolds.printed`: so the lines of an unfolding close to the printed texts.
- `Forest.depths_chain`: each line is at most one level below the line before it.
- `outline_nested`: the outline is the printed text of the root and the end of its line.
- `WellFormed.whole`, `WellFormed.legible`: in a well-formed arena all that is needed for this can be read.
-/
import Mathlib.Data.List.Chain
import Arbor.Proofs.Building
import Arbor.Proofs.ParentLinks
import Arbor.View.Outline

namespace Arbor

/-! ## Texts -/

/-- the label of a seat, the field and the place in brackets; the root of a walk has none -/
def Seat.label (p : Palette) (seat : Seat) : String :=
  match seat.field with
  | none => ""
  | some field => p.dim ++ field ++ (seat.index.elim "" fun i => "[" ++ toString i ++ "]") ++ ":" ++ p.reset ++ " "

namespace Outline

/-- an attribute after a space, its name and its value; texts stand in quotes, and only these are coloured -/
def entryText (p : Palette) : String × Scalar → String
  | (name, .null) => " " ++ name ++ "=" ++ "null"
  | (name, .bool true) => " " ++ name ++ "=" ++ "true"
  | (name, .bool false) => " " ++ name ++ "=" ++ "false"
  | (name, .number x) => " " ++ name ++ "=" ++ x.text
  | (name, .string s) => " " ++ name ++ "=" ++ p.string ++ Text.quoted s ++ p.reset

/-- the header of a node: its kind, its range if ranges are shown, and its attributes if these are shown -/
def headerText (style : OutlineStyle) (ref : NodeRef) (attrs : List (String × Scalar)) : String :=
  "(" ++ style.palette.kind ++ ref.kind ++ style.palette.reset ++
    (if style.spans then
      " " ++ style.palette.dim ++ "[" ++ toString ref.node.span.start ++ ".." ++ toString ref.node.span.stop ++ "]" ++
        style.palette.reset
    else "") ++
    (if style.attrs then String.join (attrs.map (entryText style.palette)) else "")

/-- texts on lines of their own, after the line that is being written -/
def onLines (texts : List String) : String := String.join (texts.map fun text => "\n" ++ text)

@[simp] theorem onLines_nil : onLines [] = "" := rfl

@[simp] theorem onLines_cons (text : String) (rest : List String) :
    onLines (text :: rest) = "\n" ++ text ++ onLines rest := by
  simp [onLines]

end Outline

namespace View

open Outline

/-- the texts of a row of nodes at a depth: of each its indented label and header, below them the texts of its children on
lines of their own, and one closing parenthesis -/
inductive Printed (v : View) (style : OutlineStyle) : Nat → List Seat → List String → Prop
  | nil {depth : Nat} : Printed v style depth [] []
  | cons {depth : Nat} {seat : Seat} {rest : List Seat} {ref : NodeRef} {attrs : List (String × Scalar)}
    {children brothers : List String} (hr : v.tree.ref seat.node = .ok ref) (hattrs : v.tree.attrs seat.node = .ok attrs)
    (hbelow : Printed v style (depth + 1) (v.seats ref) children) (hnext : Printed v style depth rest brothers) :
    Printed v style depth (seat :: rest)
      ((Text.indent depth ++ seat.label style.palette ++ headerText style ref attrs ++ onLines children ++ ")") :: brothers)

theorem Printed.unique {v : View} {style : OutlineStyle} {depth : Nat} {row : List Seat} {texts : List String}
    (h : v.Printed style depth row texts) : ∀ other, v.Printed style depth row other → texts = other := by
  induction h with
  | nil => intro other h; cases h; rfl
  | cons hr hattrs _ _ ihbelow ihnext =>
    intro other h
    cases h with
    | cons hr' hattrs' hbelow hnext =>
      cases Except.ok.inj (hr.symm.trans hr')
      cases Except.ok.inj (hattrs.symm.trans hattrs')
      rw [ihbelow _ hbelow, ihnext _ hnext]

end View

namespace Outline

/-! ## Closing parentheses -/

/-- so many closing parentheses -/
def parens (count : Nat) : String := String.ofList (List.replicate count ')')

/-- the depth of the first line, or the given one if there is none -/
def nextDepth (after : Nat) : List (Nat × String) → Nat
  | [] => after
  | (depth, _) :: _ => depth

/-- the lines with their closing parentheses, where a line of depth `after` comes after them -/
def closeTo (after : Nat) : List (Nat × String) → String
  | [] => ""
  | (depth, text) :: rest => text ++ parens (depth + 1 - nextDepth after rest) ++ "\n" ++ closeTo after rest

theorem parens_zero : parens 0 = "" := rfl

theorem parens_succ (count : Nat) : parens (count + 1) = ")" ++ parens count := by
  simp [parens, List.replicate_succ, String.ofList_cons]

/-- after the last line comes the end, as if there were a line that every node ends before -/
theorem close_eq (lines : List (Nat × String)) : close lines = closeTo 0 lines := by
  fun_induction close lines with
  | case1 => rfl
  | case2 depth text => simp [closeTo, nextDepth, parens]
  | case3 depth text next other rest closing ih =>
    have hclosing : closing = depth + 1 - next := by
      simp only [closing]
      split_ifs <;> omega
    rw [ih, hclosing]
    rfl

theorem nextDepth_append (after : Nat) (xs ys : List (Nat × String)) :
    nextDepth after (xs ++ ys) = nextDepth (nextDepth after ys) xs := by
  cases xs <;> rfl

theorem closeTo_append (after : Nat) (xs ys : List (Nat × String)) :
    closeTo after (xs ++ ys) = closeTo (nextDepth after ys) xs ++ closeTo after ys := by
  induction xs with
  | nil => simp [closeTo]
  | cons x rest ih => simp only [List.cons_append, closeTo, nextDepth_append, ih, String.append_assoc]

/-- the lines of a row at a depth close to its texts: the first line has this depth, and whatever depth the line after them
has, the parentheses of the nodes around the row come after the last text -/
def Closes (depth : Nat) (lines : List (Nat × String)) : List String → Prop
  | [] => lines = []
  | first :: more => (∀ after, nextDepth after lines = depth) ∧
    ∀ after ≤ depth, closeTo after lines = first ++ onLines more ++ parens (depth - after) ++ "\n"

/-- a node and what is below it -/
theorem closeTo_node {depth : Nat} {text : String} {below : List (Nat × String)} {children : List String}
    (hbelow : Closes (depth + 1) below children) {after : Nat} (hafter : after ≤ depth) :
    closeTo after ((depth, text) :: below) = text ++ onLines children ++ ")" ++ parens (depth - after) ++ "\n" := by
  have hparens : parens (depth + 1 - after) = ")" ++ parens (depth - after) := by
    rw [Nat.succ_sub hafter, parens_succ]
  cases children with
  | nil =>
    -- a leaf closes itself on its own line
    obtain rfl : below = [] := hbelow
    simp [closeTo, nextDepth, hparens, String.append_assoc]
  | cons first more =>
    -- the line of a node with children closes nothing; the last line below closes the node as well
    obtain ⟨hfirst, hclose⟩ := hbelow
    rw [closeTo, hfirst, hclose after (by omega), hparens]
    simp only [Nat.sub_self, parens_zero, String.append_empty, onLines_cons, String.append_assoc]

/-- **A row of lines closes to its texts**, if the lines below its first node and those of the other nodes do. -/
theorem closes_cons {depth : Nat} {text : String} {below next : List (Nat × String)} {children brothers : List String}
    (hbelow : Closes (depth + 1) below children) (hnext : Closes depth next brothers) :
    Closes depth ((depth, text) :: (below ++ next)) ((text ++ onLines children ++ ")") :: brothers) := by
  refine ⟨fun _ => rfl, fun after hafter => ?_⟩
  cases brothers with
  | nil =>
    obtain rfl : next = [] := hnext
    rw [List.append_nil, closeTo_node hbelow hafter, onLines_nil, String.append_empty]
  | cons first more =>
    obtain ⟨hfirst, hclose⟩ := hnext
    rw [← List.cons_append, closeTo_append, hfirst, closeTo_node hbelow (Nat.le_refl depth), hclose after hafter]
    simp only [Nat.sub_self, parens_zero, String.append_empty, onLines_cons, String.append_assoc]

/-! ## Lines -/

theorem label_eq (p : Palette) (seat : Seat) : label p seat.field seat.index = seat.label p := by
  obtain ⟨node, field, index⟩ := seat
  cases field with
  | none => cases index <;> rfl
  | some field =>
    cases index with
    | none => simp only [label, Seat.label, Option.elim_none, String.append_empty]
    | some i => rfl

theorem attrText_eq (p : Palette) (name : String) (value : Scalar) : attrText p name value = entryText p (name, value) := by
  cases value with
  | bool b => cases b <;> rfl
  | _ => rfl

theorem header_eq (style : OutlineStyle) {v : View} {id : NodeId} {ref : NodeRef} {attrs : List (String × Scalar)}
    (hr : v.tree.ref id = .ok ref) (hattrs : v.tree.attrs id = .ok attrs) :
    header style v.tree ref = .ok (headerText style ref attrs) := by
  have hnamed : v.tree.named ref.node.attrs = .ok attrs := by
    rw [← hattrs]
    simp [Tree.attrs, Tree.node, View.node_of_ref hr, bind, Except.bind]
  have hrange : " " ++ style.palette.dim ++ s!"[{ref.node.span.text}]" ++ style.palette.reset =
      " " ++ style.palette.dim ++ "[" ++ toString ref.node.span.start ++ ".." ++ toString ref.node.span.stop ++ "]" ++
        style.palette.reset := by
    change " " ++ style.palette.dim ++
      ("[" ++ (toString ref.node.span.start ++ ".." ++ toString ref.node.span.stop) ++ "]") ++ style.palette.reset = _
    simp only [String.append_assoc]
  rw [headerText, ← hrange]
  cases ha : style.attrs <;> simp [header, ha, hnamed, attrText_eq, bind, Except.bind, pure, Except.pure]

end Outline

/-- the row of an outline for a spot -/
def Spot.row (x : Spot) : OutlineRow := ⟨x.context.depth, x.context.field, x.context.index, x.ref⟩

namespace View

open Outline

variable {v : View}

theorem outlineRows_eq {root : Option NodeId} (h : v.Ends root) :
    v.outlineRows root = .ok ((v.spots root).map Spot.row) := by
  have hwalk : v.walkPath root (fun ref ctx (rows : Array OutlineRow) =>
      (.descend, rows.push ⟨ctx.depth, ctx.field, ctx.index, ref⟩)) #[] =
        .ok ((v.spots root).foldl (fun rows x => rows.push x.row) #[]) :=
    walkPath_descend h (fun x rows => rows.push x.row) #[]
  simp only [outlineRows, hwalk, bind, Except.bind, pure, Except.pure]
  simp

theorem outline_eq {root : Option NodeId} (h : v.Ends root) (style : OutlineStyle) :
    v.outline root style = (((v.spots root).map Spot.row).mapM (line style v.tree)).map close := by
  simp only [outline, outlineRows_eq h, bind, Except.bind]
  cases ((v.spots root).map Spot.row).mapM (line style v.tree) <;> rfl

/-- **Lines close to texts.** The lines of an unfolding, which the walk lists, close to the texts of the row. -/
theorem Unfolds.printed {row : List Seat} {forest : Forest} (h : v.Unfolds row forest) (hu : forest.Unbroken)
    (style : OutlineStyle) (hattrs : ∀ ref ∈ forest.refs, ∃ attrs, v.tree.attrs ref.id = .ok attrs) :
    ∀ path : List NodeId, ∃ lines texts,
      ((forest.spots path).map Spot.row).mapM (line style v.tree) = .ok lines ∧
      v.Printed style path.length row texts ∧ Closes path.length lines texts := by
  induction h with
  | nil => intro path; exact ⟨[], [], rfl, .nil, rfl⟩
  | broken _ => exact absurd hu id
  | @cons seat rest ref below next hr hbelow hnext ihbelow ihnext =>
    intro path
    have hid := Tree.ref_id hr
    obtain ⟨attrs, hshown⟩ := hattrs ref (by simp [Forest.refs])
    obtain ⟨lower, children, hlower, hchildren, hcloses⟩ :=
      ihbelow hu.1 (fun r hm => hattrs r (by simp [Forest.refs, hm])) (path ++ [ref.id])
    obtain ⟨later, brothers, hlater, hbrothers, hcloses'⟩ :=
      ihnext hu.2 (fun r hm => hattrs r (by simp [Forest.refs, hm])) path
    rw [List.length_append, List.length_singleton] at hchildren hcloses
    have hline : line style v.tree (Spot.row ⟨ref, ⟨path.toArray, seat.field, seat.index⟩⟩) =
        .ok (path.length, Text.indent path.length ++ seat.label style.palette ++ headerText style ref attrs) := by
      have hheader := header_eq style (hid ▸ hr) hshown
      simp [line, Spot.row, hheader, label_eq, Context.depth, bind, Except.bind, pure, Except.pure]
    refine ⟨_, _, ?_, .cons hr (hid ▸ hshown) hchildren hbrothers, closes_cons hcloses hcloses'⟩
    simp only [Forest.spots, List.map_cons, List.map_append, List.mapM_cons, List.mapM_append, hline, hlower, hlater, bind,
      Except.bind, pure, Except.pure]

end View

/-- each spot is at most one level below the spot before it -/
theorem Forest.depths_chain (forest : Forest) : ∀ path : List NodeId,
    (forest.spots path).IsChain (fun x next => next.context.depth ≤ x.context.depth + 1) ∧
    (∀ x ∈ forest.spots path, path.length ≤ x.context.depth) ∧
    ∀ x ∈ (forest.spots path).head?, x.context.depth = path.length := by
  induction forest with
  | nil => intro path; simp [spots]
  | broken fault => intro path; simp [spots]
  | cons field index ref below next ihbelow ihnext =>
    intro path
    obtain ⟨hbelow, hlow, hfirst⟩ := ihbelow (path ++ [ref.id])
    obtain ⟨hnext, hhigh, hfirst'⟩ := ihnext path
    simp only [List.length_append, List.length_singleton] at hlow hfirst
    have hself : (⟨path.toArray, field, index⟩ : Context).depth = path.length := by simp [Context.depth]
    refine ⟨List.isChain_cons.2 ⟨fun x hx => ?_, List.isChain_append.2 ⟨hbelow, hnext, fun x hx y hy => ?_⟩⟩,
      fun x hx => ?_, fun x hx => ?_⟩
    · rw [hself]
      rw [List.head?_append, Option.mem_def, Option.or_eq_some_iff] at hx
      rcases hx with hx | ⟨-, hx⟩
      · exact Nat.le_of_eq (hfirst x hx)
      · exact Nat.le_succ_of_le (Nat.le_of_eq (hfirst' x hx))
    · have := hlow x (List.mem_of_getLast? hx)
      have := hfirst' y hy
      omega
    · rcases List.mem_cons.1 hx with rfl | hx
      · exact Nat.le_of_eq hself.symm
      · rcases List.mem_append.1 hx with hx | hx
        · exact Nat.le_of_succ_le (hlow x hx)
        · exact hhigh x hx
    · cases hx
      exact hself

/-! ## What can be read -/

namespace View

/-- the attributes of every node that the root reaches can be listed; a finished tree holds no other names -/
def Legible (v : View) (root : NodeId) : Prop := ∀ n, v.Reaches root n → ∃ attrs, v.tree.attrs n = .ok attrs

end View

theorem Tree.Answers.ref {t : Tree} {id : NodeId} (h : t.Answers id) : ∃ ref, t.ref id = .ok ref := by
  obtain ⟨kind, hkind⟩ := h.kind
  obtain ⟨n, hnode⟩ : ∃ n, t.node id = .ok n := by
    cases hnode : t.node id with
    | ok n => exact ⟨n, rfl⟩
    | error fault => simp [Tree.kind, hnode, bind, Except.bind] at hkind
  have hresolve : t.names.resolve n.kind = .ok kind := by
    simpa [Tree.kind, hnode, bind, Except.bind] using hkind
  exact ⟨⟨id, kind, n⟩, by simp [Tree.ref, hnode, hresolve, bind, Except.bind, pure, Except.pure]⟩

namespace WellFormed

variable {v : View} (h : WellFormed v.tree.names v.tree.nodes) {root : NodeId} (hroot : root < v.tree.size)
include h hroot

/-- a node of a well-formed arena reaches nodes of the arena only -/
theorem answers_of_reaches {n : NodeId} (hn : v.Reaches root n) : v.tree.Answers n := by
  refine h.answers ?_
  induction hn with
  | refl => exact hroot
  | @tail m n _ hc ih =>
    obtain ⟨ref, hr, slot, hslot, rfl⟩ := hc
    obtain ⟨stored, hstored, hholds⟩ := View.slot_of_mem_childrenOf hr hslot
    obtain ⟨found, hfound, hheld⟩ := (h.answers ih).slot slot.field
    cases Except.ok.inj (hstored.symm.trans hfound)
    exact of_decide_eq_true (hheld stored rfl _ (Slot.mem_children_iff.2 hholds))

theorem whole : v.Whole root := fun _ hn => (h.answers_of_reaches hroot hn).ref

theorem legible : v.Legible root := fun _ hn => (h.answers_of_reaches hroot hn).attrs

end WellFormed

/-! ## Main result -/

namespace View

/-- **The outline is the nested text.** Below an acyclic root whose nodes and attributes can be read (shared nodes allowed),
and for every style, with or without ranges and attributes and with any marks for colours:
- there is one printed text of the root, at depth zero and without a label, and the outline is this text and a line end;
- each row is at most one level below the row before it, so from the depth of a row, plus one, the depth of the next row can
  always be taken away.
Without a root the outline is empty. -/
theorem outline_nested (v : View) (root : NodeId) (style : OutlineStyle) (hacyclic : v.Acyclic root)
    (hwhole : v.Whole root) (hlegible : v.Legible root) :
    (∃ text, (∀ texts, v.Printed style 0 [Seat.top root] texts ↔ texts = [text]) ∧
      v.outline (some root) style = .ok (text ++ "\n")) ∧
    (∃ rows, v.outlineRows (some root) = .ok rows ∧ rows.IsChain fun row next => next.depth ≤ row.depth + 1) ∧
    v.outline none style = .ok "" := by
  have hends := ends_some hacyclic hwhole
  have hu := hacyclic.unfolds
  refine ⟨?_, ⟨_, outlineRows_eq hends, ?_⟩, rfl⟩
  · obtain ⟨lines, texts, hlines, hprinted, hcloses⟩ := hu.printed (hu.unbroken (by simpa [Seat.top] using hwhole)) style
      (fun ref hm => hlegible ref.id ((hu.mem_refs hwhole ref).1 hm).1) []
    obtain ⟨text, rfl⟩ : ∃ text, texts = [text] := by
      cases hprinted with
      | cons _ _ _ hnext => cases hnext; exact ⟨_, rfl⟩
    refine ⟨text, fun other => ⟨fun h => (hprinted.unique other h).symm, fun h => h ▸ hprinted⟩, ?_⟩
    have hclose : Outline.close lines = text ++ "\n" := by
      rw [Outline.close_eq, hcloses.2 0 (Nat.le_refl 0)]
      simp [Outline.parens]
    have hmap : ((v.spots (some root)).map Spot.row).mapM (Outline.line style v.tree) = .ok lines := hlines
    rw [outline_eq hends, hmap, Except.map, hclose]
  · exact (List.isChain_map Spot.row).2 ((v.unfolding root).depths_chain []).1

/-- a list of weight -1.5, which holds a name, nothing and a list whose head is the same name -/
def labelledBuilder : Builder :=
  Builder.empty.run
    [.node "List" ⟨0, 9⟩, .node "List" ⟨3, 8⟩, .node "Name" ⟨4, 5⟩, .setAttr 0 "weight" (.number ⟨true, 0x18000000000000, -52⟩),
      .setAttr 1 "open" (.bool true), .setAttr 2 "name" (.string "a"), .setSequence 0 "items" [some 2, none, some 1],
      .setOptional 1 "head" (some 2)]

/-- the tree of the builder, read as lists of items with a head -/
def labelledView : View := ⟨⟨labelledBuilder.names, labelledBuilder.nodes, some 0⟩, sharedView.schema⟩

/-- With ranges and attributes, without colours. The hole counts as a place, the shared name is printed wherever it is
met, and the last line closes the name and the two lists around it. -/
theorem outline_nested_labelled :
    let style : OutlineStyle := ⟨true, true, .plain⟩
    let text := "(List [0..9] weight=-1.5\n  items[0]: (Name [4..5] name=\"a\")\n  items[2]: (List [3..8] open=true\n" ++
      "    head: (Name [4..5] name=\"a\")))"
    labelledView.Acyclic 0 ∧ labelledView.Whole 0 ∧ labelledView.Legible 0 ∧
      labelledView.outline (some 0) style = .ok (text ++ "\n") ∧ labelledView.Printed style 0 [Seat.top 0] [text] := by
  intro style text
  have hacyclic : labelledView.Acyclic 0 := acyclic_of_rising (by decide +kernel) 0
  have hwell : WellFormed labelledBuilder.names labelledBuilder.nodes :=
    Builder.run_wellFormed Builder.empty _ WellFormed.empty
  have hwhole : labelledView.Whole 0 := hwell.whole (v := labelledView) (by decide +kernel)
  have hlegible : labelledView.Legible 0 := hwell.legible (v := labelledView) (by decide +kernel)
  have houtline : labelledView.outline (some 0) style = .ok (text ++ "\n") :=
    (outline_eq (ends_some hacyclic hwhole) style).trans (by decide +kernel)
  obtain ⟨⟨printed, hprinted, hsame⟩, -, -⟩ := outline_nested labelledView 0 style hacyclic hwhole hlegible
  have htext : [text] = [printed] := by
    rw [houtline] at hsame
    rw [(String.append_left_inj "\n").1 (Except.ok.inj hsame)]
  exact ⟨hacyclic, hwhole, hlegible, houtline, (hprinted _).2 htext⟩

end View

end Arbor
