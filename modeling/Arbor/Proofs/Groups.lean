/-
Comments grouped by node and by relation. A map of attachments is made by adding them one after the other, each to one of the
three lists of its node; a node gets its entry with its first attachment. What the map holds can be read off the attachments
without a map: under a node stand, for each relation, the comments that are attached to it in this way (`related`).

- `Groups.insert`, `Groups.ofList`: what the map says after some attachments, for one attachment more and then for all.
- `ofList_lossless`: nothing is lost, doubled or moved within its group.
-/
import Arbor.Comment.Map
import Arbor.Proofs.Keyed

namespace Arbor

variable {γ : Type}

/-- the comments that are attached to the node with the relation, in order of attachment -/
def related (attachments : List (Attachment γ)) (id : NodeId) (r : Relation) : List γ :=
  (attachments.filter fun a => a.node = id ∧ a.relation = r).map Attachment.comment

theorem related_concat (attachments : List (Attachment γ)) (a : Attachment γ) (id : NodeId) (r : Relation) :
    related (attachments ++ [a]) id r =
      related attachments id r ++ if a.node = id ∧ a.relation = r then [a.comment] else [] := by
  rw [related, List.filter_append, List.map_append, ← related, List.filter_cons, List.filter_nil]
  by_cases h : a.node = id ∧ a.relation = r <;> simp [h]

/-! ## The comments of a node -/

namespace NodeComments

/-- the comments that are attached to the node -/
def ofNode (attachments : List (Attachment γ)) (id : NodeId) : NodeComments γ :=
  ⟨related attachments id .leading, related attachments id .inner, related attachments id .trailing⟩

theorem size_add (c : NodeComments γ) (comment : γ) (r : Relation) : (c.add comment r).size = c.size + 1 := by
  cases r <;> simp [add, size] <;> omega

theorem ofNode_concat (attachments : List (Attachment γ)) (a : Attachment γ) (id : NodeId) :
    ofNode (attachments ++ [a]) id =
      if a.node = id then (ofNode attachments id).add a.comment a.relation else ofNode attachments id := by
  simp only [ofNode, related_concat]
  by_cases hid : a.node = id
  · cases hr : a.relation <;> simp [hid, add]
  · simp [hid]

end NodeComments

/-! ## The map -/

namespace CommentMap

theorem getD_insert (m : CommentMap γ) (a : Attachment γ) (id : NodeId) :
    (m.insert a).getD id = if a.node = id then (m.getD id).add a.comment a.relation else m.getD id := by
  simp only [getD, get?, insert, Keyed.get?_alter]
  by_cases hid : a.node = id <;> simp [hid]

/-- the map is that of the attachments -/
structure Groups (m : CommentMap γ) (attachments : List (Attachment γ)) : Prop where
  keys : m.entries.keys = (attachments.map Attachment.node).eraseDups
  once : m.entries.keys.Nodup
  comments : ∀ id, m.getD id = .ofNode attachments id
  total : (m.entries.map fun p => p.2.size).sum = attachments.length

namespace Groups

theorem empty : (empty : CommentMap γ).Groups [] where
  keys := rfl
  once := List.nodup_nil
  comments := fun _ => rfl
  total := rfl

/-- **One more attachment.** -/
theorem insert {m : CommentMap γ} {attachments : List (Attachment γ)} (h : m.Groups attachments) (a : Attachment γ) :
    (m.insert a).Groups (attachments ++ [a]) where
  keys := by
    have hkeys : (m.insert a).entries.keys =
        if a.node ∈ m.entries.keys then m.entries.keys else m.entries.keys ++ [a.node] := Keyed.keys_alter m.entries a.node _
    rw [hkeys, h.keys, List.map_append, List.map_singleton, eraseDups_concat]
    simp only [List.mem_eraseDups]
  once := Keyed.nodup_keys_alter h.once a.node _
  comments := by
    intro id
    rw [getD_insert, NodeComments.ofNode_concat, h.comments]
  total := by
    have hmore : ∀ old : Option (NodeComments γ),
        ((old.getD .empty).add a.comment a.relation).size = (old.map NodeComments.size).getD 0 + 1 := by
      intro old
      rw [NodeComments.size_add]
      cases old <;> rfl
    rw [List.length_append, List.length_singleton, ← h.total]
    exact Keyed.sum_alter m.entries a.node _ NodeComments.size hmore

theorem foldl {m : CommentMap γ} {before : List (Attachment γ)} (h : m.Groups before) (attachments : List (Attachment γ)) :
    (attachments.foldl CommentMap.insert m).Groups (before ++ attachments) := by
  induction attachments generalizing m before with
  | nil => simpa using h
  | cons a rest ih => simpa using ih (h.insert a)

/-- **All attachments.** -/
theorem ofList (attachments : List (Attachment γ)) : (ofList attachments).Groups attachments :=
  Groups.empty.foldl attachments

end Groups

/-! ## Main result -/

/-- **The map of attachments loses nothing.** For every list of attachments and the map that is made of it:
- the nodes of the map come in the order of their first attachments, each of them once, and each stands there with the comments
  that are found under it;
- under every node the leading, the inner and the trailing comments are those that are attached to it with this relation, in the
  order of the list;
- a node has an entry if and only if something is attached to it;
- the sizes of all entries add up to the number of attachments. -/
theorem ofList_lossless (attachments : List (Attachment γ)) :
    let m := ofList attachments
    m.entries.keys = (attachments.map Attachment.node).eraseDups ∧ m.entries.keys.Nodup ∧
    (∀ id c, (id, c) ∈ m.entries ↔ m.get? id = some c) ∧
    (∀ id, (m.getD id).leading = related attachments id .leading ∧ (m.getD id).inner = related attachments id .inner ∧
      (m.getD id).trailing = related attachments id .trailing) ∧
    (∀ id, (m.get? id).isSome = true ↔ ∃ a ∈ attachments, a.node = id) ∧
    (m.entries.map fun p => p.2.size).sum = attachments.length := by
  intro m
  have h : m.Groups attachments := Groups.ofList attachments
  refine ⟨h.keys, h.once, fun id c => (Keyed.get?_eq_some_iff h.once).symm, fun id => ?_, fun id => ?_, h.total⟩
  · rw [h.comments]
    exact ⟨rfl, rfl, rfl⟩
  · rw [get?, Keyed.isSome_get?_iff, h.keys, List.mem_eraseDups, List.mem_map]

/-- two nodes in turn, with all three relations -/
example : (ofList [⟨"a", 7, .inner⟩, ⟨"b", 2, .leading⟩, ⟨"c", 7, .trailing⟩, ⟨"d", 7, .inner⟩]).entries =
    [(7, ⟨[], ["a", "d"], ["c"]⟩), (2, ⟨["b"], [], []⟩)] := by decide

end CommentMap

end Arbor
