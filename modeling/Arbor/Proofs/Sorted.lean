/-
JSON objects list their members in ascending order of the keys, each key once. The reader keeps them so: it puts every
member at its place, and a later member takes the place of an earlier one with the same key.

`p.Yields P` says that whatever the reader `p` reads satisfies `P`. It passes through the parts of a reader, so the loops
over items and members are opened once, in `yields_items` and `yields_members`.

- `Json.parse_sorted`: every value that is read from a text is sorted, at every depth.
-/
import Mathlib.Tactic.SplitIfs
import Arbor.Json.Parse

namespace Arbor.Json

/-- in every object of the value the keys ascend -/
inductive Value.Sorted : Value → Prop
  | null : Sorted .null
  | bool (b : Bool) : Sorted (.bool b)
  | number (n : Number) : Sorted (.number n)
  | string (s : String) : Sorted (.string s)
  | array {items : List Value} (hitems : ∀ v ∈ items, Sorted v) : Sorted (.array items)
  | object {members : List (String × Value)} (hkeys : (members.map Prod.fst).Pairwise (· < ·))
    (hmembers : ∀ m ∈ members, Sorted m.2) : Sorted (.object members)

theorem mem_insertMember {key : String} {value : Value} {members : List (String × Value)} {m : String × Value}
    (h : m ∈ insertMember key value members) : m = (key, value) ∨ m ∈ members := by
  induction members with
  | nil => simpa [insertMember] using h
  | cons first rest ih =>
    simp only [insertMember] at h
    split_ifs at h with hlt heq
    · exact List.mem_cons.1 h
    · rcases List.mem_cons.1 h with h | h
      · exact .inl h
      · exact .inr (List.mem_cons_of_mem _ h)
    · rcases List.mem_cons.1 h with h | h
      · exact .inr (h ▸ List.mem_cons_self)
      · rcases ih h with h | h
        · exact .inl h
        · exact .inr (List.mem_cons_of_mem _ h)

theorem insertMember_ascends {key : String} {value : Value} {members : List (String × Value)}
    (h : (members.map Prod.fst).Pairwise (· < ·)) :
    ((insertMember key value members).map Prod.fst).Pairwise (· < ·) := by
  induction members with
  | nil => simp [insertMember]
  | cons first rest ih =>
    obtain ⟨k, v⟩ := first
    simp only [List.map_cons, List.pairwise_cons] at h
    simp only [insertMember]
    split_ifs with hlt heq
    · refine List.pairwise_cons.2 ⟨fun a ha => ?_, List.pairwise_cons.2 h⟩
      rcases List.mem_cons.1 ha with rfl | ha
      · exact hlt
      · exact String.lt_trans hlt (h.1 a ha)
    · subst heq
      exact List.pairwise_cons.2 h
    · refine List.pairwise_cons.2 ⟨fun a ha => ?_, ih h.2⟩
      obtain ⟨m, hm, rfl⟩ := List.mem_map.1 ha
      rcases mem_insertMember hm with rfl | hm
      · exact Std.lt_of_le_of_ne (String.not_lt.1 hlt) (Ne.symm heq)
      · exact h.1 _ (List.mem_map.2 ⟨m, hm, rfl⟩)

namespace Reader

variable {α β σ : Type}

/-- whatever is read satisfies the predicate -/
def Yields (p : Reader α) (P : α → Prop) : Prop := ∀ s a r, p s = .ok (a, r) → P a

theorem yields_pure {P : α → Prop} {a : α} (h : P a) : (pure a : Reader α).Yields P := by
  intro s b r hp
  cases hp
  exact h

theorem yields_fail {P : α → Prop} (e : Failure) : (fail e : Reader α).Yields P := by
  intro s b r hp
  cases hp

theorem yields_bind {p : Reader α} {f : α → Reader β} {Q : α → Prop} {P : β → Prop} (hp : p.Yields Q)
    (hf : ∀ a, Q a → (f a).Yields P) : (p >>= f).Yields P := by
  intro s b r h
  simp only [bind] at h
  split at h
  · cases h
  · rename_i a r₁ hr₁ ha
    split at h
    · cases h
    · rename_i b' r₂ hr₂ hb
      cases h
      exact hf a (hp s a _ ha) _ _ _ hb

theorem yields_any (p : Reader α) : p.Yields fun _ => True := fun _ _ _ _ => trivial

theorem yields_then {p : Reader α} {f : α → Reader β} {P : β → Prop} (hf : ∀ a, (f a).Yields P) : (p >>= f).Yields P :=
  yields_bind (yields_any p) fun a _ => hf a

theorem yields_map {p : Reader α} {f : α → β} {Q : α → Prop} {P : β → Prop} (hp : p.Yields Q) (hf : ∀ a, Q a → P (f a)) :
    (f <$> p).Yields P :=
  yields_bind hp fun a ha => yields_pure (hf a ha)

theorem yields_moreItems {item : Reader α} {P : α → Prop} (h : item.Yields P) {acc : List α} (hacc : ∀ a ∈ acc, P a) :
    (moreItems item acc).Yields fun l => ∀ a ∈ l, P a := by
  have hloop : ∀ (start : List Char) (acc : List α) (s : List Char) (hs : s.length ≤ start.length) (l : List α)
      (r : Rest start), (∀ a ∈ acc, P a) → moreItems.loop item start acc s hs = .ok (l, r) → ∀ a ∈ l, P a := by
    intro start acc s hs l r hacc hl
    fun_induction moreItems.loop item start acc s hs with
    | case1 => cases hl
    | case2 =>
      cases hl
      simpa using hacc
    | case3 => cases hl
    | case4 acc s hs rest a next hn ha _ _ _ _ ih =>
      refine ih ?_ hl
      intro b hb
      rcases List.mem_cons.1 hb with rfl | hb
      · exact h _ _ _ ha
      · exact hacc b hb
    | case5 => cases hl
  exact fun s l r hl => hloop s acc s _ l r hacc hl

theorem yields_items {item : Reader α} {P : α → Prop} (h : item.Yields P) : (items item).Yields fun l => ∀ a ∈ l, P a := by
  unfold items
  refine yields_then fun c => ?_
  split
  · exact yields_fail _
  · exact yields_then fun _ => yields_pure (by simp)
  · exact yields_bind h fun a ha => yields_moreItems h (by simpa using ha)

theorem yields_moreMembers {key : Reader String} {member : String → σ → Reader σ} {I : σ → Prop}
    (h : ∀ k acc, I acc → (member k acc).Yields I) {acc : σ} (hacc : I acc) : (moreMembers key member acc).Yields I := by
  have hloop : ∀ (start : List Char) (acc : σ) (s : List Char) (hs : s.length ≤ start.length) (l : σ)
      (r : Rest start), I acc → moreMembers.loop key member start acc s hs = .ok (l, r) → I l := by
    intro start acc s hs l r hacc hl
    fun_induction moreMembers.loop key member start acc s hs with
    | case1 => cases hl
    | case2 =>
      cases hl
      exact hacc
    | case3 => cases hl
    | case4 acc s hs rest a next hn ha _ _ _ _ ih =>
      exact ih (yields_then (fun k => h k acc hacc) _ _ _ ha) hl
    | case5 => cases hl
  exact fun s l r hl => hloop s acc s _ l r hacc hl

theorem yields_members {key : Reader String} {member : String → σ → Reader σ} {I : σ → Prop}
    (h : ∀ k acc, I acc → (member k acc).Yields I) {start : σ} (hstart : I start) :
    (members key member start).Yields I := by
  unfold members
  refine yields_then fun c => ?_
  split
  · exact yields_fail _
  · exact yields_then fun _ => yields_pure hstart
  · exact yields_then fun k => yields_bind (h k start hstart) fun acc hacc => yields_moreMembers h hacc

theorem yields_scalarFrom (c : Option Char) : (scalarFrom c).Yields Value.Sorted := by
  cases c with
  | none => exact yields_fail _
  | some c =>
    simp only [scalarFrom]
    split_ifs
    · exact yields_then fun _ => yields_map (yields_any _) fun s _ => .string s
    · exact yields_then fun _ => yields_pure .null
    · exact yields_then fun _ => yields_pure (.bool true)
    · exact yields_then fun _ => yields_pure (.bool false)
    · exact yields_map (yields_any _) fun n _ => .number n
    · exact yields_fail _

/-- one more member keeps an object sorted -/
theorem sorted_insertMember {key : String} {value : Value} {members : List (String × Value)} (hv : value.Sorted)
    (h : (Value.object members).Sorted) : (Value.object (insertMember key value members)).Sorted := by
  cases h with
  | object hkeys hmembers =>
    refine .object (insertMember_ascends hkeys) fun m hm => ?_
    rcases mem_insertMember hm with rfl | hm
    · exact hv
    · exact hmembers m hm

theorem yields_value (depth : Nat) : (value depth).Yields Value.Sorted := by
  induction depth with
  | zero =>
    unfold value
    exact yields_then yields_scalarFrom
  | succ depth ih =>
    unfold value
    refine yields_then fun c => ?_
    split
    · exact yields_then fun _ => yields_map (yields_items ih) fun _ hitems => .array hitems
    · refine yields_then fun _ => yields_map (Q := fun members => (Value.object members).Sorted) ?_ fun _ h => h
      refine yields_members (fun k all hall => ?_) (.object .nil (by simp))
      exact yields_then fun _ => yields_bind ih fun v hv => yields_pure (sorted_insertMember hv hall)
    · exact yields_scalarFrom _

end Reader

/-- **Values that are read are sorted.** -/
theorem parse_sorted {text : String} {v : Value} (h : parse text = .ok v) : v.Sorted := by
  unfold parse Reader.run at h
  split at h
  · cases h
  · rename_i hread
    split_ifs at h
    cases h
    exact Reader.yields_value 127 _ _ _ hread

end Arbor.Json
