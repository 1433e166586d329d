/-
Key-value lists. Two questions can be asked of such a list, which keys it has in which order and what stands under a key, and
where each key stands once the answers fix the list (`ext_of_keys`). So what a write does is said for these two alone.

- `keys_alter`, `get?_alter`, `sum_alter`: what one change does to the order of the keys, to what is found and to a sum.
- `keys_putAll`, `get?_putAll`: what writing a whole list over another one does. From these two follow the laws of such
  writes: `putAll_assoc`, `putAll_twice` and `putAll_nil_of_nodup`.
- `eraseDups_concat`, `nodup_eraseDups`: the first occurrences of the things in a list, one thing after the other.
-/
import Mathlib.Algebra.GroupWithZero.Nat
import Mathlib.Data.List.Induction
import Mathlib.Data.List.Nodup
import Arbor.Lookup

namespace Arbor.Keyed

variable {κ ν : Type} [DecidableEq κ]

/-! ## Looking up -/

theorem mem_of_get? {entries : Keyed κ ν} {key : κ} {value : ν} (h : entries.get? key = some value) :
    (key, value) ∈ entries := by
  induction entries with
  | nil => cases h
  | cons p rest ih =>
    rw [get?] at h
    split_ifs at h with hp
    · cases h; simp [← hp]
    · exact List.mem_cons_of_mem p (ih h)

/-- under keys that stand once each, looking up is membership -/
theorem get?_eq_some_iff {entries : Keyed κ ν} (h : entries.keys.Nodup) {key : κ} {value : ν} :
    entries.get? key = some value ↔ (key, value) ∈ entries := by
  refine ⟨mem_of_get?, fun hm => ?_⟩
  induction entries with
  | nil => simp at hm
  | cons p rest ih =>
    obtain ⟨hp, hrest⟩ := List.nodup_cons.1 h
    rw [get?]
    rcases List.mem_cons.1 hm with rfl | hm
    · exact if_pos rfl
    · have hne : p.1 ≠ key := fun heq => hp (List.mem_map.2 ⟨_, hm, heq.symm⟩)
      rw [if_neg hne]
      exact ih hrest hm

theorem get?_eq_none_iff {entries : Keyed κ ν} {key : κ} : entries.get? key = none ↔ key ∉ entries.keys := by
  induction entries with
  | nil => simp [get?, keys]
  | cons p rest ih =>
    rw [get?]
    by_cases hp : p.1 = key
    · simp [hp, keys]
    · rw [if_neg hp, ih]
      simp [keys, Ne.symm hp]

theorem isSome_get?_iff {entries : Keyed κ ν} {key : κ} : (entries.get? key).isSome ↔ key ∈ entries.keys := by
  rw [Option.isSome_iff_ne_none, Ne, get?_eq_none_iff, not_not]

/-- **Keys and answers fix a list** in which each key stands once. -/
theorem ext_of_keys {xs ys : Keyed κ ν} (hx : xs.keys.Nodup) (hkeys : xs.keys = ys.keys)
    (hget : ∀ key, xs.get? key = ys.get? key) : xs = ys := by
  induction xs generalizing ys with
  | nil => cases ys with
    | nil => rfl
    | cons q more => cases hkeys
  | cons p rest ih => cases ys with
    | nil => cases hkeys
    | cons q more =>
      obtain ⟨hkey, hrest⟩ : p.1 = q.1 ∧ keys rest = keys more := List.cons.inj hkeys
      obtain ⟨hp, hnodup⟩ := List.nodup_cons.1 hx
      have hvalue : p.2 = q.2 := by
        have hhead := hget p.1
        rw [get?, get?, if_pos rfl, if_pos hkey.symm] at hhead
        exact Option.some.inj hhead
      refine congrArg₂ List.cons (Prod.ext hkey hvalue) (ih hnodup hrest fun key => ?_)
      by_cases hk : p.1 = key
      · -- the key of the head stands in neither of the rests
        have hnone : get? rest key = none := get?_eq_none_iff.2 (hk ▸ hp)
        have hnone' : get? more key = none := get?_eq_none_iff.2 (hrest ▸ (hk ▸ hp : key ∉ keys rest))
        rw [hnone, hnone']
      · have hlater := hget key
        rwa [get?, get?, if_neg hk, if_neg (hkey ▸ hk)] at hlater

/-! ## One change -/

/-- a change keeps the order of the keys; a new key goes last -/
theorem keys_alter (entries : Keyed κ ν) (key : κ) (change : Option ν → ν) :
    (entries.alter key change).keys = if key ∈ entries.keys then entries.keys else entries.keys ++ [key] := by
  induction entries with
  | nil => simp [alter, keys]
  | cons p rest ih =>
    unfold keys at ih ⊢
    rw [alter]
    by_cases hp : p.1 = key
    · simp [hp]
    · have hmem : key ∈ (p :: rest).map Prod.fst ↔ key ∈ rest.map Prod.fst := by
        rw [List.map_cons, List.mem_cons]
        exact or_iff_right (Ne.symm hp)
      rw [if_neg hp, List.map_cons, ih, if_congr hmem rfl rfl]
      split_ifs <;> simp

theorem nodup_keys_alter {entries : Keyed κ ν} (h : entries.keys.Nodup) (key : κ) (change : Option ν → ν) :
    (entries.alter key change).keys.Nodup := by
  rw [keys_alter]
  split_ifs with hm
  · exact h
  · exact List.Nodup.append h (List.nodup_singleton key) (by simpa using hm)

/-- a change is seen under its own key only -/
theorem get?_alter (entries : Keyed κ ν) (key other : κ) (change : Option ν → ν) :
    (entries.alter key change).get? other =
      if key = other then some (change (entries.get? key)) else entries.get? other := by
  induction entries with
  | nil => simp [alter, get?]
  | cons p rest ih =>
    rw [alter]
    by_cases hp : p.1 = key
    · by_cases hk : key = other <;> simp [get?, hp, hk]
    · rw [if_neg hp, get?, ih]
      by_cases hk : key = other
      · subst hk
        simp [get?, hp]
      · simp [get?, hk]

/-- an entry after a change is one of the old entries, or the changed one with its new value -/
theorem mem_alter {entries : Keyed κ ν} {key : κ} {change : Option ν → ν} {p : κ × ν}
    (h : p ∈ entries.alter key change) :
    p ∈ entries ∨ p = (key, change none) ∨ ∃ old, (key, old) ∈ entries ∧ p = (key, change (some old)) := by
  induction entries with
  | nil => exact .inr (.inl (by simpa [alter] using h))
  | cons q rest ih =>
    rw [alter] at h
    split_ifs at h with hq
    · rcases List.mem_cons.1 h with rfl | h
      · exact .inr (.inr ⟨q.2, by simp [← hq], by rw [hq]⟩)
      · exact .inl (List.mem_cons_of_mem q h)
    · rcases List.mem_cons.1 h with rfl | h
      · exact .inl List.mem_cons_self
      · rcases ih h with h | h | ⟨old, ho, h⟩
        · exact .inl (List.mem_cons_of_mem q h)
        · exact .inr (.inl h)
        · exact .inr (.inr ⟨old, List.mem_cons_of_mem q ho, h⟩)

/-- a change that makes the value under its key heavier by `n` makes the whole list heavier by `n` -/
theorem sum_alter (entries : Keyed κ ν) (key : κ) (change : Option ν → ν) (weight : ν → Nat) {n : Nat}
    (hchange : ∀ old, weight (change old) = (old.map weight).getD 0 + n) :
    ((entries.alter key change).map fun p => weight p.2).sum = (entries.map fun p => weight p.2).sum + n := by
  induction entries with
  | nil => simp [alter, hchange]
  | cons p rest ih =>
    rw [alter]
    split_ifs
    · simp only [List.map_cons, List.sum_cons, hchange, Option.map_some, Option.getD_some]
      omega
    · simp only [List.map_cons, List.sum_cons, ih]
      omega

/-! ## One list over another -/

/-- write several values one after the other -/
def putAll (entries new : Keyed κ ν) : Keyed κ ν := new.foldl (fun entries p => entries.put p.1 p.2) entries

@[simp] theorem putAll_nil (entries : Keyed κ ν) : entries.putAll [] = entries := rfl

@[simp] theorem putAll_cons (entries new : Keyed κ ν) (p : κ × ν) :
    entries.putAll (p :: new) = (entries.put p.1 p.2).putAll new := rfl

theorem put_cons (k key : κ) (v value : ν) (rest : Keyed κ ν) :
    put ((k, v) :: rest) key value = if k = key then (k, value) :: rest else (k, v) :: put rest key value := rfl

theorem put_of_notMem {entries : Keyed κ ν} {key : κ} (h : key ∉ entries.keys) (value : ν) :
    entries.put key value = entries ++ [(key, value)] := by
  induction entries with
  | nil => rfl
  | cons p rest ih =>
    simp only [keys, List.map_cons, List.mem_cons, not_or] at h
    rw [put_cons, if_neg (Ne.symm h.1), ih h.2]
    rfl

theorem putAll_of_nodup {entries new : Keyed κ ν} (h : (keys (entries ++ new)).Nodup) :
    entries.putAll new = entries ++ new := by
  induction new generalizing entries with
  | nil => simp
  | cons p rest ih =>
    have hnew : p.1 ∉ entries.keys := by
      intro hm
      simp only [keys, List.map_append, List.map_cons] at h
      exact (List.nodup_append.1 h).2.2 p.1 hm p.1 List.mem_cons_self rfl
    rw [putAll_cons, put_of_notMem hnew, ih]
    · simp
    · simpa [keys] using h

theorem putAll_nil_of_nodup {new : Keyed κ ν} (h : new.keys.Nodup) : putAll [] new = new := putAll_of_nodup h

theorem nodup_keys_putAll {entries : Keyed κ ν} (h : entries.keys.Nodup) (new : Keyed κ ν) :
    (entries.putAll new).keys.Nodup := by
  induction new generalizing entries with
  | nil => exact h
  | cons p rest ih => exact ih (nodup_keys_alter h p.1 _)

/-- **Old keys keep their places**, and the new ones follow in their own order. -/
theorem keys_putAll (entries : Keyed κ ν) {new : Keyed κ ν} (hnew : new.keys.Nodup) :
    (entries.putAll new).keys = entries.keys ++ new.keys.filter (· ∉ entries.keys) := by
  induction new generalizing entries with
  | nil => simp [keys]
  | cons p rest ih =>
    obtain ⟨hp, hrest⟩ := List.nodup_cons.1 hnew
    have hput : (entries.put p.1 p.2).keys = if p.1 ∈ entries.keys then entries.keys else entries.keys ++ [p.1] :=
      keys_alter entries p.1 _
    have hcons : keys (p :: rest) = p.1 :: keys rest := rfl
    rw [putAll_cons, ih _ hrest, hput, hcons]
    by_cases hm : p.1 ∈ entries.keys
    · simp [hm]
    · -- the key is new, so it goes last; it does not come again in the rest
      have hsame : (keys rest).filter (· ∉ entries.keys ++ [p.1]) = (keys rest).filter (· ∉ entries.keys) := by
        refine List.filter_congr fun k hk => ?_
        have hne : k ≠ p.1 := fun heq => hp (heq ▸ hk)
        simp [hne]
      rw [if_neg hm, hsame, List.filter_cons_of_pos (by simpa using hm), List.append_assoc, List.singleton_append]

/-- **What is found under a key** is the new value if there is one, else the old one. -/
theorem get?_putAll (entries : Keyed κ ν) {new : Keyed κ ν} (hnew : new.keys.Nodup) (key : κ) :
    (entries.putAll new).get? key = (new.get? key).or (entries.get? key) := by
  induction new generalizing entries with
  | nil => rfl
  | cons p rest ih =>
    obtain ⟨hp, hrest⟩ := List.nodup_cons.1 hnew
    rw [putAll_cons, ih _ hrest, put, get?_alter, get?]
    by_cases hk : p.1 = key
    · have hnone : get? rest key = none := get?_eq_none_iff.2 (hk ▸ hp)
      simp [hk, hnone]
    · simp [hk]

theorem putAll_assoc {xs ys zs : Keyed κ ν} (hx : xs.keys.Nodup) (hy : ys.keys.Nodup) (hz : zs.keys.Nodup) :
    (xs.putAll ys).putAll zs = xs.putAll (ys.putAll zs) := by
  have hyz : (ys.putAll zs).keys.Nodup := nodup_keys_putAll hy zs
  refine ext_of_keys (nodup_keys_putAll (nodup_keys_putAll hx ys) zs) ?_ fun key => ?_
  · rw [keys_putAll _ hz, keys_putAll xs hy, keys_putAll xs hyz, keys_putAll ys hz, List.filter_append, List.append_assoc,
      List.filter_filter]
    congr 2
    refine List.filter_congr fun k _ => ?_
    by_cases hk : k ∈ xs.keys <;> simp [hk]
  · rw [get?_putAll _ hz, get?_putAll _ hy, get?_putAll _ hyz, get?_putAll _ hz, Option.or_assoc]

theorem putAll_twice {xs ys : Keyed κ ν} (hx : xs.keys.Nodup) (hy : ys.keys.Nodup) :
    (xs.putAll ys).putAll ys = xs.putAll ys := by
  refine ext_of_keys (nodup_keys_putAll (nodup_keys_putAll hx ys) ys) ?_ fun key => ?_
  · -- after the first time none of the keys is new
    have hnone : ys.keys.filter (· ∉ (xs.putAll ys).keys) = [] := by
      refine List.filter_eq_nil_iff.2 fun k hk => ?_
      rw [keys_putAll xs hy]
      by_cases hm : k ∈ xs.keys <;> simp [hm, hk]
    rw [keys_putAll _ hy, hnone, List.append_nil]
  · rw [get?_putAll _ hy, get?_putAll _ hy, ← Option.or_assoc, Option.or_self]

end Arbor.Keyed

namespace Arbor

/-! ## First occurrences -/

/-- one more thing is a new one or is there already -/
theorem eraseDups_concat {α : Type} [DecidableEq α] (xs : List α) (x : α) :
    (xs ++ [x]).eraseDups = if x ∈ xs then xs.eraseDups else xs.eraseDups ++ [x] := by
  rw [List.eraseDups_append, List.removeAll, List.filter_cons, List.filter_nil]
  by_cases hx : x ∈ xs <;> simp [hx, List.eraseDups_cons]

theorem nodup_eraseDups {α : Type} [DecidableEq α] (xs : List α) : xs.eraseDups.Nodup := by
  induction xs using List.reverseRecOn with
  | nil => exact List.nodup_nil
  | append_singleton xs x ih =>
    rw [eraseDups_concat]
    split_ifs with hx
    · exact ih
    · refine ih.append (List.nodup_singleton x) ?_
      simpa using hx

end Arbor
