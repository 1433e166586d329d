/-
The name list over whole runs. A run is any list of calls, with look-ups in between the calls that intern, and what it answers
is settled by the strings alone: the symbol of a string is the number of different strings that were interned before its first
occurrence (`place`), and nothing that comes later changes this number. It is less than the number of all different strings, so
symbols fit into 32 bits as long as there are fewer than 2^32 of these.

- `Lists`: the name list holds the first occurrences of the strings interned so far.
- `call_lists`, `run_lists`: one call keeps this and answers as the strings say, and so does a run.
- `symbols_stable_injective`: every answer of a run, and the laws that hold after it.
-/
import Mathlib.Data.Finset.Card
import Mathlib.Data.List.TakeWhile
import Arbor.Proofs.Records

namespace Arbor

namespace Names

/-! ## Runs -/

/-- what a name list is asked to do -/
inductive Call where
  | intern (s : String)
  | find (s : String)
  | resolve (symbol : Symbol)
  | list
  deriving DecidableEq, Repr

/-- what a call answers -/
inductive Answer where
  | issued (symbol : Symbol)
  | found (symbol : Option Symbol)
  | resolved (s : Option String)
  | listed (entries : List (Symbol × String))
  deriving DecidableEq, Repr

/-- one call: the names after it, and its answer -/
def call (names : Names) : Call → Names × Answer
  | .intern s => ((names.intern s).1, .issued (names.intern s).2)
  | .find s => (names, .found (names.find? s))
  | .resolve symbol => (names, .resolved (names.resolve? symbol))
  | .list => (names, .listed names.toList)

/-- a list of calls, one after the other: the names after them, and all answers -/
def run (names : Names) : List Call → Names × List Answer
  | [] => (names, [])
  | c :: rest =>
    let next := names.call c
    let after := next.1.run rest
    (after.1, next.2 :: after.2)

/-- the strings that the calls intern, in order and with repetitions -/
def interned (calls : List Call) : List String :=
  calls.filterMap fun
    | .intern s => some s
    | _ => none

/-! ## What the strings say -/

/-- the number of different strings before the first occurrence of a string -/
def place (strings : List String) (s : String) : Nat := (strings.takeWhile fun t => t ≠ s).toFinset.card

/-- what a call has to answer after the given strings -/
def Call.answer (strings : List String) : Call → Answer
  | .intern s => .issued (place strings s)
  | .find s => .found (if s ∈ strings then some (place strings s) else none)
  | .resolve symbol => .resolved (strings.find? fun s => place strings s = symbol)
  | .list => .listed (strings.eraseDups.zipIdx.map Prod.swap)

theorem length_eraseDups (strings : List String) : strings.eraseDups.length = strings.toFinset.card := by
  rw [← List.toFinset_card_of_nodup (nodup_eraseDups strings)]
  refine congrArg Finset.card (Finset.ext fun s => ?_)
  simp

theorem place_of_notMem {strings : List String} {s : String} (h : s ∉ strings) :
    place strings s = strings.eraseDups.length := by
  have hall : (strings.takeWhile fun t => t ≠ s) = strings :=
    List.takeWhile_eq_self_iff.2 fun t ht => decide_eq_true fun heq => h (heq ▸ ht)
  rw [place, hall, length_eraseDups]

theorem place_split {before after : List String} {s : String} (hnew : s ∉ before) :
    place (before ++ s :: after) s = before.eraseDups.length := by
  have hother : ∀ t ∈ before, decide (t ≠ s) = true := fun t ht => decide_eq_true fun heq => hnew (heq ▸ ht)
  rw [place, List.takeWhile_append_of_pos hother, List.takeWhile_cons_of_neg (by simp), List.append_nil, length_eraseDups]

/-- among the first occurrences a string stands at its place -/
theorem getElem?_place {strings : List String} {s : String} (h : s ∈ strings) :
    strings.eraseDups[place strings s]? = some s := by
  obtain ⟨before, after, rfl, hnew⟩ := List.eq_append_cons_of_mem h
  have hrest : (s :: after).removeAll before = s :: after.removeAll before := by
    rw [List.cons_removeAll, if_pos (by simpa using hnew)]
  rw [place_split hnew, List.eraseDups_append, hrest, List.eraseDups_cons]
  simp

/-! ## Lists of first occurrences -/

/-- the names are the first occurrences of the strings -/
def Lists (names : Names) (strings : List String) : Prop := names.strings.toList = strings.eraseDups

namespace Lists

variable {names : Names} {strings : List String}

theorem toList_strings (h : names.Lists strings) : names.strings.toList = strings.eraseDups := h

theorem distinct (h : names.Lists strings) : names.Distinct := by
  rw [Distinct, h.toList_strings]
  exact nodup_eraseDups strings

theorem mem_iff (h : names.Lists strings) {s : String} : s ∈ names.strings ↔ s ∈ strings := by
  rw [← Array.mem_toList_iff, h.toList_strings, List.mem_eraseDups]

theorem resolve?_eq (h : names.Lists strings) (symbol : Symbol) : names.resolve? symbol = strings.eraseDups[symbol]? := by
  rw [resolve?, ← Array.getElem?_toList, h.toList_strings]

/-- a symbol stands for the string whose place it is -/
theorem resolve?_eq_some_iff (h : names.Lists strings) {symbol : Symbol} {s : String} :
    names.resolve? symbol = some s ↔ s ∈ strings ∧ place strings s = symbol := by
  have hplace : ∀ {t : String}, t ∈ strings → names.resolve? (place strings t) = some t := fun ht =>
    (h.resolve?_eq _).trans (getElem?_place ht)
  constructor
  · intro hs
    have hmem : s ∈ strings := by
      rw [h.resolve?_eq] at hs
      exact List.mem_eraseDups.1 (List.mem_of_getElem? hs)
    exact ⟨hmem, resolve?_inj h.distinct (hplace hmem) hs⟩
  · rintro ⟨hmem, rfl⟩
    exact hplace hmem

theorem find?_eq (h : names.Lists strings) (s : String) :
    names.find? s = if s ∈ strings then some (place strings s) else none := by
  split_ifs with hs
  · exact (find?_eq_some_iff h.distinct).2 (h.resolve?_eq_some_iff.2 ⟨hs, rfl⟩)
  · rw [Names.find?, Array.idxOf?_eq_none_iff]
    exact fun hmem => hs (h.mem_iff.1 hmem)

theorem resolve?_eq_find? (h : names.Lists strings) (symbol : Symbol) :
    names.resolve? symbol = strings.find? fun s => place strings s = symbol := by
  cases hfound : strings.find? fun s => place strings s = symbol with
  | none =>
    refine Option.eq_none_iff_forall_ne_some.2 fun s hs => ?_
    obtain ⟨hmem, hplace⟩ := h.resolve?_eq_some_iff.1 hs
    exact absurd (decide_eq_true hplace) (List.find?_eq_none.1 hfound s hmem)
  | some s =>
    have hplace : place strings s = symbol := by simpa using List.find?_some hfound
    exact h.resolve?_eq_some_iff.2 ⟨List.mem_of_find?_eq_some hfound, hplace⟩

theorem toList_eq (h : names.Lists strings) : names.toList = strings.eraseDups.zipIdx.map Prod.swap := by
  rw [Names.toList, h.toList_strings]
  rfl

/-- interning a string gives its place and lists it, too -/
theorem intern (h : names.Lists strings) (s : String) :
    (names.intern s).2 = place strings s ∧ (names.intern s).1.Lists (strings ++ [s]) := by
  rw [Lists, eraseDups_concat, Names.intern, h.find?_eq]
  by_cases hs : s ∈ strings
  · simp only [if_pos hs, true_and]
    exact h
  · simp only [if_neg hs]
    refine ⟨?_, ?_⟩
    · rw [place_of_notMem hs, ← h.toList_strings, Array.length_toList]
    · rw [Array.toList_push, h.toList_strings]

end Lists

/-! ## Steps and runs -/

theorem interned_append (earlier later : List Call) : interned (earlier ++ later) = interned earlier ++ interned later :=
  List.filterMap_append

theorem run_append (names : Names) (earlier later : List Call) :
    names.run (earlier ++ later) =
      (((names.run earlier).1.run later).1, (names.run earlier).2 ++ ((names.run earlier).1.run later).2) := by
  induction earlier generalizing names with
  | nil => rfl
  | cons c rest ih => simp [run, ih]

theorem length_answers (names : Names) (calls : List Call) : (names.run calls).2.length = calls.length := by
  induction calls generalizing names with
  | nil => rfl
  | cons c rest ih => simp [run, ih]

/-- **One call.** It answers as the strings before it say. -/
theorem call_lists {names : Names} {strings : List String} (h : names.Lists strings) (c : Call) :
    (names.call c).2 = c.answer strings ∧ (names.call c).1.Lists (strings ++ interned [c]) := by
  cases c with
  | intern s =>
    obtain ⟨hsymbol, hlists⟩ := h.intern s
    exact ⟨congrArg Answer.issued hsymbol, hlists⟩
  | find s =>
    refine ⟨congrArg Answer.found (h.find?_eq s), ?_⟩
    simpa [interned, call] using h
  | resolve symbol =>
    refine ⟨congrArg Answer.resolved (h.resolve?_eq_find? symbol), ?_⟩
    simpa [interned, call] using h
  | list =>
    refine ⟨congrArg Answer.listed h.toList_eq, ?_⟩
    simpa [interned, call] using h

/-- **All calls.** -/
theorem run_lists {names : Names} {strings : List String} (h : names.Lists strings) (calls : List Call) :
    (names.run calls).1.Lists (strings ++ interned calls) := by
  induction calls generalizing names strings with
  | nil => simpa [interned, run] using h
  | cons c rest ih =>
    have hrest := ih (call_lists h c).2
    rwa [List.append_assoc, ← interned_append] at hrest

theorem lists_empty : empty.Lists [] := rfl

/-- the names after a run from the start -/
theorem run_empty_lists (calls : List Call) : (empty.run calls).1.Lists (interned calls) := run_lists lists_empty calls

/-- every call of a run is answered as the strings before it say -/
theorem answer_at {calls : List Call} {i : Nat} {c : Call} (h : calls[i]? = some c) :
    (empty.run calls).2[i]? = some (c.answer (interned (calls.take i))) := by
  obtain ⟨hi, rfl⟩ := List.getElem?_eq_some_iff.1 h
  have hsplit : calls = calls.take i ++ calls[i] :: calls.drop (i + 1) := by
    rw [List.getElem_cons_drop, List.take_append_drop]
  have hlength : (empty.run (calls.take i)).2.length = i := by
    rw [length_answers, List.length_take, Nat.min_eq_left (Nat.le_of_lt hi)]
  have hanswer := (call_lists (run_empty_lists (calls.take i)) calls[i]).1
  conv_lhs => rw [hsplit, run_append]
  rw [List.getElem?_append_right (Nat.le_of_eq hlength), hlength, Nat.sub_self]
  exact congrArg some hanswer

/-! ## Main result -/

/-- what is interned later does not move a string -/
theorem place_append {strings : List String} {s : String} (h : s ∈ strings) (later : List String) :
    place (strings ++ later) s = place strings s := by
  obtain ⟨before, after, rfl, hnew⟩ := List.eq_append_cons_of_mem h
  rw [List.append_assoc, List.cons_append, place_split hnew, place_split hnew]

/-- the call that interns a string is answered with its place among all strings of the run -/
theorem issued_place {calls : List Call} {i : Nat} {s : String} (h : calls[i]? = some (.intern s)) :
    s ∈ interned calls ∧ (empty.run calls).2[i]? = some (.issued (place (interned calls) s)) := by
  have hmem : s ∈ interned calls := List.mem_filterMap.2 ⟨_, List.mem_of_getElem? h, rfl⟩
  refine ⟨hmem, ?_⟩
  rw [answer_at h, Call.answer]
  have hsplit : interned calls = interned (calls.take i) ++ s :: interned (calls.drop (i + 1)) := by
    obtain ⟨hi, hc⟩ := List.getElem?_eq_some_iff.1 h
    conv_lhs => rw [← List.take_append_drop i calls, List.drop_eq_getElem_cons hi, hc, interned_append]
    rfl
  by_cases hs : s ∈ interned (calls.take i)
  · rw [hsplit, place_append hs]
  · rw [hsplit, place_split hs, place_of_notMem hs]

/-- **Symbols are stable and tell strings apart.** For every list of calls to a name list that is empty at first:
- every call is answered as the strings interned before it say, whatever look-ups stand in between;
- a string is found under a symbol if and only if the symbol resolves to the string;
- a call that interns a string returns the number of different strings that are interned before its first occurrence, which is
  less than the number of all different strings, and after any later calls this symbol still resolves to the string;
- two calls that intern strings return the same symbol if and only if the strings are equal;
- the names are listed in the order of their first occurrences, numbered from 0. -/
theorem symbols_stable_injective (calls : List Call) :
    let names := (empty.run calls).1
    let answers := (empty.run calls).2
    let strings := interned calls
    (∀ (i : Nat) (c : Call), calls[i]? = some c → answers[i]? = some (c.answer (interned (calls.take i)))) ∧
    (∀ (s : String) (k : Symbol), names.find? s = some k ↔ names.resolve? k = some s) ∧
    (∀ (i : Nat) (s : String), calls[i]? = some (.intern s) →
      answers[i]? = some (.issued (place strings s)) ∧ place strings s < strings.toFinset.card ∧
      ∀ later, (empty.run (calls ++ later)).1.resolve? (place strings s) = some s) ∧
    (∀ (i j : Nat) (s t : String) (k l : Symbol), calls[i]? = some (.intern s) → answers[i]? = some (.issued k) →
      calls[j]? = some (.intern t) → answers[j]? = some (.issued l) → (k = l ↔ s = t)) ∧
    names.toList = strings.eraseDups.zipIdx.map Prod.swap := by
  intro names answers strings
  have hlists : names.Lists strings := run_empty_lists calls
  have hresolve : ∀ {s}, s ∈ strings → names.resolve? (place strings s) = some s := fun hs =>
    hlists.resolve?_eq_some_iff.2 ⟨hs, rfl⟩
  refine ⟨fun i c => answer_at, fun s k => find?_eq_some_iff hlists.distinct, fun i s hi => ?_,
    fun i j s t k l hs hk ht hl => ?_, hlists.toList_eq⟩
  · obtain ⟨hmem, hanswer⟩ := issued_place hi
    refine ⟨hanswer, ?_, fun later => ?_⟩
    · rw [← length_eraseDups]
      exact (List.getElem?_eq_some_iff.1 (getElem?_place hmem)).1
    · refine (run_empty_lists (calls ++ later)).resolve?_eq_some_iff.2 ?_
      rw [interned_append]
      exact ⟨List.mem_append_left _ hmem, place_append hmem _⟩
  · obtain ⟨hsm, hsa⟩ := issued_place hs
    obtain ⟨htm, hta⟩ := issued_place ht
    have hkp : k = place strings s := by simpa using hk.symm.trans hsa
    have hlp : l = place strings t := by simpa using hl.symm.trans hta
    constructor
    · intro heq
      have hsame : some s = some t := by rw [← hresolve hsm, ← hresolve htm, ← hkp, ← hlp, heq]
      exact Option.some.inj hsame
    · rintro rfl
      rw [hkp, hlp]

/-- names that come again, with look-ups before and after they are known -/
def mixedCalls : List Call :=
  [.find "left", .intern "left", .resolve 1, .intern "right", .intern "left", .find "left", .resolve 1, .list]

/-- the second name was not known at first; the first one kept its symbol when it came again -/
theorem symbols_stable_injective_mixed :
    (empty.run mixedCalls).2 = [.found none, .issued 0, .resolved none, .issued 1, .issued 0, .found (some 0),
      .resolved (some "right"), .listed [(0, "left"), (1, "right")]] ∧
    mixedCalls[4]? = some (.intern "left") ∧ place (interned mixedCalls) "left" = 0 ∧
    (∀ later, (empty.run (mixedCalls ++ later)).1.resolve? 0 = some "left") := by
  obtain ⟨-, -, hissued, -, -⟩ := symbols_stable_injective mixedCalls
  have hplace : place (interned mixedCalls) "left" = 0 := by decide +kernel
  have hcall : mixedCalls[4]? = some (.intern "left") := rfl
  refine ⟨by decide +kernel, hcall, hplace, fun later => ?_⟩
  rw [← hplace]
  exact (hissued 4 "left" hcall).2.2 later

end Names

end Arbor
