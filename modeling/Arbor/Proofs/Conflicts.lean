/-
Conflicts in a schema document. The entries are added one after the other to a catalog that keeps growing, and the first entry
that cannot be added ends the reading: one that names a field twice, or a kind that has an entry already. What is wrong with
a document can be said without a catalog, though. Its entries are `Consistent`, or there is a first one that `Clashes` with
those before it.

- `repeatedField?_eq_none_iff`, `repeatedField?_eq_some_iff`: the first repeated field of an entry.
- `addEntry_of_new`, `addEntry_of_clash`: one more entry after entries that were all added, as it goes with them or not.
- `addEntries_of_consistent`, `exists_clash_after`: so consistent entries are all added, and others have a first clash, both
  by induction on what is still to be added.
- `ofEntries_first_conflict`: which documents are accepted, what they give, and what is reported for the others.
-/
import Arbor.Proofs.Keyed
import Arbor.Schema.Catalog

namespace Arbor

namespace Catalog

/-- no kind has two entries, and no entry names a field twice -/
structure Consistent (entries : List SchemaEntry) : Prop where
  kinds : (entries.map SchemaEntry.kind).Nodup
  fields : ∀ e ∈ entries, (e.fields.map Field.name).Nodup

/-- what keeps an entry from being added after the ones before it; a field that is named twice is noticed before the kind -/
inductive Clashes (before : List SchemaEntry) (e : SchemaEntry) : SchemaConflict → Prop
  /-- `f` is the first field with the name of an earlier one -/
  | field {earlier later : List Field} {f : Field} (hfields : e.fields = earlier ++ f :: later)
      (hearlier : (earlier.map Field.name).Nodup) (hf : f.name ∈ earlier.map Field.name) :
      Clashes before e (.duplicateField e.kind f.name)
  | kind (hfields : (e.fields.map Field.name).Nodup) (hkind : e.kind ∈ before.map SchemaEntry.kind) :
      Clashes before e (.duplicateKind e.kind)

/-- the catalog that lists the entries as they stand -/
def listing (entries : List SchemaEntry) : Catalog := ⟨entries.map fun e => (e.kind, e.fields)⟩

/-! ## The fields of an entry -/

/-- a field is looked for among the ones before it -/
theorem any_name_iff {seen : List Field} {f : Field} :
    (seen.any fun g => g.name == f.name) = true ↔ f.name ∈ seen.map Field.name := by
  simp [List.any_eq_true, List.mem_map]

/-- after distinct fields nothing is repeated if and only if all of them stay distinct -/
theorem repeatedField?_after_distinct {seen fields : List Field} (hseen : (seen.map Field.name).Nodup) :
    repeatedField? seen fields = none ↔ ((seen ++ fields).map Field.name).Nodup := by
  induction fields generalizing seen with
  | nil => simpa [repeatedField?] using hseen
  | cons f rest ih =>
    have hmove : seen ++ f :: rest = (seen ++ [f]) ++ rest := by simp
    rw [repeatedField?]
    by_cases hf : f.name ∈ seen.map Field.name
    · rw [if_pos (any_name_iff.2 hf)]
      simp only [reduceCtorEq, false_iff]
      intro hnodup
      rw [List.map_append, List.map_cons] at hnodup
      exact (List.nodup_append.1 hnodup).2.2 f.name hf f.name List.mem_cons_self rfl
    · have hlonger : ((seen ++ [f]).map Field.name).Nodup := by
        rw [List.map_append]
        exact List.Nodup.append hseen (List.nodup_singleton f.name) (by simpa using hf)
      rw [if_neg (mt any_name_iff.1 hf), ih hlonger, hmove]

theorem repeatedField?_eq_none_iff {fields : List Field} :
    repeatedField? [] fields = none ↔ (fields.map Field.name).Nodup :=
  @repeatedField?_after_distinct [] fields List.nodup_nil

/-- the repeated field that is found is the first one -/
theorem repeatedField?_eq_some_iff {seen fields : List Field} {f : Field} :
    repeatedField? seen fields = some f ↔ ∃ earlier later, fields = earlier ++ f :: later ∧
      repeatedField? seen earlier = none ∧ f.name ∈ (seen ++ earlier).map Field.name := by
  induction fields generalizing seen with
  | nil => simp [repeatedField?]
  | cons g rest ih =>
    rw [repeatedField?]
    by_cases hg : g.name ∈ seen.map Field.name
    · rw [if_pos (any_name_iff.2 hg)]
      constructor
      · intro hfound
        cases hfound
        exact ⟨[], rest, rfl, rfl, by simpa using hg⟩
      · rintro ⟨earlier, later, hsplit, hnone, -⟩
        cases earlier with
        | nil => rw [(List.cons.inj hsplit).1]
        | cons h more =>
          -- what comes before the field would be repeated already
          rw [← (List.cons.inj hsplit).1, repeatedField?, if_pos (any_name_iff.2 hg)] at hnone
          cases hnone
    · rw [if_neg (mt any_name_iff.1 hg), ih]
      constructor
      · rintro ⟨earlier, later, rfl, hnone, hf⟩
        refine ⟨g :: earlier, later, rfl, ?_, by simpa using hf⟩
        rwa [repeatedField?, if_neg (mt any_name_iff.1 hg)]
      · rintro ⟨earlier, later, hsplit, hnone, hf⟩
        cases earlier with
        | nil =>
          rw [(List.cons.inj hsplit).1, ← List.append_nil seen] at hg
          exact absurd hf hg
        | cons h more =>
          obtain ⟨rfl, rfl⟩ := List.cons.inj hsplit
          rw [repeatedField?, if_neg (mt any_name_iff.1 hg)] at hnone
          exact ⟨more, later, rfl, hnone, by simpa using hf⟩

/-! ## One entry -/

theorem consistent_nil : Consistent [] := ⟨List.nodup_nil, by simp⟩

theorem consistent_concat {done : List SchemaEntry} {e : SchemaEntry} :
    Consistent (done ++ [e]) ↔
      Consistent done ∧ (e.fields.map Field.name).Nodup ∧ e.kind ∉ done.map SchemaEntry.kind := by
  constructor
  · rintro ⟨hkinds, hfields⟩
    rw [List.map_append] at hkinds
    obtain ⟨hdone, -, hnew⟩ := List.nodup_append.1 hkinds
    refine ⟨⟨hdone, fun d hd => hfields d (by simp [hd])⟩, hfields e (by simp), fun hm => ?_⟩
    exact hnew e.kind hm e.kind (by simp) rfl
  · rintro ⟨⟨hkinds, hfields⟩, he, hnew⟩
    refine ⟨?_, fun d hd => ?_⟩
    · rw [List.map_append]
      exact List.Nodup.append hkinds (List.nodup_singleton e.kind) (by simpa using hnew)
    · rcases List.mem_append.1 hd with hd | hd
      · exact hfields d hd
      · rwa [List.mem_singleton.1 hd]

theorem keys_listing (done : List SchemaEntry) : (listing done).entries.keys = done.map SchemaEntry.kind := by
  simp [listing, Keyed.keys]

theorem insert_listing {done : List SchemaEntry} {e : SchemaEntry} (hnew : e.kind ∉ done.map SchemaEntry.kind) :
    (listing done).insert e.kind e.fields = listing (done ++ [e]) := by
  rw [insert, Keyed.put_of_notMem (by rwa [keys_listing])]
  simp [listing]

/-- an entry that names no field twice and has a new kind is added, and it comes last -/
theorem addEntry_of_new {done : List SchemaEntry} {e : SchemaEntry} (hfields : (e.fields.map Field.name).Nodup)
    (hnew : e.kind ∉ done.map SchemaEntry.kind) : (listing done).addEntry e = .ok (listing (done ++ [e])) := by
  have hnone : ¬ ((listing done).get? e.kind).isSome = true := by
    rwa [get?, Keyed.isSome_get?_iff, keys_listing]
  rw [addEntry, repeatedField?_eq_none_iff.2 hfields]
  simp only [if_neg hnone, insert_listing hnew]

/-- an entry that clashes is reported with what it clashes with -/
theorem addEntry_of_clash {done : List SchemaEntry} {e : SchemaEntry} {x : SchemaConflict} (h : Clashes done e x) :
    (listing done).addEntry e = .error x := by
  cases h with
  | @field earlier later f hfields hearlier hf =>
    have hfound : repeatedField? [] e.fields = some f :=
      repeatedField?_eq_some_iff.2 ⟨earlier, later, hfields, repeatedField?_eq_none_iff.2 hearlier, hf⟩
    rw [addEntry, hfound]
  | kind hfields hkind =>
    have hthere : ((listing done).get? e.kind).isSome = true := by
      rwa [get?, Keyed.isSome_get?_iff, keys_listing]
    rw [addEntry, repeatedField?_eq_none_iff.2 hfields]
    simp only [if_pos hthere]

/-- an entry names no field twice and has a new kind, or it clashes -/
theorem new_or_clash (done : List SchemaEntry) (e : SchemaEntry) :
    ((e.fields.map Field.name).Nodup ∧ e.kind ∉ done.map SchemaEntry.kind) ∨ ∃ x, Clashes done e x := by
  cases hfound : repeatedField? [] e.fields with
  | none =>
    have hfields : (e.fields.map Field.name).Nodup := repeatedField?_eq_none_iff.1 hfound
    by_cases hkind : e.kind ∈ done.map SchemaEntry.kind
    · exact .inr ⟨_, .kind hfields hkind⟩
    · exact .inl ⟨hfields, hkind⟩
  | some f =>
    obtain ⟨earlier, later, hfields, hnone, hf⟩ := repeatedField?_eq_some_iff.1 hfound
    exact .inr ⟨_, .field hfields (repeatedField?_eq_none_iff.1 hnone) hf⟩

/-! ## A whole document -/

theorem Consistent.of_append {done rest : List SchemaEntry} (h : Consistent (done ++ rest)) : Consistent done := by
  obtain ⟨hkinds, hfields⟩ := h
  rw [List.map_append] at hkinds
  exact ⟨(List.nodup_append.1 hkinds).1, fun e he => hfields e (List.mem_append_left rest he)⟩

/-- consistent entries are all added -/
theorem addEntries_of_consistent {done rest : List SchemaEntry} (h : Consistent (done ++ rest)) :
    rest.foldlM addEntry (listing done) = .ok (listing (done ++ rest)) := by
  induction rest generalizing done with
  | nil => simp [pure, Except.pure]
  | cons e rest ih =>
    have hmove : done ++ e :: rest = (done ++ [e]) ++ rest := by simp
    rw [hmove] at h ⊢
    obtain ⟨-, hfields, hnew⟩ := consistent_concat.1 h.of_append
    rw [List.foldlM_cons, addEntry_of_new hfields hnew]
    exact ih h

/-- after consistent entries others that do not go with them have a first one that clashes -/
theorem exists_clash_after {done rest : List SchemaEntry} (hdone : Consistent done) (h : ¬ Consistent (done ++ rest)) :
    ∃ before e after x, rest = before ++ e :: after ∧ Consistent (done ++ before) ∧ Clashes (done ++ before) e x := by
  induction rest generalizing done with
  | nil => exact absurd (by simpa using hdone) h
  | cons e rest ih =>
    rcases new_or_clash done e with ⟨hfields, hnew⟩ | ⟨x, hx⟩
    · have hnext : Consistent (done ++ [e]) := consistent_concat.2 ⟨hdone, hfields, hnew⟩
      obtain ⟨before, d, after, x, rfl, hbefore, hx⟩ := ih hnext (by simpa using h)
      exact ⟨e :: before, d, after, x, rfl, by simpa using hbefore, by simpa using hx⟩
    · exact ⟨[], e, rest, x, rfl, by simpa using hdone, by simpa using hx⟩

theorem exists_first_clash {entries : List SchemaEntry} (h : ¬ Consistent entries) :
    ∃ before e after x, entries = before ++ e :: after ∧ Consistent before ∧ Clashes before e x :=
  exists_clash_after consistent_nil h

theorem ofEntries_of_consistent {entries : List SchemaEntry} (h : Consistent entries) :
    ofEntries entries = .ok (listing entries) :=
  @addEntries_of_consistent [] entries h

theorem ofEntries_of_clash {before after : List SchemaEntry} {e : SchemaEntry} {x : SchemaConflict}
    (hbefore : Consistent before) (hx : Clashes before e x) : ofEntries (before ++ e :: after) = .error x := by
  have hfirst : before.foldlM addEntry empty = .ok (listing before) := ofEntries_of_consistent hbefore
  rw [ofEntries, List.foldlM_append, hfirst]
  show (e :: after).foldlM addEntry (listing before) = .error x
  rw [List.foldlM_cons, addEntry_of_clash hx]
  rfl

theorem ofEntries_eq_ok_iff {entries : List SchemaEntry} {c : Catalog} :
    ofEntries entries = .ok c ↔ Consistent entries ∧ c = listing entries := by
  by_cases h : Consistent entries
  · rw [ofEntries_of_consistent h]
    simp [h, eq_comm]
  · obtain ⟨before, e, after, x, rfl, hbefore, hx⟩ := exists_first_clash h
    rw [ofEntries_of_clash hbefore hx]
    simp [h]

theorem ofEntries_eq_error_iff {entries : List SchemaEntry} {x : SchemaConflict} :
    ofEntries entries = .error x ↔
      ∃ before e after, entries = before ++ e :: after ∧ Consistent before ∧ Clashes before e x := by
  constructor
  · intro herror
    have h : ¬ Consistent entries := by
      intro h
      rw [ofEntries_of_consistent h] at herror
      cases herror
    obtain ⟨before, e, after, y, rfl, hbefore, hy⟩ := exists_first_clash h
    rw [ofEntries_of_clash hbefore hy] at herror
    cases herror
    exact ⟨before, e, after, rfl, hbefore, hy⟩
  · rintro ⟨before, e, after, rfl, hbefore, hx⟩
    exact ofEntries_of_clash hbefore hx

/-! ## Main result -/

/-- **The first conflict of a schema document.** For every list of entries:
- it makes a catalog if and only if no kind has two entries and no entry names a field twice;
- the catalog has the entries in their order, each with its own fields, as they are and in their order;
- otherwise the conflict is that of the first entry that names a field twice or repeats a kind. It is that entry's first field
  with the name of an earlier one, if there is such a field, and the entry's kind if there is none. -/
theorem ofEntries_first_conflict (entries : List SchemaEntry) :
    ((∃ c, ofEntries entries = .ok c) ↔
      (entries.map SchemaEntry.kind).Nodup ∧ ∀ e ∈ entries, (e.fields.map Field.name).Nodup) ∧
    (∀ c, ofEntries entries = .ok c → c.entries = entries.map fun e => (e.kind, e.fields)) ∧
    ∀ x, ofEntries entries = .error x ↔
      ∃ before e after, entries = before ++ e :: after ∧ Consistent before ∧ Clashes before e x := by
  refine ⟨⟨?_, ?_⟩, fun c hc => ?_, fun x => ofEntries_eq_error_iff⟩
  · rintro ⟨c, hc⟩
    obtain ⟨⟨hkinds, hfields⟩, -⟩ := ofEntries_eq_ok_iff.1 hc
    exact ⟨hkinds, hfields⟩
  · rintro ⟨hkinds, hfields⟩
    exact ⟨listing entries, ofEntries_of_consistent ⟨hkinds, hfields⟩⟩
  · obtain ⟨-, rfl⟩ := ofEntries_eq_ok_iff.1 hc
    rfl

/-- two entries that go together, and two more; the third repeats a kind and two fields, the fourth a kind and a field -/
def tangledEntries : List SchemaEntry :=
  [⟨"Block", [⟨"body", .many⟩, ⟨"label", .optional⟩]⟩, ⟨"If", [⟨"test", .single⟩, ⟨"then", .someOf⟩]⟩,
    ⟨"Block", [⟨"body", .many⟩, ⟨"test", .single⟩, ⟨"test", .optional⟩, ⟨"body", .single⟩]⟩,
    ⟨"If", [⟨"test", .single⟩, ⟨"test", .single⟩]⟩]

/-- Of all that is wrong, the field `test` of the third entry is reported: it is the first one there that comes again, and the
kind of the entry is not looked at. An entry with distinct fields and a kind that was there is reported by its kind, and the
first two entries alone make a catalog. -/
theorem ofEntries_first_conflict_tangled :
    ofEntries tangledEntries = .error (.duplicateField "Block" "test") ∧
    ofEntries (tangledEntries.take 2 ++ [⟨"If", [⟨"else", .optional⟩]⟩]) = .error (.duplicateKind "If") ∧
    ∃ c, ofEntries (tangledEntries.take 2) = .ok c ∧
      c.entries = [("Block", [⟨"body", .many⟩, ⟨"label", .optional⟩]), ("If", [⟨"test", .single⟩, ⟨"then", .someOf⟩])] := by
  have hbefore : Consistent (tangledEntries.take 2) := ⟨by decide, by decide⟩
  refine ⟨?_, ?_, ?_⟩
  · refine ((ofEntries_first_conflict tangledEntries).2.2 _).2 ⟨_, _, _, rfl, hbefore, ?_⟩
    exact @Clashes.field _ _ [⟨"body", .many⟩, ⟨"test", .single⟩] [⟨"body", .single⟩] ⟨"test", .optional⟩ rfl (by decide)
      (by decide)
  · exact ((ofEntries_first_conflict _).2.2 _).2 ⟨_, _, [], rfl, hbefore, .kind (by decide) (by decide)⟩
  · obtain ⟨c, hc⟩ := (ofEntries_first_conflict (tangledEntries.take 2)).1.2 ⟨by decide, by decide⟩
    exact ⟨c, hc, (ofEntries_first_conflict _).2.1 c hc⟩

end Catalog

end Arbor
