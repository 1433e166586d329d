/-
The histogram of kinds against the queries. The figures are counted along one walk, in a list of kinds that is altered at each
visit and sorted at the end; the queries walk again, and they compare symbols. Both read the same visits.

- `Tally.Counts.add`, `Tally.Counts.foldl`: what the tally says after some visits, for one visit more and then for all.
- `precedes_iff`: the sort goes by falling count and then by rising name, so kinds that stand once each are strictly ordered.
- `length_spots_of_ofValue`: through a schema that lists no field twice, a loaded tree is visited whole and each node once.
- `collect_agrees`: the figures of any document, and of a document that a command has loaded.
-/
import Arbor.Command.Stats
import Arbor.Proofs.Layers
import Arbor.Proofs.Overlay
import Arbor.Proofs.Preorder
import Arbor.Proofs.Queries
import Arbor.Proofs.Updates

namespace Arbor

namespace Command

/-! ## Counting -/

/-- how many of the visits are to nodes of the kind -/
def occurrences (visits : List Spot) (kind : String) : Nat := visits.countP fun x => x.ref.kind == kind

theorem occurrences_concat (visits : List Spot) (x : Spot) (kind : String) :
    occurrences (visits ++ [x]) kind = occurrences visits kind + if x.ref.kind = kind then 1 else 0 := by
  simp [occurrences, List.countP_append, List.countP_cons]

theorem occurrences_pos {visits : List Spot} {kind : String} :
    0 < occurrences visits kind ↔ ∃ x ∈ visits, x.ref.kind = kind := by
  simp [occurrences, List.countP_pos_iff]

/-- the tally is that of the visits -/
structure Tally.Counts (t : Tally) (visits : List Spot) : Prop where
  nodes : t.nodes = visits.length
  once : t.kinds.keys.Nodup
  entry : ∀ kind, t.kinds.get? kind = if occurrences visits kind = 0 then none else some (occurrences visits kind)
  sum : (t.kinds.map Prod.snd).sum = visits.length
  deepest : ∀ x ∈ visits, x.context.depth ≤ t.maxDepth
  attained : visits ≠ [] → ∃ x ∈ visits, x.context.depth = t.maxDepth
  shallow : visits = [] → t.maxDepth = 0

namespace Tally.Counts

theorem start : (⟨0, 0, []⟩ : Tally).Counts [] where
  nodes := rfl
  once := List.nodup_nil
  entry := fun _ => rfl
  sum := rfl
  deepest := by simp
  attained := fun h => absurd rfl h
  shallow := fun _ => rfl

/-- the entries are the kinds that occur, with how often they do -/
theorem mem_kinds_iff {t : Tally} {visits : List Spot} (h : t.Counts visits) {kind : String} {count : Nat} :
    (kind, count) ∈ t.kinds ↔ 0 < occurrences visits kind ∧ count = occurrences visits kind := by
  rw [← Keyed.get?_eq_some_iff h.once, h.entry]
  by_cases hzero : occurrences visits kind = 0
  · simp [hzero]
  · simp [hzero, Nat.pos_of_ne_zero, eq_comm]

/-- the deepest visit so far, or the new one -/
theorem attained_concat {t : Tally} {visits : List Spot} (h : t.Counts visits) (x : Spot) :
    ∃ y ∈ visits ++ [x], y.context.depth = max t.maxDepth x.context.depth := by
  by_cases hle : t.maxDepth ≤ x.context.depth
  · exact ⟨x, by simp, (Nat.max_eq_right hle).symm⟩
  · have hne : visits ≠ [] := by
      intro hnil
      have hzero := h.shallow hnil
      omega
    obtain ⟨y, hy, hdepth⟩ := h.attained hne
    exact ⟨y, List.mem_append_left _ hy, by omega⟩

/-- **One more visit.** -/
theorem add {t : Tally} {visits : List Spot} (h : t.Counts visits) (x : Spot) :
    (t.add x.ref x.context).Counts (visits ++ [x]) where
  nodes := by simp [Tally.add, h.nodes]
  once := Keyed.nodup_keys_alter h.once _ _
  entry := by
    intro kind
    simp only [Tally.add]
    rw [Keyed.get?_alter, h.entry, h.entry, occurrences_concat]
    by_cases hkind : x.ref.kind = kind
    · subst hkind
      by_cases hzero : occurrences visits x.ref.kind = 0 <;> simp [hzero]
    · simp [hkind]
  sum := by
    have hone : ∀ old : Option Nat, old.getD 0 + 1 = (old.map id).getD 0 + 1 := by simp
    rw [List.length_append, List.length_singleton, ← h.sum]
    exact Keyed.sum_alter t.kinds x.ref.kind _ id hone
  deepest := by
    intro y hy
    rcases List.mem_append.1 hy with hy | hy
    · exact (h.deepest y hy).trans (Nat.le_max_left _ _)
    · rw [List.mem_singleton] at hy
      subst hy
      exact Nat.le_max_right _ _
  attained := fun _ => h.attained_concat x
  shallow := by simp

theorem foldl {t : Tally} {before : List Spot} (h : t.Counts before) (visits : List Spot) :
    (visits.foldl (fun t x => t.add x.ref x.context) t).Counts (before ++ visits) := by
  induction visits generalizing t before with
  | nil => simpa using h
  | cons x rest ih => simpa using ih (h.add x)

end Tally.Counts

/-! ## Sorting -/

namespace KindCount

theorem precedes_iff {a b : KindCount} :
    a.precedes b = true ↔ b.count < a.count ∨ a.count = b.count ∧ ¬ b.kind < a.kind := by
  unfold precedes
  split_ifs with heq
  · rw [Bool.not_eq_true', decide_eq_false_iff_not]
    constructor
    · exact fun hkind => .inr ⟨heq, hkind⟩
    · rintro (hlt | ⟨-, hkind⟩)
      · omega
      · exact hkind
  · rw [decide_eq_true_iff]
    constructor
    · exact fun hlt => .inl hlt
    · rintro (hlt | ⟨hcount, -⟩)
      · exact hlt
      · exact absurd hcount heq

theorem precedes_trans (a b c : KindCount) (hab : a.precedes b = true) (hbc : b.precedes c = true) :
    a.precedes c = true := by
  rw [precedes_iff] at *
  rcases hab with hab | ⟨hab, hkind⟩
  · rcases hbc with hbc | ⟨hbc, -⟩
    · exact .inl (by omega)
    · exact .inl (by omega)
  · rcases hbc with hbc | ⟨hbc, hkind'⟩
    · exact .inl (by omega)
    · refine .inr ⟨hab.trans hbc, String.not_lt.2 ?_⟩
      exact String.le_trans (String.not_lt.1 hkind) (String.not_lt.1 hkind')

theorem precedes_total (a b : KindCount) : (a.precedes b || b.precedes a) = true := by
  rw [Bool.or_eq_true, precedes_iff, precedes_iff]
  rcases Nat.lt_trichotomy a.count b.count with hlt | heq | hlt
  · exact .inr (.inl hlt)
  · rcases String.le_total a.kind b.kind with hle | hle
    · exact .inl (.inr ⟨heq, String.not_lt.2 hle⟩)
    · exact .inr (.inr ⟨heq.symm, String.not_lt.2 hle⟩)
  · exact .inl (.inl hlt)

/-- the histogram: the kinds of a tally, sorted -/
def sorted (kinds : Keyed String Nat) : List KindCount :=
  (kinds.map fun p => KindCount.mk p.1 p.2).mergeSort precedes

theorem sorted_perm (kinds : Keyed String Nat) : (sorted kinds).Perm (kinds.map fun p => KindCount.mk p.1 p.2) :=
  List.mergeSort_perm _ _

theorem nodup_sorted {kinds : Keyed String Nat} (h : kinds.keys.Nodup) : ((sorted kinds).map KindCount.kind).Nodup := by
  rw [((sorted_perm kinds).map KindCount.kind).nodup_iff, List.map_map]
  exact h

theorem mem_sorted {kinds : Keyed String Nat} {k : KindCount} : k ∈ sorted kinds ↔ (k.kind, k.count) ∈ kinds := by
  rw [(sorted_perm kinds).mem_iff, List.mem_map]
  constructor
  · rintro ⟨p, hp, rfl⟩
    exact hp
  · intro hk
    exact ⟨_, hk, rfl⟩

theorem sum_sorted (kinds : Keyed String Nat) :
    ((sorted kinds).map KindCount.count).sum = (kinds.map Prod.snd).sum := by
  rw [((sorted_perm kinds).map KindCount.count).sum_nat, List.map_map]
  rfl

/-- **Kinds that stand once each are strictly ordered.** -/
theorem pairwise_sorted {kinds : Keyed String Nat} (h : kinds.keys.Nodup) :
    (sorted kinds).Pairwise fun a b => b.count < a.count ∨ a.count = b.count ∧ a.kind < b.kind := by
  have hsorted : (sorted kinds).Pairwise fun a b => a.precedes b = true :=
    List.pairwise_mergeSort precedes_trans precedes_total _
  have hdistinct : (sorted kinds).Pairwise fun a b => a.kind ≠ b.kind := List.pairwise_map.1 (nodup_sorted h)
  apply (hsorted.and hdistinct).imp
  rintro a b ⟨hle, hne⟩
  rcases precedes_iff.1 hle with hlt | ⟨heq, hkind⟩
  · exact .inl hlt
  · refine .inr ⟨heq, ?_⟩
    by_contra hnot
    exact hne (String.le_antisymm (String.not_lt.1 hkind) (String.not_lt.1 hnot))

end KindCount

/-! ## The figures -/

/-- the tally of all visits -/
def tallyOf (v : View) (root : Option NodeId) : Tally :=
  (v.spots root).foldl (fun t x => t.add x.ref x.context) ⟨0, 0, []⟩

/-- **The tally of a walk is that of its visits.** -/
theorem counts_tallyOf (v : View) (root : Option NodeId) : (tallyOf v root).Counts (v.spots root) :=
  Tally.Counts.start.foldl (v.spots root)

section Ends

variable {v : View} {root : Option NodeId}

theorem collect_eq {doc : Document} {schema : Schema} (h : View.Ends ⟨doc.tree, schema⟩ doc.tree.root) :
    let tally := tallyOf ⟨doc.tree, schema⟩ doc.tree.root
    Stats.collect doc schema = .ok ⟨tally.nodes, doc.tree.size, tally.maxDepth, doc.comments.length, doc.tokens.length,
      KindCount.sorted tally.kinds⟩ := by
  have hwalk := View.walkPath_descend h (fun x (t : Tally) => t.add x.ref x.context) ⟨0, 0, []⟩
  simp only [Stats.collect, hwalk, bind, Except.bind, pure, Except.pure]
  rfl

/-- a walk that keeps its visits keeps the spots -/
theorem visits_eq (h : v.Ends root) :
    v.walkPath root (fun ref ctx visits => (.descend, visits ++ [(⟨ref, ctx⟩ : Spot)])) [] = .ok (v.spots root) := by
  have hwalk := View.walkPath_descend h (fun x (visits : List Spot) => visits ++ [x]) []
  rw [hwalk, List.foldl_append_eq_append, List.nil_append, ← List.flatMap_def, List.flatMap_singleton']

/-- the nodes of a kind are found as often as the kind occurs among the visits -/
theorem length_findByKind (h : v.Ends root) (hd : v.tree.names.Distinct) (kind : String) :
    ∃ hits, v.findByKind root kind = .ok hits ∧ hits.length = occurrences (v.spots root) kind := by
  refine ⟨_, (View.findByKind_eq h hd kind).trans (View.findAll_filter h _), ?_⟩
  rw [List.length_map, ← List.countP_eq_length_filter, List.countP_map]
  rfl

end Ends

/-! ## Loaded documents -/

/-- **A loaded tree is visited whole**, and each node once, through its own schema if this lists no field twice. -/
theorem length_spots_of_ofValue {schema : Schema} (hs : schema.Distinct) {value : Json.Value} {t : Tree}
    (h : Tree.ofValue schema value = .ok t) : (View.spots ⟨t, schema⟩ t.root).length = t.size := by
  obtain ⟨hroot, records, hlaid, hreads⟩ := ofValue_lays h
  have hacyclic : View.Acyclic ⟨t, schema⟩ 0 := View.acyclic_of_strict (strict_of_ofValue h) hs 0
  obtain ⟨forest, hu, -, hids⟩ := hlaid.walks hs ⟨[], [], rfl, by simpa using hreads⟩ [Seat.top 0] rfl
  have hforest : forest = View.unfolding ⟨t, schema⟩ 0 := (hacyclic.unfolds_iff forest).1 hu
  calc (View.spots ⟨t, schema⟩ t.root).length
      = ((View.spots ⟨t, schema⟩ (some 0)).map Spot.ref).length := by rw [hroot, List.length_map]
    _ = forest.refs.length := by rw [View.spots, Forest.map_ref_spots, hforest]
    _ = (forest.refs.map NodeRef.id).length := (List.length_map _).symm
    _ = records.length := by rw [hids, List.length_range']
    _ = t.size := hreads.size_eq.symm

/-! ## Main result -/

/-- **The figures agree with the queries.** For every document whose tree was finished from a builder or loaded, and every schema
through which no node below the root lies below itself (shared nodes allowed), the figures can be collected, and:
- the number of nodes is what the count of the nodes below the root gives;
- no kind stands twice in the histogram; a kind stands there if and only if a node of this kind is visited, and its count is the
  number of nodes that the search for the kind finds;
- more frequent kinds stand before less frequent ones, and of equally frequent ones the lesser name stands first;
- the counts add up to the number of nodes;
- no visit has more ancestors than the depth says, and one has as many; without a visit it is 0.
For every document that a command loads, with the built-in schema or with a schema file laid over it, the figures can be
collected as well, and as many nodes are visited as are stored. -/
theorem collect_agrees :
    (∀ (doc : Document) (schema : Schema), doc.tree.Built →
      (∀ id ∈ doc.tree.root, View.Acyclic ⟨doc.tree, schema⟩ id) →
      let v : View := ⟨doc.tree, schema⟩
      let root := doc.tree.root
      ∃ stats visits, Stats.collect doc schema = .ok stats ∧
        v.walkPath root (fun ref ctx visits => (.descend, visits ++ [(⟨ref, ctx⟩ : Spot)])) [] = .ok visits ∧
        v.countNodes root = .ok stats.nodes ∧
        (stats.kinds.map KindCount.kind).Nodup ∧
        (∀ kind, kind ∈ stats.kinds.map KindCount.kind ↔ ∃ x ∈ visits, x.ref.kind = kind) ∧
        (∀ k ∈ stats.kinds, ∃ hits, v.findByKind root k.kind = .ok hits ∧ k.count = hits.length) ∧
        (stats.kinds.Pairwise fun a b => b.count < a.count ∨ a.count = b.count ∧ a.kind < b.kind) ∧
        (stats.kinds.map KindCount.count).sum = stats.nodes ∧
        (∀ x ∈ visits, x.context.ancestors.size ≤ stats.maxDepth) ∧
        (visits ≠ [] → ∃ x ∈ visits, x.context.ancestors.size = stats.maxDepth) ∧ (visits = [] → stats.maxDepth = 0)) ∧
    ∀ (sources : Sources) (file : String) (name : Option String) (input : Input), load sources file name = .ok input →
      ∃ stats, Stats.collect input.document input.schema = .ok stats ∧
        stats.nodes = stats.stored ∧ stats.stored = input.document.tree.size := by
  constructor
  · intro doc schema ht hacyclic v root
    have h : v.Ends root := ht.ends schema fun id hid => ⟨ht.root_lt_size id hid, hacyclic id hid⟩
    have hcounts := counts_tallyOf v root
    refine ⟨_, _, collect_eq h, visits_eq h, ?_, KindCount.nodup_sorted hcounts.once, ?_, ?_,
      KindCount.pairwise_sorted hcounts.once, ?_, hcounts.deepest, hcounts.attained, hcounts.shallow⟩
    · rw [View.countNodes_eq h, hcounts.nodes]
    · intro kind
      rw [List.mem_map, ← occurrences_pos]
      constructor
      · rintro ⟨k, hk, rfl⟩
        exact (hcounts.mem_kinds_iff.1 (KindCount.mem_sorted.1 hk)).1
      · intro hpos
        exact ⟨⟨kind, occurrences (v.spots root) kind⟩, KindCount.mem_sorted.2 (hcounts.mem_kinds_iff.2 ⟨hpos, rfl⟩), rfl⟩
    · intro k hk
      obtain ⟨hits, hfind, hlength⟩ := length_findByKind h ht.wellFormed.distinct k.kind
      exact ⟨hits, hfind, by rw [hlength, (hcounts.mem_kinds_iff.1 (KindCount.mem_sorted.1 hk)).2]⟩
    · rw [KindCount.sum_sorted, hcounts.sum, hcounts.nodes]
  · intro sources file name input hload
    obtain ⟨hs, value, hvalue⟩ := load_ofValue hload
    have ht : input.document.tree.Built := .loaded _ _ hvalue
    have h : input.view.Ends input.document.tree.root := ht.ends input.schema fun id hid =>
      ⟨ht.root_lt_size id hid, View.acyclic_of_strict (strict_of_ofValue hvalue) hs id⟩
    have hcounts := counts_tallyOf input.view input.document.tree.root
    exact ⟨_, collect_eq h, hcounts.nodes.trans (length_spots_of_ofValue hs hvalue), rfl⟩

/-- the labelled tree, without comments and tokens; the name in it is shared -/
def labelledDocument : Document := ⟨View.labelledView.tree, [], []⟩

/-- a program of a pair whose left half is a note -/
def programText : String :=
  "\x7b\"type\":\"Program\",\"range\":[0,9],\"body\":[\x7b\"type\":\"Pair\",\"range\":[1,8]," ++
    "\"left\":\x7b\"type\":\"Note\",\"range\":[2,4]\x7d\x7d]\x7d"

/-- the value of the text -/
def programValue : Json.Value :=
  .object [("body", .array [.object [("left", .object [("range", .array [.nat 2, .nat 4]), ("type", .string "Note")]),
    ("range", .array [.nat 1, .nat 8]), ("type", .string "Pair")]]), ("range", .array [.nat 0, .nat 9]),
    ("type", .string "Program")]

theorem parse_programText : Json.parse programText = .ok programValue := by decide +kernel

/-- a schema file for pairs, which the table does not know -/
def pairsText : String :=
  "[\x7b\"type\":\"Pair\",\"fields\":[\x7b\"name\":\"left\"\x7d,\x7b\"name\":\"right\"\x7d]\x7d]"

/-- the catalog of the file -/
def pairs : Catalog := ⟨[("Pair", [⟨"left", .optional⟩, ⟨"right", .optional⟩])]⟩

theorem parse_pairsText : Catalog.parse pairsText = .ok pairs := by decide +kernel

/-- the table with the pairs laid over it -/
def pairedSchema : Schema := ((Catalog.ofTable Estree.table).extend pairs).toSchema

theorem fields_pairedSchema (kind : String) : pairedSchema.fields kind = (pairs.get? kind).or (Estree.table.get? kind) := by
  have hpairs : pairs.Made := Catalog.made_iff.2 (by decide)
  have hoverlaid : pairedSchema.fields kind = ((Catalog.ofTable Estree.table).extend pairs).get? kind := rfl
  rw [hoverlaid, Catalog.get?_extend _ hpairs, Catalog.get?_ofTable estree_sorted]

/-- the arena of the text through the table, where a pair has no children -/
def programTree : Tree where
  names := ⟨#["Program", "Pair", "body"]⟩
  nodes := #[⟨0, ⟨0, 9⟩, [(2, .sequence [some 1])], []⟩, ⟨1, ⟨1, 8⟩, [], []⟩]
  root := some 0

/-- the arena of the text through the overlaid table -/
def pairedTree : Tree where
  names := ⟨#["Program", "Pair", "Note", "left", "right", "body"]⟩
  nodes := #[⟨0, ⟨0, 9⟩, [(5, .sequence [some 1])], []⟩, ⟨1, ⟨1, 8⟩, [(3, .optional (some 2)), (4, .optional none)], []⟩,
    ⟨2, ⟨2, 4⟩, [], []⟩]
  root := some 0

theorem ofValue_programTree : Tree.ofValue Estree.schema programValue = .ok programTree := by
  have hprogram : Estree.schema.fieldsOf "Program" = [⟨"body", .many⟩] := by decide +kernel
  have hpair : Estree.schema.fieldsOf "Pair" = [] := by decide +kernel
  simp only [Tree.ofValue, programValue, Load.node.eq_def, Load.items.eq_def, Load.slots.eq_def, Load.kindOf?, Json.member?,
    Json.Value.asString?, String.reduceEq, ↓reduceIte, ↓dreduceIte, Option.bind_some, List.nil_append, hprogram, hpair]
  cbv

theorem ofValue_pairedTree : Tree.ofValue pairedSchema programValue = .ok pairedTree := by
  have hprogram : pairedSchema.fieldsOf "Program" = [⟨"body", .many⟩] := by
    rw [Schema.fieldsOf, fields_pairedSchema]
    decide +kernel
  have hpair : pairedSchema.fieldsOf "Pair" = [⟨"left", .optional⟩, ⟨"right", .optional⟩] := by
    rw [Schema.fieldsOf, fields_pairedSchema]
    decide +kernel
  have hnote : pairedSchema.fieldsOf "Note" = [] := by
    rw [Schema.fieldsOf, fields_pairedSchema]
    decide +kernel
  simp only [Tree.ofValue, programValue, Load.node.eq_def, Load.items.eq_def, Load.slots.eq_def, Load.kindOf?, Json.member?,
    Json.Value.asString?, String.reduceEq, ↓reduceIte, ↓dreduceIte, Option.bind_some, List.nil_append, hprogram, hpair, hnote]
  cbv

/-- standard input holds the text, and there is one file, that of the pairs -/
def programSources : Sources where
  file name := if name = "pairs.json" then .ok pairsText.toUTF8 else .error .missing
  input := programText.toUTF8

theorem readSchema_pairs : programSources.readSchema (some "pairs.json") = .ok (pairedSchema, programSources) := by
  have hread : programSources.read "pairs.json" = .ok (pairsText, programSources) :=
    read_file (by decide) (by simp only [programSources, ↓reduceIte])
  exact readSchema_overlaid hread parse_pairsText

/-- the schema is read first, and the text is then loaded with it -/
theorem load_programSources {name : Option String} {schema : Schema} {tree : Tree}
    (hschema : programSources.readSchema name = .ok (schema, programSources))
    (htree : Tree.ofValue schema programValue = .ok tree) :
    load programSources "-" name = .ok ⟨⟨tree, [], []⟩, schema⟩ := by
  have hread : programSources.read "-" = .ok (programText, ⟨programSources.file, ByteArray.empty⟩) :=
    read_input programSources rfl
  refine load_read hschema hread ?_
  rw [Document.parse, parse_programText]
  simp only [Document.ofValue, htree]
  rfl

/-- Of four visits two are to lists and two to the shared name; the kinds are equally frequent, and go by name. The program is
loaded twice: through the table it has two nodes, and with the schema of pairs laid over the table it has three. -/
theorem collect_agrees_labelled :
    labelledDocument.tree.Built ∧ View.labelledView.Acyclic 0 ∧
      Stats.collect labelledDocument View.labelledView.schema = .ok ⟨4, 3, 2, 0, 0, [⟨"List", 2⟩, ⟨"Name", 2⟩]⟩ ∧
      View.labelledView.countNodes (some 0) = .ok 4 ∧
      (∃ hits, View.labelledView.findByKind (some 0) "Name" = .ok hits ∧ hits.length = 2) ∧
      (∃ input stats, load programSources "-" none = .ok input ∧ Stats.collect input.document input.schema = .ok stats ∧
        stats.nodes = 2 ∧ stats.stored = 2) ∧
      ∃ input stats, load programSources "-" (some "pairs.json") = .ok input ∧
        Stats.collect input.document input.schema = .ok stats ∧ stats.nodes = 3 ∧ stats.stored = 3 := by
  have hfinish : View.labelledBuilder.Finishes View.labelledView.tree := .inr ⟨0, by decide +kernel⟩
  have hbuilt : labelledDocument.tree.Built := .finished _ hfinish
  have hacyclic : View.labelledView.Acyclic 0 := View.acyclic_of_rising (by decide +kernel) 0
  have hroot : ∀ id ∈ labelledDocument.tree.root, View.labelledView.Acyclic id := by
    rintro id ⟨⟩
    exact hacyclic
  have hcollect : Stats.collect labelledDocument View.labelledView.schema =
      .ok ⟨4, 3, 2, 0, 0, [⟨"List", 2⟩, ⟨"Name", 2⟩]⟩ := by cbv
  obtain ⟨hqueries, hloaded⟩ := collect_agrees
  obtain ⟨stats, -, hstats, -, hcount, -, -, hkinds, -⟩ :=
    hqueries labelledDocument View.labelledView.schema hbuilt hroot
  cases Except.ok.inj (hcollect.symm.trans hstats)
  obtain ⟨hits, hfind, hlength⟩ := hkinds ⟨"Name", 2⟩ (by decide)
  have hbare : programSources.readSchema none = .ok (Estree.schema, programSources) := rfl
  have htable := load_programSources hbare ofValue_programTree
  have hoverlaid := load_programSources readSchema_pairs ofValue_pairedTree
  obtain ⟨figures, hfigures, hnodes, hstored⟩ := hloaded programSources "-" none _ htable
  obtain ⟨more, hmore, hnodes', hstored'⟩ := hloaded programSources "-" (some "pairs.json") _ hoverlaid
  exact ⟨hbuilt, hacyclic, hcollect, hcount, ⟨hits, hfind, hlength.symm⟩,
    ⟨_, figures, htable, hfigures, hnodes.trans hstored, hstored⟩,
    _, more, hoverlaid, hmore, hnodes'.trans hstored', hstored'⟩

end Command

end Arbor
