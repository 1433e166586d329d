/-
Spans as they are typed. What is taken is a small grammar: a text is split where two points in a row stand first, and each of
the two parts is a number with white space around it. The grammar is said here without the reader: `FirstPoints` for the place
of the points, `Text.Trims` for the white space, `Writes` for a number in decimal digits.

- `splitRange?_eq_some_iff`, `trim_eq_iff`, `readNatural_eq_ok_iff`: each part of the reader does what its relation says.
- `ofTyped_eq_ok_iff`: so the reader takes a text just when it is `Typed`.
- `typed_padded`: what is printed is typed, and white space around its numbers does not matter.
- `typed_grammar`: both together. Bounds are below 2^32, which is `0x100000000`.
-/
import Mathlib.Data.List.DropRight
import Arbor.Span.Typed

namespace Arbor

/-! ## White space -/

namespace Text

/-- the second text is the first one without the white space at its ends -/
structure Trims (s t : List Char) : Prop where
  around : ∃ left right, s = left ++ t ++ right ∧ (∀ c ∈ left, isBlank c = true) ∧ ∀ c ∈ right, isBlank c = true
  first : ∀ c ∈ t.head?, isBlank c = false
  last : ∀ c ∈ t.getLast?, isBlank c = false

theorem head_dropWhile {p : Char → Bool} {s : List Char} {c : Char} (h : c ∈ (s.dropWhile p).head?) : p c = false := by
  have hstop := List.head?_dropWhile_not p s
  rwa [Option.mem_def.1 h] at hstop

theorem dropWhile_of_head {p : Char → Bool} {s : List Char} (h : ∀ c ∈ s.head?, p c = false) : s.dropWhile p = s := by
  cases s with
  | nil => rfl
  | cons c rest => exact List.dropWhile_cons_of_neg (by simp [h c rfl])

theorem trims_trim (s : List Char) : Trims s (trim s) where
  around := by
    refine ⟨s.takeWhile isBlank, (s.dropWhile isBlank).rtakeWhile isBlank, ?_, fun c => List.mem_takeWhile_imp,
      fun c => List.mem_rtakeWhile_imp⟩
    rw [List.append_assoc, show trim s = (s.dropWhile isBlank).rdropWhile isBlank from rfl,
      List.rdropWhile_append_rtakeWhile, List.takeWhile_append_dropWhile]
  first := by
    intro c hc
    -- what is cut at the end leaves the front as it was
    obtain ⟨rest, hrest⟩ : trim s <+: s.dropWhile isBlank := List.rdropWhile_prefix isBlank _
    refine head_dropWhile (s := s) ?_
    rw [← hrest, List.head?_append, Option.mem_def.1 hc, Option.some_or]
    rfl
  last := by
    intro c hc
    rw [trim, List.getLast?_reverse] at hc
    exact head_dropWhile hc

theorem Trims.eq_trim {s t : List Char} (h : Trims s t) : trim s = t := by
  obtain ⟨left, right, rfl, hleft, hright⟩ := h.around
  have hend : t.reverse.dropWhile isBlank = t.reverse := dropWhile_of_head (by simpa using h.last)
  rw [trim, List.append_assoc, List.dropWhile_append_of_pos hleft]
  cases t with
  | nil =>
    have hnone : right.dropWhile isBlank = [] := List.dropWhile_eq_nil_iff.2 hright
    simp [hnone]
  | cons c rest =>
    have hstart : (c :: rest ++ right).dropWhile isBlank = c :: rest ++ right := dropWhile_of_head (by simpa using h.first)
    have hblank : ∀ d ∈ right.reverse, isBlank d = true := fun d hd => hright d (List.mem_reverse.1 hd)
    rw [hstart, List.reverse_append, List.dropWhile_append_of_pos hblank, hend, List.reverse_reverse]

theorem trim_eq_iff {s t : List Char} : trim s = t ↔ Trims s t :=
  ⟨fun h => h ▸ trims_trim s, Trims.eq_trim⟩

end Text

/-! ## Numbers -/

/-- the text is the number in decimal digits, at least one of them -/
structure Digits (s : List Char) (n : Nat) : Prop where
  nonempty : s ≠ []
  digits : ∀ c ∈ s, c.isDigit = true
  value : Nat.ofDigitChars 10 s 0 = n

/-- the text is the number in decimal digits; a plus sign may stand before them -/
def Writes (s : List Char) (n : Nat) : Prop := Digits s n ∨ ∃ digits, s = '+' :: digits ∧ Digits digits n

theorem digit?_eq_some_iff {c : Char} {d : Nat} : digit? c = some d ↔ c.isDigit = true ∧ c.toNat - '0'.toNat = d := by
  have hdigit : ('0' ≤ c ∧ c ≤ '9') ↔ c.isDigit = true := by simp [Char.le_def, Char.isDigit]
  unfold digit?
  split_ifs with h
  · simp [hdigit.1 h]
  · simp [mt hdigit.2 h]

/-- a number does not shrink when digits follow it -/
theorem le_ofDigitChars (n : Nat) (digits : List Char) : n ≤ Nat.ofDigitChars 10 digits n := by
  rw [Nat.ofDigitChars_eq_ofDigitChars_zero]
  have hpos : 1 ≤ 10 ^ digits.length := Nat.one_le_pow _ _ (by decide)
  calc n = 1 * n := (Nat.one_mul n).symm
    _ ≤ 10 ^ digits.length * n := Nat.mul_le_mul_right n hpos
    _ ≤ 10 ^ digits.length * n + Nat.ofDigitChars 10 digits 0 := Nat.le_add_right _ _

theorem digitsUpTo_eq_ok_iff {bound : Nat} {overflow : IntegerProblem} {s : List Char} {n m : Nat} (hn : n ≤ bound) :
    digitsUpTo bound overflow n s = .ok m ↔
      (∀ c ∈ s, c.isDigit = true) ∧ Nat.ofDigitChars 10 s n = m ∧ m ≤ bound := by
  induction s generalizing n with
  | nil =>
    have hbound : n = m → m ≤ bound := fun h => h ▸ hn
    simpa [digitsUpTo] using hbound
  | cons c rest ih =>
    rw [digitsUpTo, Nat.ofDigitChars_cons, Nat.mul_comm 10 n]
    cases hd : digit? c with
    | none =>
      have hc : c.isDigit ≠ true := fun h => by simp [digit?_eq_some_iff.2 ⟨h, rfl⟩] at hd
      simp [hc]
    | some d =>
      obtain ⟨hc, rfl⟩ := digit?_eq_some_iff.1 hd
      simp only [List.forall_mem_cons, hc, true_and]
      split_ifs with hlarge
      · -- past the bound once, past it for good
        have hmore := le_ofDigitChars (n * 10 + (c.toNat - '0'.toNat)) rest
        simp only [false_iff, not_and]
        rintro - rfl
        omega
      · exact ih (Nat.le_of_not_lt hlarge)

theorem someDigitsUpTo_eq_ok_iff {bound : Nat} {overflow : IntegerProblem} {s : List Char} {n : Nat} :
    someDigitsUpTo bound overflow s = .ok n ↔ Digits s n ∧ n ≤ bound := by
  cases s with
  | nil =>
    simp only [someDigitsUpTo, reduceCtorEq, false_iff, not_and]
    exact fun h => absurd rfl h.nonempty
  | cons c rest =>
    rw [show someDigitsUpTo bound overflow (c :: rest) = digitsUpTo bound overflow 0 (c :: rest) from rfl,
      digitsUpTo_eq_ok_iff (Nat.zero_le bound)]
    constructor
    · rintro ⟨hdigits, hvalue, hbound⟩
      exact ⟨⟨List.cons_ne_nil c rest, hdigits, hvalue⟩, hbound⟩
    · rintro ⟨⟨-, hdigits, hvalue⟩, hbound⟩
      exact ⟨hdigits, hvalue, hbound⟩

theorem not_digits_nil {n : Nat} : ¬Digits [] n := fun h => h.nonempty rfl

theorem not_digits_plus {s : List Char} {n : Nat} : ¬Digits ('+' :: s) n := fun h =>
  absurd (h.digits '+' List.mem_cons_self) (by decide)

theorem readNatural_eq_ok_iff {bound : Nat} {s : List Char} {n : Nat} :
    readNatural bound s = .ok n ↔ Writes s n ∧ n ≤ bound := by
  fun_cases readNatural bound s with
  | case1 => simp [Writes, not_digits_nil]
  | case2 rest => simp [Writes, not_digits_plus, someDigitsUpTo_eq_ok_iff]
  | case3 _ _ hsign =>
    have hplain : ¬∃ digits, s = '+' :: digits ∧ Digits digits n := fun ⟨digits, h, _⟩ => hsign digits h
    rw [someDigitsUpTo_eq_ok_iff, Writes, or_iff_left hplain]

/-! ## The place of the points -/

/-- the two texts stand before and after the first two points in a row -/
structure FirstPoints (s before after : List Char) : Prop where
  split : s = before ++ '.' :: '.' :: after
  first : ∀ left right, s = left ++ '.' :: '.' :: right → before.length ≤ left.length

namespace FirstPoints

theorem head (after : List Char) : FirstPoints ('.' :: '.' :: after) [] after :=
  ⟨rfl, fun left _ _ => Nat.zero_le left.length⟩

/-- one more character at the front moves the points on, unless it makes two points with the next one -/
theorem cons {c : Char} {s before after : List Char} (hc : ∀ rest, c :: s ≠ '.' :: '.' :: rest)
    (h : FirstPoints s before after) : FirstPoints (c :: s) (c :: before) after where
  split := congrArg (c :: ·) h.split
  first := by
    intro left right heq
    cases left with
    | nil => exact absurd heq (hc right)
    | cons d left => exact Nat.succ_le_succ (h.first left right (List.cons.inj heq).2)

theorem unique {s before after before' after' : List Char} (h : FirstPoints s before after)
    (h' : FirstPoints s before' after') : before = before' ∧ after = after' := by
  have hlength : before.length = before'.length :=
    Nat.le_antisymm (h.first before' after' h'.split) (h'.first before after h.split)
  obtain ⟨hbefore, hafter⟩ := List.append_inj (h.split.symm.trans h'.split) hlength
  simp only [List.cons.injEq, true_and] at hafter
  exact ⟨hbefore, hafter⟩

/-- no point stands before the first two points -/
theorem of_notMem {before after : List Char} (h : '.' ∉ before) :
    FirstPoints (before ++ '.' :: '.' :: after) before after where
  split := rfl
  first := by
    induction before with
    | nil => exact fun left _ _ => Nat.zero_le left.length
    | cons c rest ih =>
      intro left right heq
      rw [List.mem_cons, not_or] at h
      cases left with
      | nil => exact absurd (List.cons.inj heq).1.symm h.1
      | cons d left => exact Nat.succ_le_succ (ih h.2 left right (List.cons.inj heq).2)

end FirstPoints

namespace Span

theorem firstPoints_of_splitRange? {s before after : List Char} (h : splitRange? s = some (before, after)) :
    FirstPoints s before after := by
  induction s using splitRange?.induct generalizing before with
  | case1 rest =>
    cases h
    exact .head _
  | case2 c rest hc ih =>
    rw [splitRange?, Option.map_eq_some_iff] at h
    · obtain ⟨⟨before, after⟩, hrest, heq⟩ := h
      cases heq
      exact (ih hrest).cons fun tail heq => hc tail (List.cons.inj heq).1 (List.cons.inj heq).2
    · exact hc
  | case3 => cases h

theorem exists_splitRange? (before after : List Char) :
    ∃ found, splitRange? (before ++ '.' :: '.' :: after) = some found := by
  induction before with
  | nil => exact ⟨([], after), rfl⟩
  | cons c rest ih =>
    obtain ⟨found, hfound⟩ := ih
    rw [List.cons_append, splitRange?.eq_def]
    split
    · exact ⟨_, rfl⟩
    · rename_i heq
      cases heq
      exact ⟨_, congrArg (Option.map _) hfound⟩
    · contradiction

theorem splitRange?_eq_some_iff {s before after : List Char} :
    splitRange? s = some (before, after) ↔ FirstPoints s before after := by
  refine ⟨firstPoints_of_splitRange?, fun h => ?_⟩
  obtain ⟨⟨before', after'⟩, hfound⟩ := exists_splitRange? before after
  rw [← h.split] at hfound
  obtain ⟨rfl, rfl⟩ := h.unique (firstPoints_of_splitRange? hfound)
  exact hfound

theorem typedOffset?_eq_some_iff {s : List Char} {n : Nat} :
    typedOffset? s = some n ↔ ∃ t, Text.Trims s t ∧ Writes t n ∧ n < 0x100000000 := by
  have hread : typedOffset? s = some n ↔ Writes (Text.trim s) n ∧ n < 0x100000000 := by
    rw [typedOffset?, ← show n ≤ 0xffffffff ↔ n < 0x100000000 from Nat.lt_succ_iff.symm, ← readNatural_eq_ok_iff]
    cases readNatural 0xffffffff (Text.trim s) <;> simp [Except.toOption]
  simp only [hread, ← Text.trim_eq_iff, exists_eq_left']

/-! ## The grammar -/

/-- the text writes the span: two numbers below 2^32 around the first two points in a row, with white space around each of
them, and the second one not less than the first -/
def Typed (text : String) (a : Span) : Prop :=
  ∃ before after first second, FirstPoints text.toList before after ∧
    Text.Trims before first ∧ Writes first a.start ∧ a.start < 0x100000000 ∧
    Text.Trims after second ∧ Writes second a.stop ∧ a.stop < 0x100000000 ∧ a.start ≤ a.stop

theorem ofTyped_cases {text : String} {a : Span} : ofTyped text = .ok a ↔
    ∃ before after, splitRange? text.toList = some (before, after) ∧ typedOffset? before = some a.start ∧
      typedOffset? after = some a.stop ∧ a.start ≤ a.stop := by
  constructor
  · intro h
    unfold ofTyped at h
    split at h
    · cases h
    · rename_i before after hsplit
      split at h
      · cases h
      · rename_i start hstart
        split at h
        · cases h
        · rename_i stop hstop
          split_ifs at h with hreversed
          cases h
          rw [of, if_neg hreversed]
          exact ⟨before, after, hsplit, hstart, hstop, Nat.le_of_not_lt hreversed⟩
  · rintro ⟨before, after, hsplit, hstart, hstop, hle⟩
    simp only [ofTyped, hsplit, hstart, hstop, of, if_neg (Nat.not_lt.2 hle)]

/-- **What is taken is the grammar.** -/
theorem ofTyped_eq_ok_iff {text : String} {a : Span} : ofTyped text = .ok a ↔ Typed text a := by
  rw [ofTyped_cases]
  simp only [splitRange?_eq_some_iff, typedOffset?_eq_some_iff]
  constructor
  · rintro ⟨before, after, hpoints, ⟨first, hfirst, hstart, hsmall⟩, ⟨second, hsecond, hstop, hsmall'⟩, hle⟩
    exact ⟨before, after, first, second, hpoints, hfirst, hstart, hsmall, hsecond, hstop, hsmall', hle⟩
  · rintro ⟨before, after, first, second, hpoints, hfirst, hstart, hsmall, hsecond, hstop, hsmall', hle⟩
    exact ⟨before, after, hpoints, ⟨first, hfirst, hstart, hsmall⟩, ⟨second, hsecond, hstop, hsmall'⟩, hle⟩

end Span

/-! ## What is printed -/

/-- the text holds nothing but white space -/
def Text.Blank (s : String) : Prop := ∀ c ∈ s.toList, Text.isBlank c = true

instance (s : String) : Decidable (Text.Blank s) := List.decidableBAll (fun c => Text.isBlank c = true) s.toList

theorem digits_toDigits (n : Nat) : Digits (Nat.toDigits 10 n) n where
  nonempty := Nat.toDigits_ne_nil
  digits _ := Nat.isDigit_of_mem_toDigits (by decide) (by decide)
  value := Nat.ofDigitChars_ten_toDigits

theorem isBlank_of_isDigit {c : Char} (h : c.isDigit = true) : Text.isBlank c = false := by
  have hrange : 48 ≤ c.toNat ∧ c.toNat ≤ 57 := by simpa [Char.isDigit, UInt32.le_iff_toNat_le] using h
  rw [Bool.eq_false_iff]
  intro hblank
  simp only [Text.isBlank, Bool.or_eq_true, Bool.and_eq_true, decide_eq_true_eq, beq_iff_eq] at hblank
  omega

/-- no digit is white space, so trimming stops at the digits -/
theorem Digits.trims {s left right : List Char} {n : Nat} (h : Digits s n) (hleft : ∀ c ∈ left, Text.isBlank c = true)
    (hright : ∀ c ∈ right, Text.isBlank c = true) : Text.Trims (left ++ s ++ right) s where
  around := ⟨left, right, rfl, hleft, hright⟩
  first c hc := isBlank_of_isDigit (h.digits c (List.mem_of_mem_head? hc))
  last c hc := isBlank_of_isDigit (h.digits c (List.mem_of_getLast? hc))

namespace Span

theorem point_notMem {s left right : List Char} {n : Nat} (h : Digits s n) (hleft : ∀ c ∈ left, Text.isBlank c = true)
    (hright : ∀ c ∈ right, Text.isBlank c = true) : '.' ∉ left ++ s ++ right := by
  have hblank : Text.isBlank '.' ≠ true := by decide
  have hdigit : Char.isDigit '.' ≠ true := by decide
  simp only [List.mem_append, not_or]
  exact ⟨⟨fun hc => hblank (hleft _ hc), fun hc => hdigit (h.digits _ hc)⟩, fun hc => hblank (hright _ hc)⟩

/-- **What is printed is typed,** also with white space around its numbers. -/
theorem typed_padded {a : Span} (ha : a.Ordered) (hstop : a.stop < 0x100000000) {l₁ r₁ l₂ r₂ : String}
    (hl₁ : Text.Blank l₁) (hr₁ : Text.Blank r₁) (hl₂ : Text.Blank l₂) (hr₂ : Text.Blank r₂) :
    Typed (l₁ ++ toString a.start ++ r₁ ++ ".." ++ l₂ ++ toString a.stop ++ r₂) a := by
  have htext : (l₁ ++ toString a.start ++ r₁ ++ ".." ++ l₂ ++ toString a.stop ++ r₂).toList =
      (l₁.toList ++ Nat.toDigits 10 a.start ++ r₁.toList) ++
        '.' :: '.' :: (l₂.toList ++ Nat.toDigits 10 a.stop ++ r₂.toList) := by
    simp [Nat.toList_repr, toString]
  have hstart : a.start < 0x100000000 := Nat.lt_of_le_of_lt ha hstop
  have hfirst := digits_toDigits a.start
  have hsecond := digits_toDigits a.stop
  refine ⟨_, _, _, _, htext ▸ .of_notMem (point_notMem hfirst hl₁ hr₁), hfirst.trims hl₁ hr₁, .inl hfirst, hstart,
    hsecond.trims hl₂ hr₂, .inl hsecond, hstop, ha⟩

theorem text_eq (a : Span) : a.text = "" ++ toString a.start ++ "" ++ ".." ++ "" ++ toString a.stop ++ "" := by
  simp only [String.empty_append, String.append_empty]
  rfl

/-! ## Main result -/

/-- **Typed spans are exactly those of the grammar, and printing is undone by reading.**
- A text is read as a span if and only if two points in a row stand in it and, split where they stand first, both parts without
  the white space at their ends are at least one decimal digit with or without a plus sign before it, their numbers are below
  2^32 and the second one is not less than the first; the span then has just these bounds.
- For every span below 2^32 whose bounds are in order, the printed text is read as this span, and so it is with any white space
  around the two numbers. -/
theorem typed_grammar :
    (∀ (text : String) (a : Span), ofTyped text = .ok a ↔ Typed text a) ∧
    ∀ a : Span, a.Ordered → a.stop < 0x100000000 →
      ofTyped a.text = .ok a ∧
      ∀ l₁ r₁ l₂ r₂ : String, Text.Blank l₁ → Text.Blank r₁ → Text.Blank l₂ → Text.Blank r₂ →
        ofTyped (l₁ ++ toString a.start ++ r₁ ++ ".." ++ l₂ ++ toString a.stop ++ r₂) = .ok a := by
  have hpadded : ∀ a : Span, a.Ordered → a.stop < 0x100000000 →
      ∀ l₁ r₁ l₂ r₂ : String, Text.Blank l₁ → Text.Blank r₁ → Text.Blank l₂ → Text.Blank r₂ →
        ofTyped (l₁ ++ toString a.start ++ r₁ ++ ".." ++ l₂ ++ toString a.stop ++ r₂) = .ok a :=
    fun a ha hstop l₁ r₁ l₂ r₂ hl₁ hr₁ hl₂ hr₂ => ofTyped_eq_ok_iff.2 (typed_padded ha hstop hl₁ hr₁ hl₂ hr₂)
  refine ⟨fun text a => ofTyped_eq_ok_iff, fun a ha hstop => ⟨?_, hpadded a ha hstop⟩⟩
  rw [text_eq]
  exact hpadded a ha hstop "" "" "" "" (by decide) (by decide) (by decide) (by decide)

/-- white space of several kinds around the largest bounds; a plus sign and leading zeros are read, a third point is not -/
theorem typed_grammar_edges :
    Ordered ⟨4294967295, 4294967295⟩ ∧ Text.Blank "\t " ∧ Text.Blank "\u2003" ∧
    ofTyped "\t 4294967295..4294967295\u2003" = .ok ⟨4294967295, 4294967295⟩ ∧
    Typed " +003 .. 7" ⟨3, 7⟩ ∧ (∀ a, ¬Typed "1...2" a) := by
  obtain ⟨hgrammar, hprinted⟩ := typed_grammar
  have hordered : Ordered ⟨4294967295, 4294967295⟩ := by decide
  have hleft : Text.Blank "\t " := by decide
  have hright : Text.Blank "\u2003" := by decide
  refine ⟨hordered, hleft, hright, ?_, (hgrammar _ _).1 (by cbv), fun a ha => ?_⟩
  · exact (hprinted _ hordered (by decide)).2 "\t " "" "" "\u2003" hleft (by decide) (by decide) hright
  · have hread := (hgrammar _ a).2 ha
    have hproblem : ofTyped "1...2" = .error (.badEnd ".2") := by cbv
    rw [hproblem] at hread
    cases hread

end Span

end Arbor
