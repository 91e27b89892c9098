import MarkdownCore.Marker.NumeralRun

/-!
# Roman numerals

The canonical spelling of a number, and what the greedy loop over the terms makes of it, a
decade of terms at a time.
-/

namespace MarkdownCore.Marker

open Inline (byteAt width isdigit isWhitespace)

/-! ### The canonical spelling -/

/-- A digit of a decade, spelled with the letters of its one, its five and its ten. -/
def romanDigit (one five ten : UInt8) : ℕ → List UInt8
  | 0 => []
  | 1 => [one]
  | 2 => [one, one]
  | 3 => [one, one, one]
  | 4 => [one, five]
  | 5 => [five]
  | 6 => [five, one]
  | 7 => [five, one, one]
  | 8 => [five, one, one, one]
  | _ => [one, ten]

/-- The canonical Roman spelling of a number: its thousands, then subtractive pairs. -/
def romanSpelling (lowercased : Bool) (n : ℕ) : List UInt8 :=
  (List.replicate (n / 1000) 77 ++ romanDigit 67 68 77 (n / 100 % 10) ++
    romanDigit 88 76 67 (n / 10 % 10) ++ romanDigit 73 86 88 (n % 10)).map
      (· + caseOffset lowercased)

/-! ### One term -/

section
variable {offset : UInt8} {term : Term}

lemma takeTerm_miss {left : ℕ} {bytes : List UInt8} {number : ℤ}
    (h : (term.spelled offset).isPrefixOf bytes = false) :
    takeTerm offset term left bytes number = .ok (bytes, number) := by
  cases left with
  | zero => rfl
  | succ left => rw [takeTerm, h]; rfl

lemma isPrefixOf_cons_of_head {b : UInt8} {more bytes : List UInt8} (h : bytes.head? ≠ some b) :
    (b :: more).isPrefixOf bytes = false := by
  cases bytes with
  | nil => rfl
  | cons head tail =>
    have hne : b ≠ head := fun heq => h (by rw [heq]; rfl)
    rw [List.isPrefixOf, beq_eq_false_iff_ne.mpr hne, Bool.false_and]

lemma isPrefixOf_append (head rest : List UInt8) : head.isPrefixOf (head ++ rest) = true :=
  List.isPrefixOf_iff_prefix.mpr (List.prefix_append head rest)

lemma takeTerm_once (hterm : term.repeats = false) {left : ℕ} {rest : List UInt8} {number : ℤ}
    (hlow : 0 ≤ number) (hvalue : 0 ≤ term.value) (hroom : number + term.value ≤ 999999999) :
    takeTerm offset term (left + 1) (term.spelled offset ++ rest) number =
      .ok (rest, number + term.value) := by
  rw [takeTerm, if_pos (isPrefixOf_append _ _), if_neg (by omega), int_ok (by omega) (by omega)]
  dsimp only [bind, Except.bind]
  rw [hterm, if_neg (by decide), ← length_spelled offset, List.drop_left]

/-- A term of one letter that may repeat takes every copy of it. -/
lemma takeTerm_run {letter : UInt8} (htext : term.text = [letter])
    (hterm : term.repeats = true) (hvalue : 0 ≤ term.value) {rest : List UInt8}
    (hrest : rest.head? ≠ some (letter + offset)) :
    ∀ (k left : ℕ) (number : ℤ), k ≤ left → 0 ≤ number →
      number + k * term.value ≤ 999999999 →
      takeTerm offset term left (List.replicate k (letter + offset) ++ rest) number =
        .ok (rest, number + k * term.value) := by
  have hspelled : term.spelled offset = [letter + offset] := by simp [Term.spelled, htext]
  intro k
  induction k with
  | zero =>
    intro left number _ _ _
    rw [List.replicate_zero, List.nil_append, takeTerm_miss]
    · simp
    · rw [hspelled]
      exact isPrefixOf_cons_of_head hrest
  | succ k ih =>
    intro left number hleft hlow hroom
    obtain ⟨left, rfl⟩ : ∃ l, left = l + 1 := ⟨left - 1, by omega⟩
    have hsplit : number + ((k : ℤ) + 1) * term.value =
        number + term.value + k * term.value := by
      rw [add_mul, one_mul, add_comm _ term.value, add_assoc]
    have hnonneg : 0 ≤ (k : ℤ) * term.value := mul_nonneg (Nat.cast_nonneg k) hvalue
    rw [Nat.cast_succ, hsplit] at hroom ⊢
    have hprefix : (term.spelled offset).isPrefixOf
        (List.replicate (k + 1) (letter + offset) ++ rest) = true := by
      rw [hspelled, List.replicate_succ, List.cons_append]
      simp [List.isPrefixOf]
    rw [takeTerm, if_pos hprefix, if_neg (by omega), int_ok (by omega) (by omega)]
    dsimp only [bind, Except.bind]
    rw [hterm, if_pos rfl, htext, List.replicate_succ, List.cons_append]
    exact ih left (number + term.value) (by omega) (by omega) hroom

end

/-! ### A decade of terms -/

lemma takeTerms_cons {offset : UInt8} {term : Term} {rest : List Term}
    {bytes bytes' : List UInt8} {number number' : ℤ}
    (h : takeTerm offset term bytes.length bytes number = .ok (bytes', number')) :
    takeTerms offset (term :: rest) bytes number = takeTerms offset rest bytes' number' := by
  rw [takeTerms, h]
  rfl

lemma takeTerms_append {offset : UInt8} (ts rest : List Term) {bytes bytes' : List UInt8}
    {number number' : ℤ} (h : takeTerms offset ts bytes number = .ok (bytes', number')) :
    takeTerms offset (ts ++ rest) bytes number = takeTerms offset rest bytes' number' := by
  induction ts generalizing bytes number with
  | nil =>
    obtain ⟨rfl, rfl⟩ : bytes = bytes' ∧ number = number' := by simpa [takeTerms] using h
    rfl
  | cons term ts ih =>
    rw [takeTerms] at h
    rw [List.cons_append, takeTerms]
    cases hread : takeTerm offset term bytes.length bytes number with
    | error stop => rw [hread] at h; cases h
    | ok read =>
      rw [hread] at h
      exact ih h

/-- The terms of a decade, from its subtractive ten down to its one. -/
def decade (one five ten : UInt8) (unit : ℤ) : List Term :=
  [⟨[one, ten], 9 * unit, false⟩, ⟨[five], 5 * unit, false⟩, ⟨[one, five], 4 * unit, false⟩,
    ⟨[one], unit, true⟩]

lemma terms_eq : terms = ⟨[77], 1000, true⟩ ::
    (decade 67 68 77 100 ++ (decade 88 76 67 10 ++ decade 73 86 88 1)) := by
  rfl

section
variable {offset one five ten : UInt8} {unit : ℤ} {rest : List UInt8}

/-- Letters that a decade tells apart, with nothing of it ahead. -/
structure Decade (offset one five ten : UInt8) (unit : ℤ) (rest : List UInt8) : Prop where
  unit_pos : 0 < unit
  one_five : one + offset ≠ five + offset
  one_ten : one + offset ≠ ten + offset
  five_ten : five + offset ≠ ten + offset
  not_one : rest.head? ≠ some (one + offset)
  not_five : rest.head? ≠ some (five + offset)
  not_ten : rest.head? ≠ some (ten + offset)

lemma head_replicate {a b : UInt8} (hab : a ≠ b) (hb : rest.head? ≠ some b) (k : ℕ) :
    (List.replicate k a ++ rest).head? ≠ some b := by
  cases k with
  | zero => exact hb
  | succ k =>
    intro h
    exact hab (Option.some.inj h)

/-- Copies of a letter do not begin with it and another one behind. -/
lemma miss_pair {a b : UInt8} (ha : rest.head? ≠ some a) (hb : rest.head? ≠ some b)
    (hab : a ≠ b) (k : ℕ) : [a, b].isPrefixOf (List.replicate k a ++ rest) = false := by
  cases k with
  | zero => exact isPrefixOf_cons_of_head ha
  | succ k =>
    rw [List.replicate_succ, List.cons_append, List.isPrefixOf,
      isPrefixOf_cons_of_head (head_replicate hab hb k), Bool.and_false]

lemma takeTerms_miss {term : Term} {ts : List Term} {bytes : List UInt8} {number : ℤ}
    (h : (term.spelled offset).isPrefixOf bytes = false) :
    takeTerms offset (term :: ts) bytes number = takeTerms offset ts bytes number :=
  takeTerms_cons (takeTerm_miss h)

/-- The last two terms of a decade on the ones behind its five. -/
lemma Decade.ones (h : Decade offset one five ten unit rest) (k : ℕ) {number : ℤ}
    (hlow : 0 ≤ number) (hroom : number + k * unit ≤ 999999999) :
    takeTerms offset [⟨[one, five], 4 * unit, false⟩, ⟨[one], unit, true⟩]
        (List.replicate k (one + offset) ++ rest) number =
      .ok (rest, number + k * unit) := by
  have hfour : (Term.spelled offset ⟨[one, five], 4 * unit, false⟩).isPrefixOf
      (List.replicate k (one + offset) ++ rest) = false :=
    miss_pair h.not_one h.not_five h.one_five k
  rw [takeTerms_miss hfour]
  exact takeTerms_cons (takeTerm_run rfl rfl h.unit_pos.le h.not_one k _ number
    (by simp) hlow hroom)

/-- The decade's terms on ones alone. -/
lemma Decade.low (h : Decade offset one five ten unit rest) (k : ℕ) {number : ℤ}
    (hlow : 0 ≤ number) (hroom : number + k * unit ≤ 999999999) :
    takeTerms offset (decade one five ten unit)
        (List.replicate k (one + offset) ++ rest) number =
      .ok (rest, number + k * unit) := by
  have hnine : (Term.spelled offset ⟨[one, ten], 9 * unit, false⟩).isPrefixOf
      (List.replicate k (one + offset) ++ rest) = false :=
    miss_pair h.not_one h.not_ten h.one_ten k
  have hfive : (Term.spelled offset ⟨[five], 5 * unit, false⟩).isPrefixOf
      (List.replicate k (one + offset) ++ rest) = false :=
    isPrefixOf_cons_of_head (head_replicate h.one_five h.not_five k)
  rw [decade, takeTerms_miss hnine, takeTerms_miss hfive]
  exact h.ones k hlow hroom

/-- The decade's terms on its five and ones behind it. -/
lemma Decade.high (h : Decade offset one five ten unit rest) (k : ℕ) {number : ℤ}
    (hlow : 0 ≤ number) (hroom : number + 5 * unit + k * unit ≤ 999999999) :
    takeTerms offset (decade one five ten unit)
        ((five + offset) :: (List.replicate k (one + offset) ++ rest)) number =
      .ok (rest, number + 5 * unit + k * unit) := by
  have hunit := h.unit_pos
  have hnonneg : 0 ≤ (k : ℤ) * unit := mul_nonneg (Nat.cast_nonneg k) hunit.le
  have hnine : (Term.spelled offset ⟨[one, ten], 9 * unit, false⟩).isPrefixOf
      ((five + offset) :: (List.replicate k (one + offset) ++ rest)) = false :=
    isPrefixOf_cons_of_head fun heq => h.one_five (Option.some.inj heq).symm
  have hfive := @takeTerm_once offset ⟨[five], 5 * unit, false⟩ rfl
    (List.replicate k (one + offset) ++ rest).length
    (List.replicate k (one + offset) ++ rest) number hlow (by dsimp only; omega)
    (by dsimp only; omega)
  rw [decade, takeTerms_miss hnine, takeTerms_cons hfive]
  exact h.ones k (show 0 ≤ number + 5 * unit by omega) hroom

/-- The decade's terms on its subtractive ten. -/
lemma Decade.nine (h : Decade offset one five ten unit rest) {number : ℤ}
    (hlow : 0 ≤ number) (hroom : number + 9 * unit ≤ 999999999) :
    takeTerms offset (decade one five ten unit) ((one + offset) :: (ten + offset) :: rest) number =
      .ok (rest, number + 9 * unit) := by
  have hunit := h.unit_pos
  have hnine := @takeTerm_once offset ⟨[one, ten], 9 * unit, false⟩ rfl (rest.length + 1) rest
    number hlow (by dsimp only; omega) (by dsimp only; omega)
  have hfive : (Term.spelled offset ⟨[five], 5 * unit, false⟩).isPrefixOf rest = false :=
    isPrefixOf_cons_of_head h.not_five
  have hones := @Decade.ones offset one five ten unit rest h 0 (number + 9 * unit) (by omega)
    (by simpa using hroom)
  rw [decade, takeTerms_cons hnine, takeTerms_miss hfive]
  simpa using hones

/-- The decade's terms on its subtractive five. -/
lemma Decade.four (h : Decade offset one five ten unit rest) {number : ℤ}
    (hlow : 0 ≤ number) (hroom : number + 4 * unit ≤ 999999999) :
    takeTerms offset (decade one five ten unit)
        ((one + offset) :: (five + offset) :: rest) number =
      .ok (rest, number + 4 * unit) := by
  have hunit := h.unit_pos
  have hnine : (Term.spelled offset ⟨[one, ten], 9 * unit, false⟩).isPrefixOf
      ((one + offset) :: (five + offset) :: rest) = false := by
    change (_ && [ten + offset].isPrefixOf ((five + offset) :: rest)) = false
    have hten : ((five + offset) :: rest).head? ≠ some (ten + offset) :=
      fun heq => h.five_ten (Option.some.inj heq)
    rw [isPrefixOf_cons_of_head hten, Bool.and_false]
  have hfive : (Term.spelled offset ⟨[five], 5 * unit, false⟩).isPrefixOf
      ((one + offset) :: (five + offset) :: rest) = false :=
    isPrefixOf_cons_of_head fun heq => h.one_five (Option.some.inj heq)
  have hfour := @takeTerm_once offset ⟨[one, five], 4 * unit, false⟩ rfl (rest.length + 1)
    rest number hlow (by dsimp only; omega) (by dsimp only; omega)
  have hone : (Term.spelled offset ⟨[one], unit, true⟩).isPrefixOf rest = false :=
    isPrefixOf_cons_of_head h.not_one
  rw [decade, takeTerms_miss hnine, takeTerms_miss hfive, takeTerms_cons hfour,
    takeTerms_miss hone]
  rfl

/-- A decade's terms read the spelling of its digit, and nothing behind it. -/
lemma Decade.read (h : Decade offset one five ten unit rest) {d : ℕ} (hd : d < 10)
    {number : ℤ} (hlow : 0 ≤ number) (hroom : number + d * unit ≤ 999999999) :
    takeTerms offset (decade one five ten unit)
        ((romanDigit one five ten d).map (· + offset) ++ rest) number =
      .ok (rest, number + d * unit) := by
  match d with
  | 0 => exact h.low 0 hlow hroom
  | 1 => exact h.low 1 hlow hroom
  | 2 => exact h.low 2 hlow hroom
  | 3 => exact h.low 3 hlow hroom
  | 4 => exact h.four hlow hroom
  | 5 =>
    have hsum : number + 5 * unit + (0 : ℕ) * unit = number + (5 : ℕ) * unit := by omega
    exact hsum ▸ h.high 0 hlow (by omega)
  | 6 =>
    have hsum : number + 5 * unit + (1 : ℕ) * unit = number + (6 : ℕ) * unit := by omega
    exact hsum ▸ h.high 1 hlow (by omega)
  | 7 =>
    have hsum : number + 5 * unit + (2 : ℕ) * unit = number + (7 : ℕ) * unit := by omega
    exact hsum ▸ h.high 2 hlow (by omega)
  | 8 =>
    have hsum : number + 5 * unit + (3 : ℕ) * unit = number + (8 : ℕ) * unit := by omega
    exact hsum ▸ h.high 3 hlow (by omega)
  | 9 => exact h.nine hlow hroom
  | d + 10 => omega

end

/-! ### The whole spelling -/

/-- What the spelling of a digit may begin with. -/
lemma head_romanDigit {one five ten offset x : UInt8} {d : ℕ} {rest : List UInt8}
    (hone : one + offset ≠ x) (hfive : five + offset ≠ x) (hrest : rest.head? ≠ some x) :
    ((romanDigit one five ten d).map (· + offset) ++ rest).head? ≠ some x := by
  unfold romanDigit
  split <;> simp_all

/-- The letters of the terms. -/
@[grind =] def letters : List UInt8 := [77, 68, 67, 76, 88, 86, 73]

lemma mem_romanDigit {one five ten b : UInt8} {d : ℕ} (h : b ∈ romanDigit one five ten d) :
    b = one ∨ b = five ∨ b = ten := by
  unfold romanDigit at h
  split at h <;> simp only [List.mem_cons, List.not_mem_nil, or_false] at h <;> tauto

/-- The spelling is of letters, all in its case. -/
lemma mem_romanSpelling {lowercased : Bool} {n : ℕ} {b : UInt8}
    (h : b ∈ romanSpelling lowercased n) : ∃ l ∈ letters, b = l + caseOffset lowercased := by
  obtain ⟨l, hl, rfl⟩ := List.mem_map.mp h
  refine ⟨l, ?_, rfl⟩
  simp only [List.mem_append, List.mem_replicate] at hl
  rcases hl with ((⟨-, rfl⟩ | hl) | hl) | hl
  · simp [letters]
  · rcases mem_romanDigit hl with rfl | rfl | rfl <;> simp [letters]
  · rcases mem_romanDigit hl with rfl | rfl | rfl <;> simp [letters]
  · rcases mem_romanDigit hl with rfl | rfl | rfl <;> simp [letters]

/-- Thousands and a digit of each decade are read to their end, at their places. -/
lemma read_digits {offset : UInt8} (hcase : offset = 0 ∨ offset = 32) {k h t o : ℕ} (hh : h < 10)
    (ht : t < 10) (ho : o < 10) (hk : k ≤ 999999) :
    takeTerms offset terms (List.replicate k (77 + offset) ++
        ((romanDigit 67 68 77 h).map (· + offset) ++ ((romanDigit 88 76 67 t).map (· + offset) ++
          ((romanDigit 73 86 88 o).map (· + offset) ++ [])))) 0 =
      .ok ([], 0 + k * 1000 + h * 100 + t * 10 + o * 1) := by
  -- what each decade leaves ahead begins with none of its own letters
  have hones : Decade offset 73 86 88 1 [] := by
    rcases hcase with rfl | rfl <;> constructor <;> decide
  have htens : Decade offset 88 76 67 10 ((romanDigit 73 86 88 o).map (· + offset) ++ []) := by
    rcases hcase with rfl | rfl <;>
      exact ⟨by decide, by decide, by decide, by decide,
        head_romanDigit (by decide) (by decide) (by decide),
        head_romanDigit (by decide) (by decide) (by decide),
        head_romanDigit (by decide) (by decide) (by decide)⟩
  have hhundreds : Decade offset 67 68 77 100 ((romanDigit 88 76 67 t).map (· + offset) ++
      ((romanDigit 73 86 88 o).map (· + offset) ++ [])) := by
    rcases hcase with rfl | rfl <;>
      exact ⟨by decide, by decide, by decide, by decide,
        head_romanDigit (by decide) (by decide)
          (head_romanDigit (by decide) (by decide) (by decide)),
        head_romanDigit (by decide) (by decide)
          (head_romanDigit (by decide) (by decide) (by decide)),
        head_romanDigit (by decide) (by decide)
          (head_romanDigit (by decide) (by decide) (by decide))⟩
  have hthousands : ((romanDigit 67 68 77 h).map (· + offset) ++
      ((romanDigit 88 76 67 t).map (· + offset) ++
        ((romanDigit 73 86 88 o).map (· + offset) ++ []))).head? ≠ some (77 + offset) := by
    rcases hcase with rfl | rfl <;>
      exact head_romanDigit (by decide) (by decide) (head_romanDigit (by decide) (by decide)
        (head_romanDigit (by decide) (by decide) (by decide)))
  have hread : ∀ left, k ≤ left → takeTerm offset ⟨[77], 1000, true⟩ left
      (List.replicate k (77 + offset) ++ _) 0 = .ok (_, 0 + k * 1000) := fun left hleft =>
    @takeTerm_run offset ⟨[77], 1000, true⟩ 77 rfl rfl (by decide) _ hthousands k left 0 hleft
      le_rfl (show (0 : ℤ) + k * 1000 ≤ 999999999 by omega)
  rw [terms_eq, takeTerms_cons (hread _ (by simp)),
    takeTerms_append _ _ (hhundreds.read hh (by omega) (by omega)),
    takeTerms_append _ _ (htens.read ht (by omega) (by omega))]
  exact hones.read ho (by omega) (by omega)

/-- The loop over the terms reads a canonical spelling to its end, as the number. -/
lemma read_romanSpelling (lowercased : Bool) {n : ℕ} (hn : n ≤ 999999999) :
    takeTerms (caseOffset lowercased) terms (romanSpelling lowercased n) 0 =
      .ok ([], (n : ℤ)) := by
  have hcase : caseOffset lowercased = 0 ∨ caseOffset lowercased = 32 := by
    cases lowercased
    · exact Or.inl rfl
    · exact Or.inr rfl
  have hread := @read_digits _ hcase (n / 1000) (n / 100 % 10) (n / 10 % 10) (n % 10) (by omega)
    (by omega) (by omega) (by omega)
  have hvalue : 0 + ((n / 1000 : ℕ) : ℤ) * 1000 + (n / 100 % 10 : ℕ) * 100 +
      (n / 10 % 10 : ℕ) * 10 + (n % 10 : ℕ) * 1 = n := by
    omega
  rw [hvalue] at hread
  rw [romanSpelling, List.map_append, List.map_append, List.map_append, List.map_replicate,
    List.append_assoc, List.append_assoc,
    ← List.append_nil (List.map _ (romanDigit 73 86 88 (n % 10)))]
  exact hread

/-! ### In either case -/

/-- Bytes that begin with no letter of a case are passed over by every term of it. -/
lemma takeTerms_pass {offset : UInt8} {ts : List Term} {bytes : List UInt8} {number : ℤ}
    (h : ∀ term ∈ ts, (term.spelled offset).isPrefixOf bytes = false) :
    takeTerms offset ts bytes number = .ok (bytes, number) := by
  induction ts with
  | nil => rfl
  | cons term ts ih =>
    rw [takeTerms_cons (takeTerm_miss (h term List.mem_cons_self))]
    exact ih fun t ht => h t (List.mem_cons_of_mem _ ht)

lemma romanSpelling_ne_nil (lowercased : Bool) {n : ℕ} (hpos : 1 ≤ n) (hn : n ≤ 999999999) :
    romanSpelling lowercased n ≠ [] := by
  intro h
  have hread := read_romanSpelling lowercased hn
  rw [h, takeTerms_pass (by simp [terms, Term.spelled])] at hread
  have hzero : (0 : ℤ) = n := by simpa using hread
  omega

lemma letters_apart : ∀ lowercased : Bool, ∀ l ∈ letters,
    l + caseOffset lowercased ≠ 0x23 ∧
      ∀ term ∈ terms, term.text.head?.all fun first =>
        first + caseOffset (!lowercased) ≠ l + caseOffset lowercased := by
  intro lowercased
  cases lowercased <;> simp [letters, terms, caseOffset]

lemma romanSpelling_ne_automatic (lowercased : Bool) (n : ℕ) :
    romanSpelling lowercased n ≠ [0x23] := by
  intro h
  obtain ⟨l, hl, heq⟩ := mem_romanSpelling (h ▸ List.mem_cons_self)
  exact (letters_apart lowercased l hl).1 heq.symm

/-- The reader of a spelling's own case reads it as the number. -/
lemma numeral_own (lowercased : Bool) {n : ℕ} (hpos : 1 ≤ n) (hn : n ≤ 999999999) :
    numeral (romanSpelling lowercased n) ⟨.roman, lowercased⟩ = .ok (n : ℤ) := by
  rw [numeral, if_neg (romanSpelling_ne_automatic lowercased n)]
  dsimp only
  rw [read_romanSpelling lowercased hn]
  dsimp only [bind, Except.bind]
  rw [if_neg (by simp), if_pos (List.length_pos_iff.mpr (romanSpelling_ne_nil lowercased hpos hn))]

/-- The reader of the other case takes no byte of it, and refuses. -/
lemma numeral_other (lowercased : Bool) {n : ℕ} (hpos : 1 ≤ n) (hn : n ≤ 999999999) :
    numeral (romanSpelling lowercased n) ⟨.roman, !lowercased⟩ = .error .refused := by
  have hne := romanSpelling_ne_nil lowercased hpos hn
  have hauto := romanSpelling_ne_automatic lowercased n
  have hmem : ∀ b ∈ romanSpelling lowercased n, ∃ l ∈ letters, b = l + caseOffset lowercased :=
    fun b hb => mem_romanSpelling hb
  generalize romanSpelling lowercased n = bytes at *
  cases bytes with
  | nil => exact absurd rfl hne
  | cons head tail =>
    obtain ⟨l, hl, rfl⟩ := hmem head List.mem_cons_self
    have hpass : ∀ term ∈ terms, (term.spelled (caseOffset (!lowercased))).isPrefixOf
        ((l + caseOffset lowercased) :: tail) = false := by
      intro term hterm
      have hfirst := (letters_apart lowercased l hl).2 term hterm
      obtain ⟨text, value, repeats⟩ := term
      cases text with
      | nil => exact absurd rfl (terms_bounded _ hterm).2.2
      | cons first more =>
        refine isPrefixOf_cons_of_head fun heq => ?_
        have hnot : first + caseOffset (!lowercased) ≠ l + caseOffset lowercased := by
          simpa using hfirst
        exact hnot (Option.some.inj heq).symm
    rw [numeral, if_neg hauto]
    dsimp only
    rw [takeTerms_pass hpass]
    dsimp only [bind, Except.bind]
    rw [if_pos (by simp)]

end MarkdownCore.Marker
