import MarkdownCore.Marker.Roman

/-!
# Where the scan of a numeral stops

The scan goes by the class of the first byte alone. A numeral of any variant is of one class,
and a delimiter is of none, so the scan stops at the delimiter behind every numeral.
-/

namespace MarkdownCore.Marker

open Inline (byteAt width isdigit isWhitespace width_eq byteAt_of_length_le byteAt_eq_getElem)
open Autolink (isalpha)

/-! ### Bytes of a numeral -/

section
variable {line : List UInt8} {begin end' : ℕ}

lemma length_slice (h : end' ≤ line.length) :
    ((line.take end').drop begin).length = end' - begin := by
  rw [List.length_drop, List.length_take, min_eq_left h]

lemma byteAt_mem_slice {k : ℕ} (h : end' ≤ line.length) (hk : begin ≤ k) (hlt : k < end') :
    byteAt line k ∈ (line.take end').drop begin := by
  have hin : k < line.length := by omega
  have hget : ((line.take end').drop begin)[k - begin]? = some (byteAt line k) := by
    rw [List.getElem?_drop, Nat.add_sub_cancel' hk, List.getElem?_take_of_lt hlt,
      List.getElem?_eq_getElem hin, byteAt_eq_getElem hin]
  exact List.mem_of_getElem? hget

end

lemma delim_eq {closed : Bool} {delim : UInt8} (h : delimits closed delim = true) :
    delim = 0x29 ∨ delim = 0x2e := by
  by_contra hne
  rw [not_or] at hne
  simp [delimits, hne.1, hne.2] at h

lemma mem_of_inOrder {ts taken : List Term} (h : InOrder ts taken) : ∀ term ∈ taken, term ∈ ts := by
  induction h with
  | nil => simp
  | cons k _ _ ih =>
    intro term hterm
    rcases List.mem_append.mp hterm with hmem | hmem
    · rw [List.eq_of_mem_replicate hmem]
      exact List.mem_cons_self
    · exact List.mem_cons_of_mem _ (ih term hmem)

lemma text_letters : ∀ term ∈ terms, ∀ l ∈ term.text, l ∈ letters := by
  simp [terms, letters]

/-- The bytes of the terms taken are letters in the variant's case. -/
lemma spelled_letters {taken : List Term} (h : InOrder terms taken) {offset b : UInt8}
    (hb : b ∈ taken.flatMap (Term.spelled offset)) : ∃ l ∈ letters, b = l + offset := by
  obtain ⟨term, hterm, hmem⟩ := List.mem_flatMap.mp hb
  obtain ⟨l, hl, rfl⟩ := List.mem_map.mp hmem
  exact ⟨l, text_letters term (mem_of_inOrder h term hterm) l hl, rfl⟩

/-- The scan's own offset is the one of the letter's case. -/
lemma letter_class : ∀ lowercased : Bool, ∀ l ∈ letters,
    isdigit (l + caseOffset lowercased) = false ∧ l + caseOffset lowercased ≠ 0x23 ∧
      isalpha (l + caseOffset lowercased) = true ∧
      (if l + caseOffset lowercased ≥ 0x61 then (32 : UInt8) else 0) = caseOffset lowercased ∧
      romanLetter (l + caseOffset lowercased - caseOffset lowercased) = true := by
  intro lowercased
  cases lowercased <;> simp [letters, caseOffset, isdigit, isalpha, romanLetter]

lemma alpha_class {c : UInt8} {lowercased : Bool} {n : ℕ}
    (hc : c.toNat = (if lowercased then 97 else 65) + n) (hn : n < 26) :
    isdigit c = false ∧ c ≠ 0x23 ∧ isalpha c = true := by
  have hrange : 65 ≤ c.toNat ∧ c.toNat ≤ 90 ∨ 97 ≤ c.toNat ∧ c.toNat ≤ 122 := by
    cases lowercased
    · exact Or.inl (by simp at hc; omega)
    · exact Or.inr (by simp at hc; omega)
  refine ⟨?_, ?_, ?_⟩
  · simp only [isdigit, Bool.and_eq_false_iff, decide_eq_false_iff_not, UInt8.le_iff_toNat_le]
    right
    have : (0x39 : UInt8).toNat = 57 := rfl
    omega
  · rintro rfl
    have : (0x23 : UInt8).toNat = 35 := rfl
    omega
  · simp only [isalpha, Bool.or_eq_true, Bool.and_eq_true, decide_eq_true_eq,
      UInt8.le_iff_toNat_le]
    exact hrange

lemma delim_class {delim : UInt8} (h : delim = 0x29 ∨ delim = 0x2e) :
    isdigit delim = false ∧ romanLetter (delim - 32) = false ∧ romanLetter (delim - 0) = false := by
  rcases h with rfl | rfl <;> decide

/-! ### The scan -/

/-- Behind a numeral of any variant, the scan stops at the delimiter. -/
lemma classScan_of_took {line : List UInt8} {begin end' : ℕ} {closed : Bool} {variant : Variant}
    {values : List ℤ} (hend : end' < line.length)
    (hdelim : delimits closed (byteAt line end') = true)
    (htook : Took variant ((line.take end').drop begin) values) :
    classScan line begin = end' := by
  obtain ⟨hdigit, hlower, hupper⟩ := delim_class (delim_eq hdelim)
  have hlength := @length_slice line begin end' hend.le
  have hmem : ∀ k, begin ≤ k → k < end' → byteAt line k ∈ (line.take end').drop begin :=
    fun k hk hlt => byteAt_mem_slice hend.le hk hlt
  generalize (line.take end').drop begin = bytes at hlength hmem htook
  cases htook with
  | automatic =>
    have hone : end' = begin + 1 := by simp at hlength; omega
    have hc : byteAt line begin = 0x23 := by
      simpa using hmem begin le_rfl (by omega)
    simp [classScan, hc, hone]
  | letter byte n hkind hn hbyte =>
    have hone : end' = begin + 1 := by simp at hlength; omega
    have hc : byteAt line begin = byte := by
      simpa using hmem begin le_rfl (by omega)
    rw [← hc] at hbyte
    obtain ⟨hnotDigit, hne, halpha⟩ := alpha_class hbyte hn
    have hwidth : ∀ offset : UInt8, offset = 0 ∨ offset = 32 →
        width (fun b => romanLetter (b - offset)) line (begin + 1) = 0 := by
      intro offset hoffset
      refine width_eq _ (fun k hk hlt => absurd hk (by omega)) (by omega) ?_
      rw [Nat.add_zero, ← hone]
      rcases hoffset with rfl | rfl
      · exact hupper
      · exact hlower
    rw [classScan]
    dsimp only
    rw [if_neg hne, hnotDigit, if_neg (by decide), halpha, if_pos rfl]
    rw [hwidth _ (by split <;> simp), hone, Nat.add_zero, ite_self]
  | digits _ hkind hpos hle hdigits =>
    have hlt : begin < end' := by omega
    have hc := hdigits _ (hmem begin le_rfl hlt)
    have hne : byteAt line begin ≠ 0x23 := by
      intro h
      rw [h] at hc
      cases hc
    have hwidth : width isdigit line begin = end' - begin := by
      refine width_eq isdigit (fun k hk hklt => hdigits _ (hmem k hk (by omega))) (by omega) ?_
      rw [Nat.add_sub_cancel' hlt.le]
      exact hdigit
    simp only [classScan]
    rw [if_neg hne, if_pos hc, hwidth]
    omega
  | roman taken hkind htaken horder =>
    have hletter : ∀ k, begin ≤ k → k < end' →
        ∃ l ∈ letters, byteAt line k = l + caseOffset variant.lowercased :=
      fun k hk hlt => spelled_letters horder (hmem k hk hlt)
    have hlt : begin < end' := by
      by_contra hge
      refine htaken (List.eq_nil_iff_forall_not_mem.mpr fun term hterm => ?_)
      have hbounded := terms_bounded term (mem_of_inOrder horder term hterm)
      have hnil : taken.flatMap (Term.spelled (caseOffset variant.lowercased)) = [] :=
        List.eq_nil_of_length_eq_zero (by omega)
      have hspelled := List.flatMap_eq_nil_iff.mp hnil term hterm
      exact hbounded.2.2 (List.map_eq_nil_iff.mp hspelled)
    obtain ⟨l, hl, hc⟩ := hletter begin le_rfl hlt
    obtain ⟨hnotDigit, hne, halpha, hoffset, hroman⟩ := letter_class variant.lowercased l hl
    have hstop : romanLetter (byteAt line end' - caseOffset variant.lowercased) = false := by
      cases variant.lowercased
      · exact hupper
      · exact hlower
    have hwidth : width (fun b => romanLetter (b - caseOffset variant.lowercased)) line
        (begin + 1) = end' - (begin + 1) := by
      refine width_eq _ (fun k hk hklt => ?_) (by omega) ?_
      · obtain ⟨l', hl', hk'⟩ := hletter k (by omega) (by omega)
        rw [hk']
        exact (letter_class variant.lowercased l' hl').2.2.2.2
      · rw [Nat.add_sub_cancel' hlt]
        exact hstop
    rw [classScan]
    dsimp only
    rw [hc, if_neg hne, hnotDigit, if_neg (by decide), halpha, if_pos rfl, hoffset, hroman,
      if_pos rfl, hwidth]
    omega

/-- A numeral read is one of some variant. -/
lemma took_of_orderedNumeral {line : List UInt8} {begin end' : ℕ} {variant : Variant} {value : ℤ}
    (h : orderedNumeral line begin end' variant = .ok value) :
    ∃ values, Took variant ((line.take end').drop begin) values := by
  rcases numeral_cases ((line.take end').drop begin) variant with hrefused | ⟨values, -, htook, -⟩
  · rw [orderedNumeral, hrefused] at h
    cases h
  · exact ⟨values, htook⟩

lemma lt_length_of_delimits {line : List UInt8} {pos : ℕ} {closed : Bool}
    (h : delimits closed (byteAt line pos) = true) : pos < line.length := by
  by_contra hge
  rw [byteAt_of_length_le (Nat.le_of_not_lt hge)] at h
  rcases delim_eq h with h | h <;> cases h

lemma classScan_of_orderedNumeral {line : List UInt8} {begin end' : ℕ} {closed : Bool}
    {variant : Variant} {value : ℤ} (h : orderedNumeral line begin end' variant = .ok value)
    (hdelim : delimits closed (byteAt line end') = true) : classScan line begin = end' := by
  obtain ⟨values, htook⟩ := took_of_orderedNumeral h
  exact classScan_of_took (lt_length_of_delimits hdelim) hdelim htook

/-- A marker made at some end has a numeral there, in the variant committed to or in the one
its first byte names, and a delimiter behind it. -/
lemma numeralMarker_ok {line : List UInt8} {startpos begin end' : ℕ} {closed : Bool}
    {committed : Option ListFacts} {firstColumn : ℕ} {interrupts inside : Bool}
    {marker : ℕ × MarkerData}
    (h : numeralMarker line startpos begin end' closed committed firstColumn interrupts inside =
      .ok marker) :
    delimits closed (byteAt line end') = true ∧
      ∃ variant value, orderedNumeral line begin end' variant = .ok value := by
  rw [numeralMarker] at h
  dsimp only at h
  split at h
  next => cases h
  split at h
  next => cases h
  next hdelim =>
    refine ⟨by simpa using hdelim, ?_⟩
    cases hread : readNumeral line begin end' committed with
    | error stop => rw [hread] at h; cases h
    | ok read =>
      clear h
      rw [readNumeral] at hread
      have hown : ∀ {variant read}, (do
          let start ← orderedNumeral line begin end' variant
          .ok (variant, start) : Except Stop (Variant × ℤ)) = .ok read →
          ∃ variant value, orderedNumeral line begin end' variant = .ok value := by
        intro variant read h
        cases hvalue : orderedNumeral line begin end' variant with
        | error stop => rw [hvalue] at h; cases h
        | ok value => exact ⟨variant, value, hvalue⟩
      cases hcommitted : committed.bind ListFacts.variant with
      | none =>
        rw [hcommitted] at hread
        exact hown hread
      | some variant =>
        rw [hcommitted] at hread
        cases hvalue : orderedNumeral line begin end' variant with
        | ok value => exact ⟨variant, value, hvalue⟩
        | error stop =>
          cases stop with
          | refused =>
            simp only [hvalue] at hread
            exact hown hread
          | overflowed => simp [hvalue] at hread

/-- The canonical spelling of a number is read as it by the reader of its own case, and refused
by the other's. What a reader accepts is the sum of the terms it took and no `int` overflows.
The scan of a marker stops at every end at which the bytes are a numeral, in any variant, and a
delimiter follows, so it makes every marker that some end would make. -/
theorem ordered_numerals :
    (∀ (lowercased : Bool) (n : ℕ) (before after : List UInt8), 1 ≤ n → n ≤ 999999999 →
      orderedNumeral (before ++ romanSpelling lowercased n ++ after) before.length
          (before.length + (romanSpelling lowercased n).length) ⟨.roman, lowercased⟩ =
        .ok (n : ℤ) ∧
      orderedNumeral (before ++ romanSpelling lowercased n ++ after) before.length
          (before.length + (romanSpelling lowercased n).length) ⟨.roman, !lowercased⟩ =
        .error .refused) ∧
    (∀ (input : List UInt8) (begin end' : ℕ) (variant : Variant),
      orderedNumeral input begin end' variant ≠ .error .overflowed ∧
      ∀ value, orderedNumeral input begin end' variant = .ok value →
        value ≤ 999999999 ∧
          ∃ values, Took variant ((input.take end').drop begin) values ∧ value = values.sum) ∧
    (∀ (line : List UInt8) (begin end' : ℕ) (closed : Bool) (committed : Option ListFacts),
      delimits closed (byteAt line end') = true →
      (∃ variant value, (variant = namedVariant (byteAt line begin) begin end' ∨
        committed.bind ListFacts.variant = some variant) ∧
          orderedNumeral line begin end' variant = .ok value) →
      classScan line begin = end') ∧
    ∀ (line : List UInt8) (pos end' : ℕ) (committed : Option ListFacts) (firstColumn : ℕ)
      (interrupts inside : Bool) (marker : ℕ × MarkerData),
      byteAt line pos ≠ 0x2a → byteAt line pos ≠ 0x2d → byteAt line pos ≠ 0x2b →
      numeralMarker line pos (pos + (decide (byteAt line pos = 0x28)).toNat) end'
          (byteAt line pos = 0x28) committed firstColumn interrupts inside = .ok marker →
        parseListMarker line pos committed firstColumn interrupts inside = .ok marker := by
  refine ⟨?_, ?_, ?_, ?_⟩
  · intro lowercased n before after hpos hn
    have hslice : ((before ++ romanSpelling lowercased n ++ after).take
        (before.length + (romanSpelling lowercased n).length)).drop before.length =
          romanSpelling lowercased n := by
      rw [← List.length_append, List.take_left, List.drop_left]
    rw [orderedNumeral, orderedNumeral, hslice]
    exact ⟨numeral_own lowercased hpos hn, numeral_other lowercased hpos hn⟩
  · intro input begin end' variant
    rw [orderedNumeral]
    rcases numeral_cases ((input.take end').drop begin) variant with h | ⟨values, h, htook, hle⟩
    · rw [h]
      exact ⟨by simp, fun value hvalue => by cases hvalue⟩
    · rw [h]
      refine ⟨by simp, fun value hvalue => ?_⟩
      obtain rfl := Except.ok.inj hvalue
      exact ⟨hle, values, htook, rfl⟩
  · rintro line begin end' closed committed hdelim ⟨variant, value, -, hread⟩
    exact classScan_of_orderedNumeral hread hdelim
  · intro line pos end' committed firstColumn interrupts inside marker hstar hdash hplus hmarker
    obtain ⟨hdelim, variant, value, hread⟩ := numeralMarker_ok hmarker
    have hscan := classScan_of_orderedNumeral hread hdelim
    rw [parseListMarker]
    dsimp only
    rw [if_neg (by simp [hstar, hdash, hplus]), hscan]
    exact hmarker

/-- `xiv)` is read as fourteen, and the scan stops at its parenthesis. -/
theorem ordered_numerals_fourteen :
    orderedNumeral [0x78, 0x69, 0x76, 0x29] 0 3 ⟨.roman, true⟩ = .ok 14 ∧
      classScan [0x78, 0x69, 0x76, 0x29] 0 = 3 := by
  have hread := (ordered_numerals.1 true 14 [] [0x29] (by decide) (by decide)).1
  have hvalue : orderedNumeral [0x78, 0x69, 0x76, 0x29] 0 3 ⟨.roman, true⟩ = .ok 14 := hread
  exact ⟨hvalue, ordered_numerals.2.2.1 _ 0 3 false none (by decide)
    ⟨_, 14, Or.inl rfl, hvalue⟩⟩

end MarkdownCore.Marker
