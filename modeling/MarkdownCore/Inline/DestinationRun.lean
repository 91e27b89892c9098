import MarkdownCore.Inline.Destination

/-!
# The two ends of a destination

Both loops walk the units of the destination: the parser's loop breaks off where the walk ends, and
the loop over a field either ends there too or at a `#` the walk has met.
-/

namespace MarkdownCore.Inline

open Attributes (Span slice)
open StateTransition

section

variable {data : List UInt8} {angled : Bool} {pos depth : ℕ}

lemma escapes_iff : escapes data pos = true ↔
    byteAt data pos = 0x5c ∧ pos + 1 < data.length ∧ ispunct (byteAt data (pos + 1)) = true := by
  simp [escapes, and_assoc]

/-! ### Units -/

lemma unit_of_escapes (h : escapes data pos = true) :
    unit data angled (pos, depth) = some (pos + 2, depth) := by
  have hlt : pos < data.length := (Nat.lt_succ_self pos).trans (escapes_iff.mp h).2.1
  simp only [unit, h, Nat.not_le.mpr hlt, if_false, if_true]

lemma unit_of_byte (hlt : pos < data.length) (hesc : ¬ escapes data pos = true)
    (hend : ¬ endsDestination angled depth (byteAt data pos) = true) :
    unit data angled (pos, depth) =
      some (pos + 1, nested angled depth (byteAt data pos)) := by
  rw [unit, if_neg (Nat.not_le.mpr hlt), if_neg hesc, if_neg hend]

lemma unit_of_ends (hesc : ¬ escapes data pos = true)
    (hend : endsDestination angled depth (byteAt data pos) = true) :
    unit data angled (pos, depth) = none := by
  rw [unit, if_neg hesc, if_pos hend, ite_self]

/-- No unit stands where the text ends or a byte that no destination takes. -/
lemma unit_eq_none (h : unit data angled (pos, depth) = none) :
    data.length ≤ pos ∨
      (¬ escapes data pos = true ∧ endsDestination angled depth (byteAt data pos) = true) := by
  rcases Nat.lt_or_ge pos data.length with hlt | hle
  · right
    by_cases hesc : escapes data pos = true
    · rw [unit_of_escapes hesc] at h
      cases h
    · refine ⟨hesc, ?_⟩
      by_contra hend
      rw [unit_of_byte hlt hesc hend] at h
      cases h
  · exact Or.inl hle

/-- A unit is an escape or a byte. -/
lemma unit_cases {next : ℕ × ℕ} (h : unit data angled (pos, depth) = some next) :
    pos < data.length ∧
      ((escapes data pos = true ∧ next = (pos + 2, depth)) ∨
        (¬ escapes data pos = true ∧ ¬ endsDestination angled depth (byteAt data pos) = true ∧
          next = (pos + 1, nested angled depth (byteAt data pos)))) := by
  have hlt : pos < data.length := by
    by_contra hle
    simp [unit, Nat.not_lt.mp hle] at h
  refine ⟨hlt, ?_⟩
  by_cases hesc : escapes data pos = true
  · rw [unit_of_escapes hesc] at h
    exact Or.inl ⟨hesc, (Option.some.inj h).symm⟩
  · right
    by_cases hend : endsDestination angled depth (byteAt data pos) = true
    · rw [unit_of_ends hesc hend] at h
      cases h
    · rw [unit_of_byte hlt hesc hend] at h
      exact ⟨hesc, hend, (Option.some.inj h).symm⟩

lemma unit_lt {next : ℕ × ℕ} (h : unit data angled (pos, depth) = some next) :
    pos < next.1 := by
  rcases (unit_cases h).2 with ⟨-, rfl⟩ | ⟨-, -, rfl⟩
  · exact Nat.lt_add_of_pos_right Nat.two_pos
  · exact Nat.lt_succ_self pos

lemma reaches_le {first last : ℕ × ℕ} (h : Reaches (unit data angled) first last) :
    first.1 ≤ last.1 := by
  induction h with
  | refl => exact le_rfl
  | tail _ hstep ih => exact ih.trans (unit_lt hstep).le

/-- A walk that goes on from a state which is not its last goes on through its unit. -/
lemma reaches_cases {first next last : ℕ × ℕ} (h : Reaches (unit data angled) first last)
    (hstep : unit data angled first = some next) :
    first = last ∨ Reaches (unit data angled) next last := by
  rcases Relation.ReflTransGen.cases_head h with heq | ⟨other, hother, hrest⟩
  · exact Or.inl heq
  · obtain rfl : next = other := Option.some.inj (hstep.symm.trans hother)
    exact Or.inr hrest

end

/-! ### The loop over a bare destination -/

section

variable {data : List UInt8} {offset : ℕ}

lemma length_drop_le_iff {i : ℕ} : (data.drop offset).length ≤ i ↔ data.length ≤ offset + i := by
  rw [List.length_drop]
  omega

lemma escapes_drop (i : ℕ) : escapes (data.drop offset) i = escapes data (offset + i) := by
  rw [escapes, escapes, byteAt_drop, byteAt_drop, List.length_drop, Nat.add_assoc]
  congr 2
  apply decide_eq_decide.mpr
  omega

/-- The loop from an offset is the loop over what lies behind it. -/
lemma scanBareFrom_drop (steps i depth : ℕ) :
    scanBareFrom data offset steps (offset + i) depth =
      (scanBareFrom (data.drop offset) 0 steps i depth).map (offset + ·) := by
  induction steps generalizing i depth with
  | zero => rfl
  | succ steps ih =>
    have hzero : offset + i = offset ↔ i = 0 := by omega
    simp only [scanBareFrom, length_drop_le_iff, escapes_drop, byteAt_drop, hzero, Nat.add_assoc,
      ih]
    split_ifs <;> rfl

lemma scanAngledFrom_drop (steps i : ℕ) :
    scanAngledFrom data steps (offset + i) =
      (scanAngledFrom (data.drop offset) steps i).map (offset + ·) := by
  induction steps generalizing i with
  | zero => rfl
  | succ steps ih =>
    simp only [scanAngledFrom, length_drop_le_iff, escapes_drop, byteAt_drop, Nat.add_assoc, ih]
    split_ifs <;> rfl

/-- Where the loop breaks off before the end of the text, the walk ends. -/
lemma scanBareFrom_some (hclean : 0 ∉ data) {steps pos depth stop : ℕ}
    (hsteps : data.length ≤ pos + steps) (h : scanBareFrom data offset steps pos depth = some stop)
    (hstop : stop < data.length) (hdepth : depth ≤ 32) :
    ∃ last, Reaches (unit data false) (pos, depth) (stop, last) ∧
      unit data false (stop, last) = none := by
  induction steps generalizing pos depth with
  | zero =>
    obtain rfl : pos = stop := Option.some.inj h
    exact absurd hstop (Nat.not_lt.mpr hsteps)
  | succ steps ih =>
    have hlt : pos < data.length := by
      by_contra hle
      rw [scanBareFrom, if_pos (Nat.not_lt.mp hle)] at h
      obtain rfl : pos = stop := Option.some.inj h
      exact hle hstop
    -- A unit the loop steps over is one of the walk.
    have hnext {next : ℕ × ℕ} (hunit : unit data false (pos, depth) = some next)
        (hnext : scanBareFrom data offset steps next.1 next.2 = some stop) (hle : next.2 ≤ 32) :
        ∃ last, Reaches (unit data false) (pos, depth) (stop, last) ∧
          unit data false (stop, last) = none := by
      have hpass := unit_lt hunit
      obtain ⟨last, hreach, hend⟩ := ih (by omega) hnext hle
      exact ⟨last, Relation.ReflTransGen.head hunit hreach, hend⟩
    rw [scanBareFrom, if_neg (Nat.not_le.mpr hlt)] at h
    by_cases hesc : escapes data pos = true
    · rw [if_pos hesc] at h
      exact hnext (unit_of_escapes hesc) h hdepth
    · rw [if_neg hesc] at h
      have hzero : byteAt data pos ≠ 0 := by
        rw [byteAt_eq_getElem hlt]
        rintro hzero
        exact hclean (hzero ▸ List.getElem_mem hlt)
      have hunit := @unit_of_byte data false pos depth hlt hesc
      have hends := @unit_of_ends data false pos depth hesc
      generalize byteAt data pos = c at h hzero hunit hends
      by_cases hopen : c = 0x28
      · subst hopen
        rw [if_pos rfl] at h
        by_cases hdeep : 32 < depth + 1
        · rw [if_pos hdeep] at h
          cases h
        · rw [if_neg hdeep] at h
          have hne : depth ≠ 32 := by omega
          have hin : ¬ endsDestination false depth 0x28 = true := by
            simp [endsDestination, destinationExcludes, hne]
          exact hnext (hunit hin) h (by simp [nested]; omega)
      · rw [if_neg hopen] at h
        by_cases hclose : c = 0x29
        · subst hclose
          rw [if_pos rfl] at h
          by_cases hdepth' : depth = 0
          · rw [if_pos hdepth'] at h
            obtain rfl : pos = stop := Option.some.inj h
            refine ⟨depth, .refl, hends ?_⟩
            simp [endsDestination, hdepth']
          · rw [if_neg hdepth'] at h
            have hin : ¬ endsDestination false depth 0x29 = true := by
              simp [endsDestination, destinationExcludes, hdepth']
            exact hnext (hunit hin) h (by simp [nested]; omega)
        · rw [if_neg hclose] at h
          by_cases hout : destinationExcludes c = true
          · rw [if_pos hout] at h
            split at h
            · cases h
            · obtain rfl : pos = stop := Option.some.inj h
              refine ⟨depth, .refl, hends ?_⟩
              simp [endsDestination, hout, hzero]
          · rw [if_neg hout] at h
            have hin : ¬ endsDestination false depth c = true := by
              simp [endsDestination, hout, hopen, hclose]
            have hsame : nested false depth c = depth := by simp [nested, hopen, hclose]
            have hnext := hnext (hunit hin)
            rw [hsame] at hnext
            exact hnext h hdepth

/-- The loop over a destination in angle brackets breaks off behind a `>` at which the walk ends. -/
lemma scanAngledFrom_some {steps pos stop : ℕ} (hsteps : data.length ≤ pos + steps)
    (h : scanAngledFrom data steps pos = some stop) (hstop : stop < data.length) :
    ∃ close, stop = close + 1 ∧ Reaches (unit data true) (pos, 0) (close, 0) ∧
      unit data true (close, 0) = none := by
  induction steps generalizing pos with
  | zero =>
    obtain rfl : pos = stop := Option.some.inj h
    exact absurd hstop (Nat.not_lt.mpr hsteps)
  | succ steps ih =>
    have hlt : pos < data.length := by
      by_contra hle
      rw [scanAngledFrom, if_pos (Nat.not_lt.mp hle)] at h
      obtain rfl : pos = stop := Option.some.inj h
      exact hle hstop
    have hnext {next : ℕ} (hunit : unit data true (pos, 0) = some (next, 0))
        (hnext : scanAngledFrom data steps next = some stop) :
        ∃ close, stop = close + 1 ∧ Reaches (unit data true) (pos, 0) (close, 0) ∧
          unit data true (close, 0) = none := by
      have hpass : pos < next := unit_lt hunit
      obtain ⟨close, hclose, hreach, hend⟩ := ih (by omega) hnext
      exact ⟨close, hclose, Relation.ReflTransGen.head hunit hreach, hend⟩
    rw [scanAngledFrom, if_neg (Nat.not_le.mpr hlt)] at h
    by_cases hclose : byteAt data pos = 0x3e
    · rw [if_pos hclose] at h
      obtain rfl : pos + 1 = stop := Option.some.inj h
      have hesc : ¬ escapes data pos = true := by simp [escapes, hclose]
      refine ⟨pos, rfl, .refl, unit_of_ends hesc ?_⟩
      simp [endsDestination, hclose]
    · rw [if_neg hclose] at h
      by_cases hesc : escapes data pos = true
      · rw [if_pos hesc] at h
        exact hnext (unit_of_escapes hesc) h
      · rw [if_neg hesc] at h
        by_cases hout : (isLineEnd (byteAt data pos) || byteAt data pos = 0x3c) = true
        · rw [if_pos hout] at h
          cases h
        · rw [if_neg hout] at h
          have hin : ¬ endsDestination true 0 (byteAt data pos) = true := by
            simp only [Bool.or_eq_true, decide_eq_true_eq, not_or] at hout
            simp [endsDestination, hclose, hout]
          exact hnext (unit_of_byte hlt hesc hin) h

end

/-! ### Numeric references -/

section

variable {data : List UInt8} {hash stop : ℕ}

lemma referenceDigit_semicolon (hex : Bool) : referenceDigit hex 0x3b = false := by
  cases hex <;> decide

/-- The reader finds the reference that stands at a `#`. -/
lemma numericReference_of_number (h : NumberAt data hash stop) :
    hash < stop ∧ numericReference data hash = some (stop - hash) := by
  obtain ⟨hex, count, -, hhex, hone, hmost, hdigits, hclose, rfl⟩ := h
  have hsame : (byteAt data (hash + 1) = 0x78 || byteAt data (hash + 1) = 0x58 : Bool) = hex := by
    rw [Bool.eq_iff_iff, hhex]
    simp
  have hlt : hash + 1 + hex.toNat + count < data.length := lt_of_byteAt hclose (by decide)
  have hwidth : width (referenceDigit hex) data (hash + 1 + hex.toNat) = count := by
    have hrun : ∀ k, hash + 1 + hex.toNat ≤ k → k < hash + 1 + hex.toNat + count →
        referenceDigit hex (byteAt data k) = true := by
      intro k hle hk
      obtain ⟨i, rfl⟩ := Nat.exists_eq_add_of_le hle
      exact hdigits i (Nat.lt_of_add_lt_add_left hk)
    apply width_eq _ hrun hlt
    rw [hclose]
    exact referenceDigit_semicolon hex
  refine ⟨by omega, ?_⟩
  simp only [numericReference, hsame, hwidth, Nat.min_eq_right hmost]
  rw [if_neg (Nat.not_le.mpr hlt), if_pos ⟨by omega, hclose⟩]

/-- What the reader takes for a reference is one. -/
lemma number_of_numericReference (hhash : byteAt data hash = 0x23)
    (h : 0 < (numericReference data hash).getD 0) : ∃ stop, NumberAt data hash stop := by
  simp only [numericReference] at h
  generalize hhex : (byteAt data (hash + 1) = 0x78 || byteAt data (hash + 1) = 0x58 : Bool) = hex
    at h
  generalize hcount : min (if hex then 6 else 7)
    (width (referenceDigit hex) data (hash + 1 + hex.toNat)) = count at h
  split_ifs at h with hend hfound
  · cases h
  · obtain ⟨hone, hclose⟩ := hfound
    refine ⟨_, hex, count, hhash, ?_, by omega, ?_, ?_, hclose, rfl⟩
    · rw [← hhex]
      simp
    · rw [← hcount]
      exact Nat.min_le_left _ _
    · intro k hk
      have hin : k < width (referenceDigit hex) data (hash + 1 + hex.toNat) := by
        rw [← hcount] at hk
        exact hk.trans_le (Nat.min_le_right _ _)
      exact (width_byteAt _ (Nat.le_add_right _ k) (Nat.add_lt_add_left hin _)).2
  · cases h

/-- A byte that stands in a reference behind its `#`. -/
def inNumber (c : UInt8) : Bool :=
  referenceDigit true c || c = 0x3b || c = 0x78 || c = 0x58

/-- Such a byte escapes, opens, closes and ends nothing. -/
lemma inNumber_plain {c : UInt8} (h : inNumber c = true) :
    c ≠ 0x5c ∧ c ≠ 0x23 ∧ c ≠ 0x28 ∧ c ≠ 0x29 ∧ c ≠ 0x3c ∧ c ≠ 0x3e ∧ isLineEnd c = false ∧
      destinationExcludes c = false := by
  obtain ⟨b⟩ := c
  revert b
  decide +kernel

lemma referenceDigit_inNumber {hex : Bool} {c : UInt8} (h : referenceDigit hex c = true) :
    inNumber c = true := by
  cases hex with
  | false =>
    have hdigit : isdigit c = true := by simpa [referenceDigit] using h
    simp [inNumber, referenceDigit, hdigit]
  | true => simp [inNumber, h]

lemma NumberAt.bytes (h : NumberAt data hash stop) :
    byteAt data (stop - 1) = 0x3b ∧
      ∀ k, hash < k → k < stop → inNumber (byteAt data k) = true := by
  obtain ⟨hex, count, -, hhex, hone, hmost, hdigits, hclose, rfl⟩ := h
  refine ⟨hclose, ?_⟩
  intro k hlt hstop
  rcases Nat.lt_or_ge k (hash + 1 + hex.toNat) with hbefore | hle
  · cases hex with
    | false => exact absurd hbefore (Nat.not_lt.mpr hlt)
    | true =>
      obtain rfl : k = hash + 1 := Nat.le_antisymm (Nat.le_of_lt_succ hbefore) hlt
      rcases hhex.mp rfl with hx | hx
      · simp [inNumber, hx]
      · simp [inNumber, hx]
  · obtain ⟨i, rfl⟩ := Nat.exists_eq_add_of_le hle
    rcases Nat.lt_or_ge i count with hin | hout
    · exact referenceDigit_inNumber (hdigits i hin)
    · obtain rfl : i = count := by omega
      simp [inNumber, hclose]

/-- The walk passes over a reference byte by byte. -/
lemma NumberAt.reaches (h : NumberAt data hash stop) {angled : Bool} (depth : ℕ) {pos : ℕ}
    (hpos : hash < pos) (hle : pos ≤ stop) :
    Reaches (unit data angled) (pos, depth) (stop, depth) := by
  induction hle using Nat.decreasingInduction with
  | self => exact .refl
  | of_succ pos hlt ih =>
    have hin := (h.bytes.2 pos hpos hlt)
    obtain ⟨hesc, -, hopen, hclose, hless, hgreater, hline, hout⟩ := inNumber_plain hin
    have hbyte : byteAt data pos ≠ 0 := by
      intro hzero
      rw [hzero] at hout
      exact absurd hout (by decide)
    have hesc : ¬ escapes data pos = true := by simp [escapes, hesc]
    have hend : ¬ endsDestination angled depth (byteAt data pos) = true := by
      cases angled <;> simp [endsDestination, hopen, hclose, hless, hgreater, hline, hout]
    have hunit := @unit_of_byte _ angled _ depth (lt_of_byteAt rfl hbyte) hesc hend
    have hsame : nested angled depth (byteAt data pos) = depth := by
      simp [nested, hopen, hclose]
    rw [hsame] at hunit
    exact Relation.ReflTransGen.head hunit (ih (hpos.trans (Nat.lt_succ_self pos)))

end

/-! ### The turns of the loop over a field -/

section

variable {data : List UInt8} {angled fragment : Bool} {steps pos depth : ℕ} {amp : ℤ}

lemma fieldFrom_of_length_le (h : data.length ≤ pos) :
    fieldFrom data angled fragment steps pos amp depth = pos := by
  cases steps with
  | zero => rfl
  | succ steps => rw [fieldFrom, if_pos h]

/-- The reference a turn passes over. -/
def passed (data : List UInt8) (fragment : Bool) (amp : ℤ) (pos : ℕ) : ℕ :=
  if byteAt data pos = 0x23 ∧ fragment = false ∧ amp = (pos : ℤ) - 1 then
    (numericReference data pos).getD 0
  else 0

/-- Where no unit stands the loop ends. -/
lemma fieldFrom_of_unit_none (h : unit data angled (pos, depth) = none) :
    fieldFrom data angled fragment steps pos amp depth = pos := by
  rcases unit_eq_none h with hle | ⟨hesc, hend⟩
  · exact fieldFrom_of_length_le hle
  · cases steps with
    | zero => rfl
    | succ steps =>
      have hhash : byteAt data pos ≠ 0x23 := by
        intro hhash
        rw [hhash] at hend
        cases angled <;> simp [endsDestination, isLineEnd, destinationExcludes] at hend
      simp [fieldFrom, hesc, hhash, hend]

/-- A turn over a byte. -/
lemma fieldFrom_of_byte (hlt : pos < data.length) (hesc : ¬ escapes data pos = true)
    (hend : ¬ endsDestination angled depth (byteAt data pos) = true)
    (hpass : passed data fragment amp pos = 0)
    (hsplit : ¬ (fragment = false ∧ byteAt data pos = 0x23 ∧ depth = 0)) :
    fieldFrom data angled fragment (steps + 1) pos amp depth =
      fieldFrom data angled fragment steps (pos + 1)
        (if byteAt data pos = 0x26 then (pos : ℤ) else amp)
        (nested angled depth (byteAt data pos)) := by
  have hnested : (if angled = false ∧ byteAt data pos = 0x29 then
        (if angled = false ∧ byteAt data pos = 0x28 then depth + 1 else depth) - 1
      else (if angled = false ∧ byteAt data pos = 0x28 then depth + 1 else depth)) =
      nested angled depth (byteAt data pos) := by
    cases angled with
    | true => simp [nested]
    | false =>
      by_cases hopen : byteAt data pos = 0x28
      · simp [nested, hopen]
      · simp [nested, hopen]
  rw [passed] at hpass
  rw [fieldFrom, if_neg (Nat.not_le.mpr hlt)]
  simp only [hesc, hpass, Bool.false_eq_true, if_false, lt_self_iff_false, hsplit, hend, or_self,
    hnested]

/-- A turn over a reference. -/
lemma fieldFrom_of_passed (hlt : pos < data.length) (hesc : ¬ escapes data pos = true)
    (hpass : 0 < passed data fragment amp pos) :
    fieldFrom data angled fragment (steps + 1) pos amp depth =
      fieldFrom data angled fragment steps (pos + passed data fragment amp pos) amp depth := by
  rw [passed] at hpass ⊢
  rw [fieldFrom, if_neg (Nat.not_le.mpr hlt)]
  simp only [hesc, Bool.false_eq_true, if_false, hpass, if_true]

/-- A turn that ends the loop at a `#`. -/
lemma fieldFrom_of_split (hlt : pos < data.length) (hesc : ¬ escapes data pos = true)
    (hpass : passed data fragment amp pos = 0)
    (hsplit : fragment = false ∧ byteAt data pos = 0x23 ∧ depth = 0) :
    fieldFrom data angled fragment (steps + 1) pos amp depth = pos := by
  rw [passed] at hpass
  rw [fieldFrom, if_neg (Nat.not_le.mpr hlt)]
  simp only [hesc, hpass, Bool.false_eq_true, if_false, lt_self_iff_false]
  rw [if_pos (Or.inl hsplit)]

/-- A turn over an escape, or two over an escaped `&`, which is read as a byte of its own. -/
lemma fieldFrom_of_escapes (hsteps : data.length ≤ pos + steps) (hesc : escapes data pos = true) :
    ∃ steps' amp', steps' < steps ∧ data.length ≤ pos + 2 + steps' ∧
      (amp' = if byteAt data (pos + 1) = 0x26 then (pos : ℤ) + 1 else amp) ∧
      fieldFrom data angled fragment steps pos amp depth =
        fieldFrom data angled fragment steps' (pos + 2) amp' depth := by
  have hnext := (escapes_iff.mp hesc).2.1
  obtain ⟨steps, rfl⟩ : ∃ n, steps = n + 2 := ⟨steps - 2, by omega⟩
  by_cases hamp : byteAt data (pos + 1) = 0x26
  · refine ⟨steps, (pos : ℤ) + 1, by omega, by omega, by rw [if_pos hamp], ?_⟩
    have hturn : fieldFrom data angled fragment (steps + 2) pos amp depth =
        fieldFrom data angled fragment (steps + 1) (pos + 1) amp depth := by
      rw [fieldFrom, if_neg (Nat.not_le.mpr (by omega))]
      simp only [hesc, if_true, hamp]
    have hplain : ¬ escapes data (pos + 1) = true := by simp [escapes, hamp]
    have hend : ¬ endsDestination angled depth (byteAt data (pos + 1)) = true := by
      rw [hamp]
      cases angled <;> simp [endsDestination, isLineEnd, destinationExcludes]
    have hpass : passed data fragment amp (pos + 1) = 0 := by simp [passed, hamp]
    have hsplit : ¬ (fragment = false ∧ byteAt data (pos + 1) = 0x23 ∧ depth = 0) := by
      simp [hamp]
    have hsame : nested angled depth (byteAt data (pos + 1)) = depth := by simp [nested, hamp]
    rw [hturn, fieldFrom_of_byte hnext hplain hend hpass hsplit, if_pos hamp, hsame]
    push_cast
    rfl
  · refine ⟨steps + 1, amp, by omega, by omega, by rw [if_neg hamp], ?_⟩
    rw [fieldFrom, if_neg (Nat.not_le.mpr (by omega))]
    simp only [hesc, if_true, hamp, if_false]

/-- The loop for a fragment ends where the walk does. -/
lemma fieldFrom_fragment {stop last : ℕ} (hsteps : data.length ≤ pos + steps)
    (hreach : Reaches (unit data angled) (pos, depth) (stop, last))
    (hend : unit data angled (stop, last) = none) :
    fieldFrom data angled true steps pos amp depth = stop := by
  induction steps using Nat.strong_induction_on generalizing pos depth amp with
  | _ steps ih =>
    cases hunit : unit data angled (pos, depth) with
    | none =>
      rw [fieldFrom_of_unit_none hunit]
      rcases Relation.ReflTransGen.cases_head hreach with heq | ⟨next, hnext, -⟩
      · exact congrArg Prod.fst heq
      · rw [hunit] at hnext
        cases hnext
    | some next =>
      have hrest : Reaches (unit data angled) next (stop, last) := by
        rcases reaches_cases hreach hunit with heq | hrest
        · rw [← heq, hunit] at hend
          cases hend
        · exact hrest
      obtain ⟨hlt, ⟨hesc, rfl⟩ | ⟨hesc, hin, rfl⟩⟩ := unit_cases hunit
      · obtain ⟨steps', amp', hless, hsteps', -, heq⟩ :=
          @fieldFrom_of_escapes _ angled true _ _ depth amp hsteps hesc
        rw [heq]
        exact ih steps' hless hsteps' hrest
      · obtain ⟨steps, rfl⟩ : ∃ n, steps = n + 1 := ⟨steps - 1, by omega⟩
        have hpass : passed data true amp pos = 0 := by simp [passed]
        rw [fieldFrom_of_byte hlt hesc hin hpass (by simp)]
        exact ih steps (Nat.lt_succ_self _) (by omega) hrest

end

/-! ### The loop over a path -/

section

variable {data : List UInt8} {angled : Bool} {pos depth : ℕ} {amp : ℤ}

/-- What the loop remembers of the last `&` tells whether a `#` starts a reference. -/
def Marks (data : List UInt8) (amp : ℤ) (pos : ℕ) : Prop :=
  amp < pos ∧ ((amp = (pos : ℤ) - 1 ∧ ∃ stop, NumberAt data pos stop) ↔ StartsReference data pos)

/-- Behind a byte the loop remembers it when it is a `&`. -/
lemma Marks.of_byte (hamp : amp < pos) :
    Marks data (if byteAt data pos = 0x26 then (pos : ℤ) else amp) (pos + 1) := by
  have hcast : ((pos + 1 : ℕ) : ℤ) - 1 = pos := by omega
  by_cases hc : byteAt data pos = 0x26
  · rw [if_pos hc]
    refine ⟨by push_cast; omega, ?_⟩
    rw [hcast]
    simp [StartsReference, hc]
  · rw [if_neg hc]
    refine ⟨by push_cast; omega, ?_⟩
    have hne : amp ≠ pos := hamp.ne
    rw [hcast]
    simp [StartsReference, hc, hne]

lemma reaches_depth {first : ℕ × ℕ} {d d' : ℕ}
    (h : Reaches (unit data angled) first (pos, d))
    (h' : Reaches (unit data angled) first (pos, d')) : d = d' := by
  have hrefl {d d' : ℕ} (h : Reaches (unit data angled) (pos, d) (pos, d')) : d = d' := by
    rcases Relation.ReflTransGen.cases_head h with heq | ⟨next, hnext, hrest⟩
    · exact congrArg Prod.snd heq
    · exact absurd (unit_lt hnext) (Nat.not_lt.mpr (reaches_le hrest))
  rcases reaches_total h h' with h | h
  · exact hrefl h
  · exact (hrefl h).symm

/-- A state the walk reaches at or behind a position it has reached is reached from there. -/
lemma reaches_behind {first : ℕ × ℕ} {hash d : ℕ}
    (h : Reaches (unit data angled) first (pos, depth))
    (h' : Reaches (unit data angled) first (hash, d)) (hle : pos ≤ hash) :
    Reaches (unit data angled) (pos, depth) (hash, d) := by
  rcases reaches_total h h' with hreach | hreach
  · exact hreach
  · obtain rfl : hash = pos := Nat.le_antisymm (reaches_le hreach) hle
    rw [reaches_depth h h']
    exact .refl

/-- The walk does not stop inside a unit. -/
lemma not_reaches_inside {first next : ℕ × ℕ} {hash d : ℕ}
    (h : Reaches (unit data angled) first (pos, depth))
    (hunit : unit data angled (pos, depth) = some next) (hlt : pos < hash) (hin : hash < next.1) :
    ¬ Reaches (unit data angled) first (hash, d) := by
  intro h'
  rcases reaches_cases (reaches_behind h h' hlt.le) hunit with heq | hrest
  · exact absurd (congrArg Prod.fst heq) hlt.ne
  · exact absurd (reaches_le hrest) (Nat.not_le.mpr hin)

/-- The loop for a path ends at the first `#` from where it stands that starts a fragment, or
where the walk does. -/
lemma fieldFrom_path {steps stop last : ℕ} (hsteps : data.length ≤ pos + steps)
    (hfirst : Reaches (unit data angled) (0, 0) (pos, depth))
    (hreach : Reaches (unit data angled) (pos, depth) (stop, last))
    (hend : unit data angled (stop, last) = none) (hmarks : Marks data amp pos) :
    ∃ answer, fieldFrom data angled false steps pos amp depth = answer ∧ answer ≤ stop ∧
      (answer < stop → Splits data angled answer) ∧
      ∀ hash, pos ≤ hash → hash < answer → ¬ Splits data angled hash := by
  induction steps using Nat.strong_induction_on generalizing pos depth amp with
  | _ steps ih =>
    cases hunit : unit data angled (pos, depth) with
    | none =>
      have hstop : pos = stop := by
        rcases Relation.ReflTransGen.cases_head hreach with heq | ⟨next, hnext, -⟩
        · exact congrArg Prod.fst heq
        · rw [hunit] at hnext
          cases hnext
      refine ⟨pos, fieldFrom_of_unit_none hunit, hstop.le, ?_, ?_⟩
      · intro hlt
        exact absurd hstop hlt.ne
      · intro hash hle hlt
        exact absurd hle (Nat.not_le.mpr hlt)
    | some next =>
      have hrest : Reaches (unit data angled) next (stop, last) := by
        rcases reaches_cases hreach hunit with heq | hrest
        · rw [← heq, hunit] at hend
          cases hend
        · exact hrest
      -- The loop goes on from a state of the walk, past no `#` that starts a fragment.
      have hgo {steps' pos' depth' : ℕ} {amp' : ℤ} (hless : steps' < steps)
          (hsteps' : data.length ≤ pos' + steps') (heq : fieldFrom data angled false steps pos amp
            depth = fieldFrom data angled false steps' pos' amp' depth')
          (hwalk : Reaches (unit data angled) (pos, depth) (pos', depth'))
          (hrest : Reaches (unit data angled) (pos', depth') (stop, last))
          (hmarks' : Marks data amp' pos')
          (hskip : ∀ hash, pos ≤ hash → hash < pos' → ¬ Splits data angled hash) :
          ∃ answer, fieldFrom data angled false steps pos amp depth = answer ∧ answer ≤ stop ∧
            (answer < stop → Splits data angled answer) ∧
            ∀ hash, pos ≤ hash → hash < answer → ¬ Splits data angled hash := by
        obtain ⟨answer, hanswer, hle, hsplit, hbefore⟩ :=
          ih steps' hless hsteps' (hfirst.trans hwalk) hrest hmarks'
        refine ⟨answer, heq.trans hanswer, hle, hsplit, ?_⟩
        intro hash hpos hlt
        rcases Nat.lt_or_ge hash pos' with hin | hout
        · exact hskip hash hpos hin
        · exact hbefore hash hout hlt
      obtain ⟨hlt, hcases⟩ := unit_cases hunit
      rcases hcases with ⟨hesc, rfl⟩ | ⟨hesc, hin, rfl⟩
      · obtain ⟨steps', amp', hless, hsteps', hamp', heq⟩ :=
          @fieldFrom_of_escapes _ angled false _ _ depth amp hsteps hesc
        have hmarks' : Marks data amp' (pos + 2) := by
          have h := @Marks.of_byte data (pos + 1) amp (by have := hmarks.1; omega)
          rw [hamp']
          exact h
        refine hgo hless hsteps' heq (.single hunit) hrest hmarks' ?_
        intro hash hle hlt hsplit
        rcases Nat.eq_or_lt_of_le hle with rfl | hgt
        · have hhash := hsplit.2.1
          rw [(escapes_iff.mp hesc).1] at hhash
          exact absurd hhash (by decide)
        · exact not_reaches_inside hfirst hunit hgt hlt hsplit.1
      · obtain ⟨steps, rfl⟩ : ∃ n, steps = n + 1 := ⟨steps - 1, by omega⟩
        by_cases hstart : byteAt data pos = 0x23 ∧ StartsReference data pos
        · -- a reference is passed over as a whole
          obtain ⟨hhash, hstart⟩ := hstart
          obtain ⟨hamp, number, hnumber⟩ := hmarks.2.mpr hstart
          obtain ⟨hgrow, hread⟩ := numericReference_of_number hnumber
          have hpass : passed data false amp pos = number - pos := by
            rw [passed, if_pos ⟨hhash, rfl, hamp⟩, hread]
            rfl
          have hturn := @fieldFrom_of_passed data angled false steps pos depth amp hlt hesc
            (by rw [hpass]; omega)
          rw [hpass, Nat.add_sub_cancel' hgrow.le] at hturn
          have hsame : nested angled depth (byteAt data pos) = depth := by simp [nested, hhash]
          rw [hsame] at hunit
          have hwalk : Reaches (unit data angled) (pos, depth) (number, depth) :=
            .head hunit (hnumber.reaches depth (Nat.lt_succ_self pos) hgrow)
          have hbytes := hnumber.bytes
          have hbehind : Reaches (unit data angled) (number, depth) (stop, last) := by
            apply reaches_behind (hfirst.trans hwalk) (hfirst.trans hreach)
            rcases reaches_total hwalk hreach with h | h
            · exact reaches_le h
            · -- the walk does not end within the reference
              rcases Relation.ReflTransGen.cases_head h with heq | ⟨next, hnext, -⟩
              · exact (congrArg Prod.fst heq).ge
              · rw [hend] at hnext
                cases hnext
          refine hgo (Nat.lt_succ_self _) (by omega) hturn hwalk hbehind ⟨by omega, ?_⟩ ?_
          · constructor
            · rintro ⟨h, -⟩
              omega
            · rintro ⟨-, hamp', -⟩
              rw [hbytes.1] at hamp'
              exact absurd hamp' (by decide)
          · intro hash hle hlt hsplit
            rcases Nat.eq_or_lt_of_le hle with rfl | hgt
            · exact hsplit.2.2 hstart
            · exact (inNumber_plain (hbytes.2 hash hgt hlt)).2.1 hsplit.2.1
        · have hpass : passed data false amp pos = 0 := by
            rw [passed]
            split
            case isTrue h =>
              by_contra hne
              apply hstart
              refine ⟨h.1, hmarks.2.mp ⟨h.2.2, ?_⟩⟩
              exact number_of_numericReference h.1 (Nat.pos_of_ne_zero hne)
            case isFalse => rfl
          by_cases hsplit : byteAt data pos = 0x23 ∧ depth = 0
          · obtain ⟨hhash, rfl⟩ := hsplit
            have hsplits : Splits data angled pos :=
              ⟨hfirst, hhash, fun h => hstart ⟨hhash, h⟩⟩
            refine ⟨pos, ?_, reaches_le hreach, fun _ => hsplits, ?_⟩
            · exact fieldFrom_of_split hlt hesc hpass ⟨rfl, hhash, rfl⟩
            · intro hash hle hlt
              exact absurd hle (Nat.not_le.mpr hlt)
          · have hturn := @fieldFrom_of_byte data angled false steps pos depth amp hlt hesc hin
              hpass (by simpa using hsplit)
            refine hgo (Nat.lt_succ_self _) (by omega) hturn (.single hunit) hrest
              (Marks.of_byte hmarks.1) ?_
            intro hash hle hless h
            obtain rfl : hash = pos := Nat.le_antisymm (Nat.le_of_lt_succ hless) hle
            exact hsplit ⟨h.2.1, reaches_depth hfirst h.1⟩

end

/-! ### The two readings -/

section

variable {data : List UInt8} {angled fragment : Bool}

/-- The loop moves forward within the text. -/
lemma fieldFrom_bounds {steps pos depth : ℕ} {amp : ℤ} (h : pos ≤ data.length) :
    pos ≤ fieldFrom data angled fragment steps pos amp depth ∧
      fieldFrom data angled fragment steps pos amp depth ≤ data.length := by
  induction steps generalizing pos depth amp with
  | zero => exact ⟨le_rfl, h⟩
  | succ steps ih =>
    rcases Nat.lt_or_ge pos data.length with hlt | hle
    · have hgo {pos' depth' : ℕ} {amp' : ℤ} (hle : pos ≤ pos') (hin : pos' ≤ data.length) :
          pos ≤ fieldFrom data angled fragment steps pos' amp' depth' ∧
            fieldFrom data angled fragment steps pos' amp' depth' ≤ data.length :=
        ⟨hle.trans (ih hin).1, (ih hin).2⟩
      by_cases hesc : escapes data pos = true
      · have hnext := (escapes_iff.mp hesc).2.1
        rw [fieldFrom, if_neg (Nat.not_le.mpr hlt)]
        simp only [hesc, if_true]
        split
        · exact hgo (Nat.le_succ pos) hlt
        · exact hgo (Nat.le_add_right pos 2) hnext
      · rcases Nat.eq_zero_or_pos (passed data fragment amp pos) with hpass | hpass
        · by_cases hsplit : fragment = false ∧ byteAt data pos = 0x23 ∧ depth = 0
          · rw [fieldFrom_of_split hlt hesc hpass hsplit]
            exact ⟨le_rfl, h⟩
          · by_cases hend : endsDestination angled depth (byteAt data pos) = true
            · rw [fieldFrom_of_unit_none (unit_of_ends hesc hend)]
              exact ⟨le_rfl, h⟩
            · rw [fieldFrom_of_byte hlt hesc hend hpass hsplit]
              exact hgo (Nat.le_succ pos) hlt
        · rw [fieldFrom_of_passed hlt hesc hpass]
          refine hgo (Nat.le_add_right _ _) ?_
          rw [passed] at hpass ⊢
          split at hpass
          case isTrue hread =>
            obtain ⟨stop, hnumber⟩ := number_of_numericReference hread.1 hpass
            have hin : stop - 1 < data.length := lt_of_byteAt hnumber.bytes.1 (by decide)
            obtain ⟨hgrow, heq⟩ := numericReference_of_number hnumber
            rw [if_pos hread, heq, Option.getD_some]
            omega
          case isFalse => exact absurd hpass (lt_irrefl _)
    · rw [fieldFrom_of_length_le hle]
      exact ⟨le_rfl, h⟩

end

/-- Whether the destination at an offset is one in angle brackets. -/
def inAngles (data : List UInt8) (offset : ℕ) : Bool := byteAt data offset = 0x3c

/-- The first byte of the destination at an offset. -/
def firstByte (data : List UInt8) (offset : ℕ) : ℕ :=
  if inAngles data offset then offset + 1 else offset

/-- The field's reader agrees with the parser on the destination at an offset: for a fragment it
ends where the destination does, for a path at its first `#` that starts a fragment, and the two
spell the destination; where the parser takes none it ends inside the text, wherever it starts. -/
def Agrees (data : List UInt8) (offset : ℕ) : Prop :=
  (∀ used span, manualScanLinkUrl data offset = some (used, span) →
    let rest := data.drop (firstByte data offset)
    let angled := inAngles data offset
    let size := span.stop - span.start
    let path := fieldEnd rest angled false
    span.start = firstByte data offset ∧ span.start ≤ span.stop ∧ span.stop < data.length ∧
      fieldEnd rest angled true = size ∧
      PathEnds rest angled size path ∧
      slice data span =
        rest.take path ++ if path < size then 0x23 :: slice rest ⟨path + 1, size⟩ else []) ∧
  (manualScanLinkUrl data offset = none →
    ∀ start ≤ data.length, ∀ angled fragment,
      start + fieldEnd (data.drop start) angled fragment ≤ data.length)

/-- What the parser takes for a destination is a walk from its first byte to where no unit
stands. -/
lemma reaches_of_scan (input : Content) {offset used : ℕ} {span : Span}
    (h : manualScanLinkUrl input.data offset = some (used, span)) :
    span.start = firstByte input.data offset ∧ span.start ≤ span.stop ∧
      span.stop < input.data.length ∧
      ∃ last, Reaches (unit (input.data.drop span.start) (inAngles input.data offset)) (0, 0)
          (span.stop - span.start, last) ∧
        unit (input.data.drop span.start) (inAngles input.data offset)
          (span.stop - span.start, last) = none := by
  cases hangled : inAngles input.data offset with
  | true =>
    have hless : byteAt input.data offset = 0x3c := by simpa [inAngles] using hangled
    have hlt : offset < input.data.length := lt_of_byteAt hless (by decide)
    have hscan := @scanAngledFrom_drop input.data (offset + 1) input.data.length 0
    rw [manualScanLinkUrl, if_pos ⟨hlt, hless⟩, ← Nat.add_zero (offset + 1), hscan] at h
    cases hrest : scanAngledFrom (input.data.drop (offset + 1)) input.data.length 0 with
    | none => simp [hrest] at h
    | some i =>
      simp only [hrest, Option.map_some] at h
      split_ifs at h with hout
      obtain ⟨-, rfl⟩ := Prod.mk.inj (Option.some.inj h)
      have hin : i < (input.data.drop (offset + 1)).length := by
        rw [List.length_drop]
        omega
      have hsteps : (input.data.drop (offset + 1)).length ≤ 0 + input.data.length := by
        rw [List.length_drop]
        omega
      obtain ⟨close, rfl, hreach, hend⟩ := scanAngledFrom_some hsteps hrest hin
      have hfirst : firstByte input.data offset = offset + 1 := by simp [firstByte, hangled]
      have hsize : offset + 1 + 0 + (offset + 1 + (close + 1) - 2 - offset) - (offset + 1 + 0) =
          close := by omega
      refine ⟨hfirst.symm, Nat.le_add_right _ _, ?_, 0, ?_, ?_⟩
      · simp only
        omega
      · simp only [Nat.add_zero] at hsize ⊢
        rw [hsize]
        exact hreach
      · simp only [Nat.add_zero] at hsize ⊢
        rw [hsize]
        exact hend
  | false =>
    have hless : ¬ (offset < input.data.length ∧ byteAt input.data offset = 0x3c) := by
      rintro ⟨-, hless⟩
      simp [inAngles, hless] at hangled
    have hscan := @scanBareFrom_drop input.data offset input.data.length 0 0
    rw [Nat.add_zero] at hscan
    rw [manualScanLinkUrl, if_neg hless, scanBare, hscan] at h
    cases hrest : scanBareFrom (input.data.drop offset) 0 input.data.length 0 0 with
    | none => simp [hrest] at h
    | some i =>
      simp only [hrest, Option.map_some] at h
      split_ifs at h with hout
      obtain ⟨-, rfl⟩ := Prod.mk.inj (Option.some.inj h)
      have hin : i < (input.data.drop offset).length := by
        rw [List.length_drop]
        omega
      have hsteps : (input.data.drop offset).length ≤ 0 + input.data.length := by
        rw [List.length_drop]
        omega
      have hclean : 0 ∉ input.data.drop offset := fun h => input.clean (List.mem_of_mem_drop h)
      obtain ⟨last, hreach, hend⟩ :=
        scanBareFrom_some hclean hsteps hrest hin (Nat.zero_le _)
      have hfirst : firstByte input.data offset = offset := by simp [firstByte, hangled]
      refine ⟨hfirst.symm, Nat.le_add_right _ _, Nat.not_le.mp hout, last, ?_, ?_⟩
      · simpa using hreach
      · simpa using hend

/-- The path and what is behind its `#` spell the destination. -/
lemma spell (rest : List UInt8) {path size : ℕ} (hle : path ≤ size)
    (hhash : path < size → byteAt rest path = 0x23) :
    rest.take size =
      rest.take path ++ if path < size then 0x23 :: slice rest ⟨path + 1, size⟩ else [] := by
  rcases Nat.lt_or_eq_of_le hle with hlt | rfl
  · have hbyte := hhash hlt
    have hin : path < rest.length := lt_of_byteAt hbyte (by decide)
    obtain ⟨more, rfl⟩ := Nat.exists_eq_add_of_lt hlt
    rw [byteAt_eq_getElem hin] at hbyte
    have hsize : path + (more + 1) - (path + 1) = more := by omega
    rw [if_pos hlt, Nat.add_assoc, List.take_add, List.drop_eq_getElem_cons hin,
      List.take_succ_cons, hbyte, slice]
    simp only
    rw [hsize]
  · simp

/-- The two readers of a destination agree exactly where it does not begin with what behind a `&`
would be a numeric reference. -/
theorem agrees_iff (input : Content) (offset : ℕ) :
    Agrees input.data offset ↔
      ((manualScanLinkUrl input.data offset).isSome →
        ∀ stop, ¬ NumberAt (input.data.drop (firstByte input.data offset)) 0 stop) := by
  constructor
  · intro h hsome stop hnumber
    obtain ⟨⟨used, span⟩, hscan⟩ := Option.isSome_iff_exists.mp hsome
    obtain ⟨-, -, -, -, ⟨hle, hsplit, hbefore⟩, -⟩ := h.1 used span hscan
    generalize input.data.drop (firstByte input.data offset) = rest at *
    generalize inAngles input.data offset = angled at *
    -- the loop goes past the number, and its `#` starts a fragment
    have hhash : byteAt rest 0 = 0x23 := by
      obtain ⟨hex, count, hhash, -⟩ := hnumber
      exact hhash
    obtain ⟨hgrow, hread⟩ := numericReference_of_number hnumber
    have hpass : passed rest false (-1) 0 = stop := by
      rw [passed, if_pos ⟨hhash, rfl, by simp⟩, hread]
      rfl
    have hlt : 0 < rest.length := lt_of_byteAt hhash (by decide)
    have hfirst : ¬ Splits rest angled 0 := by
      apply hbefore 0
      rw [fieldEnd]
      obtain ⟨steps, hsteps⟩ := Nat.exists_eq_add_one_of_ne_zero hlt.ne'
      have hesc : ¬ escapes rest 0 = true := by simp [escapes, hhash]
      rw [hsteps, fieldFrom_of_passed hlt hesc (by rw [hpass]; exact hgrow), hpass, Nat.zero_add]
      have hin : stop ≤ rest.length := by
        have hclose := hnumber.bytes.1
        have hlast : stop - 1 < rest.length :=
          lt_of_byteAt hclose (by decide)
        omega
      exact hgrow.trans_le (fieldFrom_bounds hin).1
    apply hfirst
    exact ⟨.refl, hhash, fun h => absurd h.1 (lt_irrefl _)⟩
  · intro h
    refine ⟨?_, ?_⟩
    · intro used span hscan
      have hnone := h (by rw [hscan]; rfl)
      obtain ⟨hstart, hle, hstop, last, hreach, hend⟩ := reaches_of_scan input hscan
      rw [hstart] at hreach hend
      have hsteps : (input.data.drop (firstByte input.data offset)).length ≤
          0 + (input.data.drop (firstByte input.data offset)).length := by
        rw [Nat.zero_add]
      have hmarks : Marks (input.data.drop (firstByte input.data offset)) (-1) 0 := by
        refine ⟨by simp, ?_⟩
        constructor
        · rintro ⟨-, stop, hnumber⟩
          exact absurd hnumber (hnone stop)
        · rintro ⟨hpos, -⟩
          exact absurd hpos (lt_irrefl _)
      obtain ⟨path, hpath, hpathle, hsplit, hbefore⟩ :=
        fieldFrom_path hsteps .refl hreach hend hmarks
      have hfield : fieldEnd (input.data.drop (firstByte input.data offset))
          (inAngles input.data offset) false = path := hpath
      rw [← hstart] at *
      simp only [hfield]
      refine ⟨trivial, hle, hstop, fieldFrom_fragment hsteps hreach hend,
        ⟨hpathle, hsplit, fun hash hlt => hbefore hash (Nat.zero_le _) hlt⟩, ?_⟩
      exact spell _ hpathle fun hlt => (hsplit hlt).2.1
    · intro _ start hstart angled fragment
      have hbounds := @fieldFrom_bounds (input.data.drop start) angled fragment
        (input.data.drop start).length 0 0 (-1) (Nat.zero_le _)
      have hlength : (input.data.drop start).length = input.data.length - start :=
        List.length_drop
      rw [fieldEnd]
      omega

/-- A destination that is taken for a reference without its `&`. -/
theorem agrees_not_number : ¬ ∀ (input : Content) (offset : ℕ), Agrees input.data offset := by
  intro h
  have hclean : (0 : UInt8) ∉ ([0x23, 0x33, 0x35, 0x3b, 0x29, 0x20] : List UInt8) := by simp
  have hscan : manualScanLinkUrl [0x23, 0x33, 0x35, 0x3b, 0x29, 0x20] 0 = some (4, ⟨0, 4⟩) := by
    decide
  obtain ⟨-, -, -, -, ⟨-, -, hbefore⟩, -⟩ := (h ⟨_, hclean⟩ 0).1 4 ⟨0, 4⟩ hscan
  have hpath : fieldEnd ([0x23, 0x33, 0x35, 0x3b, 0x29, 0x20] : List UInt8) false false = 4 := by
    decide
  apply hbefore 0
  · change 0 < fieldEnd ([0x23, 0x33, 0x35, 0x3b, 0x29, 0x20] : List UInt8) false false
    rw [hpath]
    exact Nat.succ_pos 3
  · exact ⟨.refl, rfl, fun hstart => absurd hstart.1 (lt_irrefl _)⟩

end MarkdownCore.Inline
