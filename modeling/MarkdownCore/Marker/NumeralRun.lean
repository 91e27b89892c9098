import Mathlib.Algebra.BigOperators.Group.List.Basic
import Mathlib.Algebra.Order.Ring.Int
import Mathlib.Algebra.Order.Ring.Nat
import Mathlib.Tactic.IntervalCases
import Mathlib.Tactic.NormNum
import MarkdownCore.Marker.Numeral

/-!
# Numerals by value

What a reader accepts is the sum of the terms it took, with no `int` past its bounds. The
greedy loop over the Roman terms reads the canonical spelling of every number back, and the
scan of a marker stops wherever a numeral with a delimiter behind it ends.
-/

namespace MarkdownCore.Marker

open Inline (byteAt width isdigit isWhitespace)
open Autolink (isalpha)

lemma int_ok {n : ℤ} (hlow : 0 ≤ n) (hhigh : n ≤ 2147483647) : int n = .ok n :=
  if_pos ⟨by omega, hhigh⟩

/-! ### The terms taken -/

/-- The terms a greedy pass takes: each any number of times where it may follow itself, at most
once where not. -/
inductive InOrder : List Term → List Term → Prop
  | nil : InOrder [] []
  | cons {term : Term} {rest taken : List Term} (k : ℕ) (h : term.repeats = true ∨ k ≤ 1)
      (hrest : InOrder rest taken) : InOrder (term :: rest) (List.replicate k term ++ taken)

/-- The values of the digits of a number at their places. -/
def placeValues : List UInt8 → List ℤ
  | [] => []
  | digit :: rest => ((digit.toNat : ℤ) - 48) * 10 ^ rest.length :: placeValues rest

/-- The bytes of a numeral in a variant, with the values of its terms. -/
inductive Took (variant : Variant) : List UInt8 → List ℤ → Prop
  | automatic : Took variant [0x23] [1]
  | letter (byte : UInt8) (n : ℕ) (hkind : variant.kind = .alpha) (hn : n < 26)
      (hbyte : byte.toNat = (if variant.lowercased then 97 else 65) + n) :
      Took variant [byte] [n + 1]
  | digits (bytes : List UInt8) (hkind : variant.kind = .decimal) (hpos : 0 < bytes.length)
      (hlength : bytes.length ≤ 9) (hdigits : ∀ b ∈ bytes, isdigit b = true) :
      Took variant bytes (placeValues bytes)
  | roman (taken : List Term) (hkind : variant.kind = .roman) (htaken : taken ≠ [])
      (horder : InOrder terms taken) :
      Took variant (taken.flatMap (Term.spelled (caseOffset variant.lowercased)))
        (taken.map Term.value)

/-- The values a term of the table may have. -/
def Term.Bounded (term : Term) : Prop :=
  0 < term.value ∧ term.value ≤ 1000 ∧ term.text ≠ []

lemma terms_bounded : ∀ term ∈ terms, term.Bounded := by
  simp [terms, Term.Bounded]

lemma isPrefixOf_split {head bytes : List UInt8} (h : head.isPrefixOf bytes = true) :
    bytes = head ++ bytes.drop head.length := by
  obtain ⟨rest, rfl⟩ := List.isPrefixOf_iff_prefix.mp h
  simp

lemma length_spelled (offset : UInt8) (term : Term) :
    (term.spelled offset).length = term.text.length := by
  simp [Term.spelled]

/-- One term's loop refuses, or has taken the term as often as it may. -/
lemma takeTerm_cases (offset : UInt8) {term : Term} (hterm : term.Bounded) :
    ∀ (left : ℕ) (bytes : List UInt8) (number : ℤ), 0 ≤ number → number ≤ 999999999 →
      takeTerm offset term left bytes number = .error .refused ∨
        ∃ (k : ℕ) (rest : List UInt8),
          takeTerm offset term left bytes number = .ok (rest, number + k * term.value) ∧
            bytes = (List.replicate k term).flatMap (Term.spelled offset) ++ rest ∧
            (term.repeats = true ∨ k ≤ 1) ∧ number + k * term.value ≤ 999999999 := by
  intro left
  induction left with
  | zero =>
    intro bytes number _ hhigh
    exact Or.inr ⟨0, bytes, by simp [takeTerm], by simp, Or.inr (Nat.zero_le 1), by simpa⟩
  | succ left ih =>
    intro bytes number hlow hhigh
    obtain ⟨hpos, hbound, -⟩ := hterm
    rw [takeTerm]
    split
    next hprefix =>
      have hsplit := isPrefixOf_split hprefix
      rw [length_spelled] at hsplit
      split
      next => exact Or.inl rfl
      next hroom =>
        have hsum : number + term.value ≤ 999999999 := by omega
        rw [int_ok (by omega) (by omega)]
        dsimp only [bind, Except.bind]
        split
        next hrepeats =>
          rcases ih (bytes.drop term.text.length) (number + term.value) (by omega) hsum with
            h | ⟨k, rest, hread, hbytes, hk, hle⟩
          · exact Or.inl h
          · refine Or.inr ⟨k + 1, rest, ?_, ?_, Or.inl hrepeats, ?_⟩
            · rw [hread, Nat.cast_succ, add_mul, one_mul, add_assoc, add_comm term.value]
            · rw [hbytes] at hsplit
              rw [List.replicate_succ, List.flatMap_cons, List.append_assoc]
              exact hsplit
            · rw [Nat.cast_succ, add_mul, one_mul, add_comm _ term.value, ← add_assoc]
              exact hle
        next =>
          refine Or.inr ⟨1, bytes.drop term.text.length, by simp, ?_, Or.inr le_rfl,
            by simpa using hsum⟩
          simpa using hsplit
    next =>
      exact Or.inr ⟨0, bytes, by simp, by simp, Or.inr (Nat.zero_le 1), by simpa⟩

/-- The loop over the terms refuses, or the number is the sum of the terms it took, in the
order of the table. -/
lemma takeTerms_cases (offset : UInt8) :
    ∀ (ts : List Term), (∀ term ∈ ts, term.Bounded) → ∀ (bytes : List UInt8) (number : ℤ),
      0 ≤ number → number ≤ 999999999 →
      takeTerms offset ts bytes number = .error .refused ∨
        ∃ taken rest,
          takeTerms offset ts bytes number = .ok (rest, number + (taken.map Term.value).sum) ∧
            bytes = taken.flatMap (Term.spelled offset) ++ rest ∧ InOrder ts taken ∧
            number + (taken.map Term.value).sum ≤ 999999999 := by
  intro ts
  induction ts with
  | nil =>
    intro _ bytes number _ hhigh
    exact Or.inr ⟨[], bytes, by simp [takeTerms], by simp, InOrder.nil, by simpa⟩
  | cons term rest ih =>
    intro hts bytes number hlow hhigh
    have hterm := hts term List.mem_cons_self
    rw [takeTerms]
    rcases takeTerm_cases offset hterm bytes.length bytes number hlow hhigh with
      h | ⟨k, left, hread, hbytes, hk, hle⟩
    · rw [h]
      exact Or.inl rfl
    · rw [hread]
      dsimp only [bind, Except.bind]
      have hnonneg : 0 ≤ (k : ℤ) * term.value := mul_nonneg (Nat.cast_nonneg k) hterm.1.le
      have hmore := ih (fun t ht => hts t (List.mem_cons_of_mem _ ht)) left
        (number + k * term.value) (by omega) hle
      rcases hmore with h | ⟨taken, rest', hread', hbytes', horder, hle'⟩
      · exact Or.inl h
      · have hsum : ((List.replicate k term ++ taken).map Term.value).sum =
            k * term.value + (taken.map Term.value).sum := by
          simp
        refine Or.inr ⟨List.replicate k term ++ taken, rest', ?_, ?_, .cons k hk horder, ?_⟩
        · rw [hread', hsum, add_assoc]
        · rw [List.flatMap_append, List.append_assoc, ← hbytes', ← hbytes]
        · rw [hsum, ← add_assoc]
          exact hle'

lemma digit_bounds {b : UInt8} (h : isdigit b = true) : 48 ≤ b.toNat ∧ b.toNat ≤ 57 := by
  simp only [isdigit, Bool.and_eq_true, decide_eq_true_eq] at h
  exact ⟨UInt8.le_iff_toNat_le.mp h.1, UInt8.le_iff_toNat_le.mp h.2⟩

/-- The loop over the digits refuses, or the number is the sum of the digits at their places
behind what stood before. -/
lemma takeDigits_cases :
    ∀ (bytes : List UInt8) (number : ℤ), 0 ≤ number →
      (number + 1) * 10 ^ bytes.length ≤ 1000000000 →
      takeDigits bytes number = .error .refused ∨
        takeDigits bytes number = .ok (number * 10 ^ bytes.length + (placeValues bytes).sum) ∧
          (∀ b ∈ bytes, isdigit b = true) ∧
          number * 10 ^ bytes.length + (placeValues bytes).sum ≤ 999999999 := by
  intro bytes
  induction bytes with
  | nil =>
    intro number hlow hhigh
    refine Or.inr ⟨by simp [takeDigits, placeValues], by simp, ?_⟩
    simp only [List.length_nil, pow_zero, mul_one] at hhigh
    simp only [List.length_nil, pow_zero, mul_one, placeValues, List.sum_nil]
    omega
  | cons byte rest ih =>
    intro number hlow hhigh
    rw [takeDigits]
    cases hdigit : isdigit byte with
    | false => exact Or.inl rfl
    | true =>
      obtain ⟨hmin, hmax⟩ := digit_bounds hdigit
      have hone : (1 : ℤ) ≤ 10 ^ rest.length := one_le_pow₀ (by decide)
      rw [List.length_cons, pow_succ] at hhigh
      have hscaled : (number + 1) * 10 ≤ 1000000000 := by
        have hpos : (0 : ℤ) ≤ (number + 1) * 10 := by omega
        have := mul_le_mul_of_nonneg_left hone hpos
        calc (number + 1) * 10 = (number + 1) * 10 * 1 := (mul_one _).symm
          _ ≤ (number + 1) * 10 * 10 ^ rest.length := this
          _ = (number + 1) * (10 ^ rest.length * 10) := by rw [mul_assoc, mul_comm 10]
          _ ≤ 1000000000 := hhigh
      rw [int_ok (by omega) (by omega)]
      dsimp only [bind, Except.bind, Bool.not_true, Bool.false_eq_true, if_false]
      rw [int_ok (by omega) (by omega)]
      dsimp only
      rw [int_ok (by omega) (by omega)]
      dsimp only
      have hstep : (number * 10 + byte.toNat - 48 + 1) * 10 ^ rest.length ≤ 1000000000 := by
        have hle : number * 10 + byte.toNat - 48 + 1 ≤ (number + 1) * 10 := by omega
        calc (number * 10 + byte.toNat - 48 + 1) * 10 ^ rest.length
            ≤ (number + 1) * 10 * 10 ^ rest.length :=
              mul_le_mul_of_nonneg_right hle (by omega)
          _ = (number + 1) * (10 ^ rest.length * 10) := by rw [mul_assoc, mul_comm 10]
          _ ≤ 1000000000 := hhigh
      have hsum : number * 10 ^ (rest.length + 1) + (placeValues (byte :: rest)).sum =
          (number * 10 + byte.toNat - 48) * 10 ^ rest.length + (placeValues rest).sum := by
        rw [placeValues, List.sum_cons, pow_succ, ← add_assoc, mul_comm (10 ^ rest.length),
          ← mul_assoc, ← add_mul, add_sub_assoc]
      rw [List.length_cons, hsum]
      rcases ih _ (by omega) hstep with h | ⟨hread, hdigits, hle⟩
      · exact Or.inl h
      · refine Or.inr ⟨hread, ?_, hle⟩
        intro b hb
        rcases List.mem_cons.mp hb with rfl | hb
        · exact hdigit
        · exact hdigits b hb

/-- A reader refuses, or accepts the sum of the terms it took. -/
lemma numeral_cases (bytes : List UInt8) (variant : Variant) :
    numeral bytes variant = .error .refused ∨
      ∃ values, numeral bytes variant = .ok values.sum ∧ Took variant bytes values ∧
        values.sum ≤ 999999999 := by
  rw [numeral]
  by_cases hauto : bytes = [0x23]
  · rw [if_pos hauto]
    exact Or.inr ⟨[1], rfl, hauto ▸ Took.automatic, by decide⟩
  rw [if_neg hauto]
  cases hkind : variant.kind with
  | default => exact Or.inl rfl
  | alpha =>
    dsimp only
    match bytes with
    | [] => exact Or.inl rfl
    | _ :: _ :: _ => exact Or.inl rfl
    | [byte] =>
      dsimp only
      obtain ⟨first, hfirst⟩ : ∃ first : ℕ, first = if variant.lowercased = true then 97 else 65 :=
        ⟨_, rfl⟩
      have hcast : (if variant.lowercased = true then 97 else 65 : ℤ) = first := by
        rw [hfirst]
        split <;> rfl
      rw [hcast]
      by_cases hrange : (byte.toNat : ℤ) < first ∨ (byte.toNat : ℤ) > first + 25
      · exact Or.inl (if_pos hrange)
      · rw [if_neg hrange]
        rw [not_or] at hrange
        obtain ⟨n, hn⟩ : ∃ n : ℕ, byte.toNat = first + n := Nat.exists_eq_add_of_le (by omega)
        have hlt : n < 26 := by omega
        rw [int_ok (by omega) (by omega)]
        dsimp only [bind, Except.bind]
        rw [int_ok (by omega) (by omega)]
        refine Or.inr ⟨[(n : ℤ) + 1], ?_, .letter byte n hkind hlt (hfirst ▸ hn), ?_⟩
        · rw [hn, List.sum_singleton, Nat.cast_add, add_sub_cancel_left]
        · rw [List.sum_singleton]
          omega
  | decimal =>
    dsimp only
    split
    next => exact Or.inl rfl
    next hlength =>
      have hpow : (10 : ℤ) ^ bytes.length ≤ 10 ^ 9 := pow_le_pow_right₀ (by decide) (by omega)
      rcases takeDigits_cases bytes 0 le_rfl (by simpa using hpow) with
        h | ⟨hread, hdigits, hle⟩
      · rw [h]
        exact Or.inl rfl
      · rw [hread]
        rw [zero_mul, zero_add] at hle ⊢
        dsimp only [bind, Except.bind]
        split
        next hpos => exact Or.inr ⟨_, rfl, .digits bytes hkind hpos (by omega) hdigits, hle⟩
        next => exact Or.inl rfl
  | roman =>
    dsimp only
    rcases takeTerms_cases (caseOffset variant.lowercased) terms terms_bounded bytes 0 le_rfl
      (by decide) with h | ⟨taken, rest, hread, hbytes, horder, hle⟩
    · rw [h]
      exact Or.inl rfl
    · rw [hread]
      rw [zero_add] at hle ⊢
      dsimp only [bind, Except.bind]
      split
      next => exact Or.inl rfl
      next hrest =>
        rw [not_not] at hrest
        rw [hrest, List.append_nil] at hbytes
        split
        next hpos =>
          refine Or.inr ⟨_, rfl, ?_, hle⟩
          rw [hbytes]
          refine .roman taken hkind ?_ horder
          rintro rfl
          rw [hbytes] at hpos
          exact absurd hpos (lt_irrefl 0)
        next => exact Or.inl rfl

end MarkdownCore.Marker
