import Mathlib.Algebra.BigOperators.Intervals
import Mathlib.Algebra.Order.Ring.Nat
import Mathlib.Data.Nat.Bitwise
import Mathlib.Tactic.Abel

/-!
# Fenwick trees

A tree over the values of a sequence keeps, at each index from 1, the sum of the values from the
index less its lowest set bit to the index (`Fenwick.Good`). A value changed changes the sums on
one way up (`Good.add`), a sum of the first values is one way down (`Good.before`), and the tree
of all the values is built in one pass (`good_build`). Where the values are not negative, the last
sum of first values within a limit is found by halves (`Good.descend`).
-/

open Finset

namespace Fenwick

/-! ### The lowest set bit -/

/-- The lowest set bit of an index, a word of 64 bits: `i & (0 - i)`. -/
def lowBit (i : ℕ) : ℕ := i &&& (2 ^ 64 - i)

/-- An index is an odd multiple of its lowest set bit, a power of two. -/
lemma lowBit_odd {k m : ℕ} (h : 2 ^ k * (2 * m + 1) < 2 ^ 64) :
    lowBit (2 ^ k * (2 * m + 1)) = 2 ^ k := by
  have hpos : 0 < 2 ^ k := Nat.two_pow_pos k
  set x := 2 ^ k * (2 * m) + (2 ^ k - 1) with hx
  have hi : 2 ^ k * (2 * m + 1) = x + 1 := by
    rw [hx, Nat.mul_add, Nat.mul_one]
    omega
  have hlow : 2 ^ k - 1 < 2 ^ k := Nat.sub_lt hpos Nat.one_pos
  have hi' : x + 1 = 2 ^ k * (2 * m + 1) + 0 := by omega
  rw [hi] at h ⊢
  apply Nat.eq_of_testBit_eq
  intro j
  rw [lowBit, Nat.testBit_and, Nat.testBit_two_pow_sub_succ (by omega), Nat.testBit_two_pow]
  by_cases hj : j < k
  · rw [hi', Nat.testBit_two_pow_mul_add _ hpos, if_pos hj]
    simp [hj.ne']
  · rw [hi', Nat.testBit_two_pow_mul_add _ hpos, if_neg hj, hx,
      Nat.testBit_two_pow_mul_add _ hlow, if_neg hj]
    rcases Nat.eq_or_lt_of_le (not_lt.mp hj) with rfl | hlt
    · have hk : k < 64 := by
        by_contra hge
        have := Nat.pow_le_pow_right (n := 2) (by omega) (not_lt.mp hge)
        omega
      simp [hk, Nat.testBit_zero]
    · obtain ⟨d, rfl⟩ : ∃ d, j = k + (d + 1) := ⟨j - k - 1, by omega⟩
      have h₁ : (2 * m + 1).testBit (d + 1) = m.testBit d := by
        rw [Nat.testBit_succ]
        congr 1
        omega
      have h₂ : (2 * m).testBit (d + 1) = m.testBit d := by
        rw [Nat.testBit_succ]
        congr 1
        omega
      rw [show k + (d + 1) - k = d + 1 by omega, h₁, h₂]
      simp
      exact fun h _ => h

lemma exists_odd {i : ℕ} (hi : 0 < i) : ∃ k m, i = 2 ^ k * (2 * m + 1) := by
  induction i using Nat.strong_induction_on with
  | _ i ih =>
    by_cases hodd : i % 2 = 1
    · exact ⟨0, i / 2, by omega⟩
    · obtain ⟨k, m, hkm⟩ := ih (i / 2) (by omega) (by omega)
      refine ⟨k + 1, m, ?_⟩
      rw [pow_succ, Nat.mul_right_comm, ← hkm]
      omega

/-- The powers of two that divide an index are those that divide its lowest set bit. -/
lemma two_pow_dvd_lowBit {i a : ℕ} (hi : 0 < i) (hlt : i < 2 ^ 64) :
    2 ^ a ∣ lowBit i ↔ 2 ^ a ∣ i := by
  obtain ⟨k, m, rfl⟩ := exists_odd hi
  rw [lowBit_odd hlt]
  constructor
  · intro h
    exact h.mul_right _
  · intro h
    by_cases hle : a ≤ k
    · exact pow_dvd_pow 2 hle
    · obtain ⟨d, rfl⟩ : ∃ d, a = k + (d + 1) := ⟨a - k - 1, by omega⟩
      rw [pow_add] at h
      have hodd := Nat.dvd_of_mul_dvd_mul_left (Nat.two_pow_pos k) h
      have htwo : 2 ∣ 2 * m + 1 := (dvd_pow_self 2 (Nat.succ_ne_zero d)).trans hodd
      omega

lemma lowBit_two_pow {i : ℕ} (hi : 0 < i) (hlt : i < 2 ^ 64) : ∃ k, lowBit i = 2 ^ k := by
  obtain ⟨k, m, rfl⟩ := exists_odd hi
  exact ⟨k, lowBit_odd hlt⟩

lemma lowBit_dvd {i : ℕ} (hi : 0 < i) (hlt : i < 2 ^ 64) : lowBit i ∣ i := by
  obtain ⟨k, hk⟩ := lowBit_two_pow hi hlt
  rw [hk, ← two_pow_dvd_lowBit hi hlt, hk]

lemma lowBit_pos {i : ℕ} (hi : 0 < i) (hlt : i < 2 ^ 64) : 0 < lowBit i := by
  obtain ⟨k, hk⟩ := lowBit_two_pow hi hlt
  rw [hk]
  exact Nat.two_pow_pos k

lemma lowBit_le (i : ℕ) : lowBit i ≤ i := Nat.and_le_left

/-- A multiple of twice a power of two, and the power: its lowest set bit is the power. -/
lemma lowBit_add_two_pow {c k : ℕ} (hc : 2 ^ (k + 1) ∣ c) (hlt : c + 2 ^ k < 2 ^ 64) :
    lowBit (c + 2 ^ k) = 2 ^ k := by
  obtain ⟨m, rfl⟩ := hc
  have hodd : 2 ^ (k + 1) * m + 2 ^ k = 2 ^ k * (2 * m + 1) := by
    rw [pow_succ, Nat.mul_add, Nat.mul_one, Nat.mul_assoc]
  rw [hodd] at hlt ⊢
  exact lowBit_odd hlt

/-- Twice an index's lowest set bit divides the index and the bit together. -/
lemma twice_dvd_add {i k : ℕ} (hi : 0 < i) (hlt : i < 2 ^ 64) (hk : lowBit i = 2 ^ k) :
    2 ^ (k + 1) ∣ i + 2 ^ k := by
  obtain ⟨k', m, rfl⟩ := exists_odd hi
  rw [lowBit_odd hlt] at hk
  obtain rfl := Nat.pow_right_injective (le_refl 2) hk
  exact ⟨m + 1, by rw [pow_succ]; simp only [Nat.mul_add, Nat.mul_one, Nat.mul_assoc]; omega⟩

/-- An index between another and the next on its way up stands over what is past the other. -/
lemma lowBit_le_of_between {i j : ℕ} (hj : 0 < j) (hlt : i < 2 ^ 64) (hji : j < i)
    (hij : i < j + lowBit j) : lowBit i ≤ i - j := by
  have hi : 0 < i := hj.trans hji
  have hjlt : j < 2 ^ 64 := hji.trans hlt
  obtain ⟨a, ha⟩ := lowBit_two_pow hi hlt
  obtain ⟨b, hb⟩ := lowBit_two_pow hj hjlt
  have hdvd : 2 ^ a ∣ i := by
    rw [← ha]
    exact lowBit_dvd hi hlt
  have hdvd' : 2 ^ b ∣ j := by
    rw [← hb]
    exact lowBit_dvd hj hjlt
  by_cases hab : b ≤ a
  · -- both are multiples of the other's bit, closer to each other than that
    have hboth : 2 ^ b ∣ i - j := Nat.dvd_sub ((pow_dvd_pow 2 hab).trans hdvd) hdvd'
    have := Nat.le_of_dvd (by omega) hboth
    omega
  · have hboth : 2 ^ a ∣ i - j :=
      Nat.dvd_sub hdvd ((pow_dvd_pow 2 (by omega)).trans hdvd')
    rw [ha]
    exact Nat.le_of_dvd (by omega) hboth

/-! ### Trees -/

variable {M : Type*} [AddCommGroup M]

/-- The sum of the first values. -/
def before (f : ℕ → M) (n : ℕ) : M := ∑ k ∈ range n, f k

/-- The tree over the first `n` values. -/
def Good (n : ℕ) (sums f : ℕ → M) : Prop :=
  ∀ i, 0 < i → i ≤ n → sums i = before f i - before f (i - lowBit i)

/-- The sum of the first `i` values, going down from `i`. -/
def down (sums : ℕ → M) : ℕ → ℕ → M → M
  | 0, _, sum => sum
  | fuel + 1, i, sum => if i = 0 then sum else down sums fuel (i - lowBit i) (sum + sums i)

/-- A step added to each sum on the way up from `i`. -/
def up (n : ℕ) (step : M) : ℕ → ℕ → (ℕ → M) → ℕ → M
  | 0, _, sums => sums
  | fuel + 1, i, sums =>
    if i ≤ n then up n step fuel (i + lowBit i) (Function.update sums i (sums i + step))
    else sums

/-- Each of `fuel` sums from `i` on passed on to the one that holds it. -/
def passOn (n : ℕ) : ℕ → ℕ → (ℕ → M) → ℕ → M
  | 0, _, sums => sums
  | fuel + 1, i, sums =>
    passOn n fuel (i + 1)
      (if i + lowBit i ≤ n then Function.update sums (i + lowBit i) (sums (i + lowBit i) + sums i)
      else sums)

lemma before_succ (f : ℕ → M) (n : ℕ) : before f (n + 1) = before f n + f n := sum_range_succ f n

lemma before_congr {f g : ℕ → M} {n : ℕ} (h : ∀ k < n, f k = g k) : before f n = before g n :=
  sum_congr rfl fun k hk => h k (mem_range.mp hk)

/-- A value changed changes the sums past it. -/
lemma before_update (f : ℕ → M) (c : ℕ) (v : M) (n : ℕ) :
    before (Function.update f c v) n = before f n + if c < n then v - f c else 0 := by
  induction n with
  | zero => simp [before]
  | succ n ih =>
    rw [before_succ, before_succ, ih]
    rcases lt_trichotomy c n with h | h | h
    · rw [if_pos h, if_pos (by omega), Function.update_of_ne h.ne']
      abel
    · subst h
      rw [if_neg (lt_irrefl c), if_pos (Nat.lt_succ_self c), Function.update_self]
      abel
    · rw [if_neg (by omega), if_neg (by omega), Function.update_of_ne h.ne]
      abel

/-- The trees over values that agree are one. -/
lemma Good.congr {n : ℕ} {sums f g : ℕ → M} (h : Good n sums f) (hfg : ∀ k < n, f k = g k) :
    Good n sums g := by
  intro i hi hin
  rw [h i hi hin, before_congr fun k hk => hfg k (by omega),
    before_congr fun k hk => hfg k (by omega)]

/-- The way down sums the first values. -/
theorem Good.down {n : ℕ} {sums f : ℕ → M} (h : Good n sums f) (hn : n < 2 ^ 64) {i fuel : ℕ}
    (hin : i ≤ n) (hfuel : i ≤ fuel) (sum : M) :
    Fenwick.down sums fuel i sum = sum + before f i := by
  induction fuel generalizing i sum with
  | zero =>
    obtain rfl : i = 0 := by omega
    simp [Fenwick.down, before]
  | succ fuel ih =>
    rw [Fenwick.down]
    split
    next hzero => simp [hzero, before]
    next hne =>
      have hpos := lowBit_pos (Nat.pos_of_ne_zero hne) (by omega)
      rw [ih (by omega) (by omega), h i (Nat.pos_of_ne_zero hne) hin]
      abel

lemma up_past {n : ℕ} (step : M) {fuel j : ℕ} (sums : ℕ → M) (hj : n < j) :
    up n step fuel j sums = sums := by
  cases fuel with
  | zero => rfl
  | succ fuel => rw [up, if_neg (not_le.mpr hj)]

lemma up_zero {n : ℕ} (step : M) {fuel j : ℕ} (sums : ℕ → M) (hj : 0 < j) :
    up n step fuel j sums 0 = sums 0 := by
  induction fuel generalizing j sums with
  | zero => rfl
  | succ fuel ih =>
    rw [up]
    split
    next => rw [ih _ (by omega), Function.update_of_ne hj.ne]
    next => rfl

lemma passOn_zero {n : ℕ} {fuel i : ℕ} (sums : ℕ → M) (hi : 0 < i) :
    passOn n fuel i sums 0 = sums 0 := by
  induction fuel generalizing i sums with
  | zero => rfl
  | succ fuel ih =>
    rw [passOn, ih _ (Nat.succ_pos i)]
    split
    · rw [Function.update_of_ne (by omega)]
    · rfl

/-- The way up from a value reaches each sum that holds it, and no other. -/
lemma up_apply {n : ℕ} (hn : n < 2 ^ 64) (step : M) {c fuel j : ℕ} (sums : ℕ → M)
    (hfuel : n < j + fuel) (hj : 0 < j) (hc : c < j) (hlow : j - lowBit j ≤ c) {i : ℕ}
    (hin : i ≤ n) :
    up n step fuel j sums i =
      sums i + if j ≤ i ∧ i - lowBit i ≤ c then step else 0 := by
  induction fuel generalizing j sums with
  | zero =>
    rw [up, if_neg (by omega), add_zero]
  | succ fuel ih =>
    rw [up]
    split
    next hjn =>
      obtain ⟨k, hk⟩ := lowBit_two_pow hj (by omega : j < 2 ^ 64)
      have hpos := lowBit_pos hj (by omega : j < 2 ^ 64)
      -- what the rest of the way up makes of the sums past the next index
      have hrest : ∀ sums' : ℕ → M, up n step fuel (j + lowBit j) sums' i =
          sums' i + if j + lowBit j ≤ i ∧ i - lowBit i ≤ c then step else 0 := by
        intro sums'
        by_cases hnext : j + lowBit j ≤ n
        · have hdvd := twice_dvd_add hj (by omega) hk
          rw [← hk, ← two_pow_dvd_lowBit (by omega) (by omega)] at hdvd
          have hle := Nat.le_of_dvd (lowBit_pos (by omega) (by omega)) hdvd
          rw [pow_succ, ← hk] at hle
          exact ih sums' (by omega) (by omega) (by omega) (by omega)
        · rw [up_past step sums' (not_le.mp hnext), if_neg (by omega), add_zero]
      rw [hrest]
      rcases lt_trichotomy i j with hij | rfl | hij
      · rw [Function.update_of_ne hij.ne, if_neg (by omega), if_neg (by omega)]
      · rw [Function.update_self, if_neg (by omega), if_pos ⟨le_refl _, hlow⟩, add_zero]
      · rw [Function.update_of_ne hij.ne']
        by_cases hbetween : i < j + lowBit j
        · have := lowBit_le_of_between hj (by omega) hij hbetween
          rw [if_neg (by omega), if_neg (by omega)]
        · rw [if_congr (show j + lowBit j ≤ i ∧ i - lowBit i ≤ c ↔ j ≤ i ∧ i - lowBit i ≤ c by
            omega) rfl rfl]
    next hjn => rw [if_neg (by omega), add_zero]

/-- A value changed, with its step added on the way up. -/
theorem Good.up {n : ℕ} {sums f : ℕ → M} (h : Good n sums f) (hn : n < 2 ^ 64) {c fuel : ℕ}
    (hfuel : n ≤ c + fuel) (v : M) :
    Good n (Fenwick.up n (v - f c) fuel (c + 1) sums) (Function.update f c v) := by
  intro i hi hin
  have hstart : c + 1 - lowBit (c + 1) ≤ c ∨ n < c + 1 := by
    by_cases hc : n < c + 1
    · exact .inr hc
    · have hpos : 0 < lowBit (c + 1) := lowBit_pos (Nat.succ_pos c) (by omega)
      exact .inl (by omega)
  rw [before_update, before_update]
  rcases hstart with hlow | hpast
  · rw [up_apply hn (v - f c) sums (by omega) (Nat.succ_pos c) (Nat.lt_succ_self c) hlow hin,
      h i hi hin]
    by_cases hci : c + 1 ≤ i
    · by_cases hreach : i - lowBit i ≤ c
      · rw [if_pos ⟨hci, hreach⟩, if_pos (by omega), if_neg (by omega)]
        abel
      · rw [if_neg (by omega), if_pos (by omega), if_pos (by omega)]
        abel
    · have := lowBit_le i
      rw [if_neg (by omega), if_neg (by omega), if_neg (by omega)]
      abel
  · rw [up_past _ sums hpast, h i hi hin, if_neg (by omega), if_neg (by omega)]
    abel

/-! ### The tree of all the values -/

/-- What the indexes below `i` pass on to index `j`, whose lowest set bit is `2 ^ k`. -/
def passed (f : ℕ → M) (i j k : ℕ) : M :=
  ∑ t ∈ (range k).filter (fun t => j - 2 ^ t < i),
    (before f (j - 2 ^ t) - before f (j - 2 ^ (t + 1)))

/-- The indexes that pass on to one make up its sum but for the value at it. -/
lemma passed_all (f : ℕ → M) {i j k : ℕ} (hij : j ≤ i) (hj : 0 < j) :
    passed f i j k = before f (j - 1) - before f (j - 2 ^ k) := by
  have hall : (range k).filter (fun t => j - 2 ^ t < i) = range k := by
    refine filter_true_of_mem fun t _ => ?_
    have := Nat.two_pow_pos t
    omega
  rw [passed, hall]
  exact sum_range_sub' (fun t => before f (j - 2 ^ t)) k

lemma passed_succ_of_ne (f : ℕ → M) {i j k : ℕ} (hne : ∀ t < k, j - 2 ^ t ≠ i) :
    passed f (i + 1) j k = passed f i j k := by
  rw [passed, passed]
  refine sum_congr (filter_congr fun t ht => ?_) fun _ _ => rfl
  have := hne t (mem_range.mp ht)
  omega

lemma passed_succ_of_eq (f : ℕ → M) {i j k t : ℕ} (ht : t < k) (hi : j - 2 ^ t = i)
    (hle : 2 ^ k ≤ j) :
    passed f (i + 1) j k = passed f i j k + (before f i - before f (i - 2 ^ t)) := by
  have hinsert : (range k).filter (fun t => j - 2 ^ t < i + 1) =
      insert t ((range k).filter fun t => j - 2 ^ t < i) := by
    ext u
    simp only [mem_filter, mem_insert, mem_range]
    constructor
    · rintro ⟨hu, hlt⟩
      by_cases heq : u = t
      · exact .inl heq
      · -- two indexes that pass on to one differ
        have hpow : 2 ^ u ≠ 2 ^ t := fun h => heq (Nat.pow_right_injective (le_refl 2) h)
        have hule : 2 ^ u ≤ 2 ^ k := Nat.pow_le_pow_right (by omega) hu.le
        have htle : 2 ^ t ≤ 2 ^ k := Nat.pow_le_pow_right (by omega) ht.le
        exact .inr ⟨hu, by omega⟩
    · rintro (rfl | ⟨hu, hlt⟩)
      · exact ⟨ht, by omega⟩
      · exact ⟨hu, by omega⟩
  have hnot : t ∉ (range k).filter fun t => j - 2 ^ t < i := by
    simp only [mem_filter, not_and]
    omega
  rw [passed, hinsert, sum_insert hnot, passed, hi, add_comm, pow_succ,
    show j - 2 ^ t * 2 = i - 2 ^ t by omega]

/-- An index that passes on to another, by the other's lowest set bit. -/
lemma passes_on {i j k : ℕ} (hj : 0 < j) (hlt : j < 2 ^ 64) (hk : lowBit j = 2 ^ k) :
    (∀ t < k, j - 2 ^ t = i → lowBit i = 2 ^ t ∧ j = i + 2 ^ t) ∧
      (0 < i → j = i + lowBit i → ∃ t < k, lowBit i = 2 ^ t) := by
  have hle : 2 ^ k ≤ j := by
    rw [← hk]
    exact lowBit_le j
  constructor
  · rintro t ht rfl
    have htle : 2 ^ (t + 1) ≤ 2 ^ k := Nat.pow_le_pow_right (by omega) ht
    have hdvd : 2 ^ (t + 1) ∣ j := by
      rw [← two_pow_dvd_lowBit hj hlt, hk]
      exact pow_dvd_pow 2 ht
    have hdvd' : 2 ^ (t + 1) ∣ j - 2 ^ (t + 1) := Nat.dvd_sub hdvd (dvd_refl _)
    have hsplit : j - 2 ^ t = j - 2 ^ (t + 1) + 2 ^ t := by
      rw [pow_succ] at htle ⊢
      omega
    refine ⟨?_, by rw [pow_succ] at htle; omega⟩
    rw [hsplit]
    exact lowBit_add_two_pow hdvd' (by omega)
  · intro hi hji
    obtain ⟨t, ht⟩ := lowBit_two_pow hi (by omega)
    refine ⟨t, ?_, ht⟩
    have hdvd := twice_dvd_add hi (by omega) ht
    rw [← ht, ← hji, ← two_pow_dvd_lowBit hj hlt, hk] at hdvd
    exact (Nat.pow_dvd_pow_iff_le_right (by omega)).mp hdvd

/-- The sums as the indexes below `i` leave them. -/
def Partial (n i : ℕ) (sums f : ℕ → M) : Prop :=
  ∀ j k, 0 < j → j ≤ n → lowBit j = 2 ^ k → sums j = f (j - 1) + passed f i j k

lemma Partial.sum_eq {n i : ℕ} {sums f : ℕ → M} (h : Partial n i sums f) (hn : n < 2 ^ 64)
    {j : ℕ} (hj : 0 < j) (hjn : j ≤ n) (hji : j ≤ i) :
    sums j = before f j - before f (j - lowBit j) := by
  obtain ⟨k, hk⟩ := lowBit_two_pow hj (by omega)
  obtain ⟨j, rfl⟩ : ∃ j', j = j' + 1 := ⟨j - 1, by omega⟩
  rw [h _ k hj hjn hk, passed_all f hji hj, hk, Nat.add_sub_cancel, before_succ]
  abel

/-- An index passes its sum on. -/
lemma Partial.step {n i : ℕ} {sums f : ℕ → M} (h : Partial n i sums f) (hn : n < 2 ^ 64)
    (hi : 0 < i) (hin : i ≤ n) :
    Partial n (i + 1) (if i + lowBit i ≤ n then
      Function.update sums (i + lowBit i) (sums (i + lowBit i) + sums i) else sums) f := by
  intro j k hj hjn hk
  obtain ⟨hfrom, hto⟩ := passes_on (i := i) hj (by omega) hk
  by_cases hji : j = i + lowBit i
  · obtain ⟨t, ht, hlow⟩ := hto hi hji
    have hle : 2 ^ k ≤ j := by
      rw [← hk]
      exact lowBit_le j
    rw [if_pos (by omega), ← hji, Function.update_self, h j k hj hjn hk,
      h.sum_eq hn hi hin (le_refl i), hlow,
      passed_succ_of_eq f ht (by omega : j - 2 ^ t = i) hle, add_assoc]
  · have hkept : (if i + lowBit i ≤ n then
        Function.update sums (i + lowBit i) (sums (i + lowBit i) + sums i) else sums) j =
          sums j := by
      split
      · exact Function.update_of_ne hji _ _
      · rfl
    rw [hkept, h j k hj hjn hk, passed_succ_of_ne]
    intro t ht heq
    obtain ⟨hlow, hsum⟩ := hfrom t ht heq
    rw [hlow] at hji
    exact hji hsum

lemma Partial.run {n fuel i : ℕ} {sums f : ℕ → M} (h : Partial n i sums f) (hn : n < 2 ^ 64)
    (hi : 0 < i) (hfuel : i + fuel ≤ n + 1) : Partial n (i + fuel) (passOn n fuel i sums) f := by
  induction fuel generalizing i sums with
  | zero => exact h
  | succ fuel ih =>
    rw [passOn, ← Nat.succ_add_eq_add_succ]
    exact ih (h.step hn hi (by omega)) (Nat.succ_pos i) (by omega)

/-- The tree of all the values, built in one pass. -/
theorem good_passOn {n : ℕ} {sums f : ℕ → M} (hn : n < 2 ^ 64)
    (h : ∀ i, 0 < i → i ≤ n → sums i = f (i - 1)) : Good n (passOn n n 1 sums) f := by
  have hstart : Partial n 1 sums f := by
    intro j k hj hjn hk
    have hle : 2 ^ k ≤ j := by
      rw [← hk]
      exact lowBit_le j
    have hnone : (range k).filter (fun t => j - 2 ^ t < 1) = ∅ := by
      refine filter_false_of_mem fun t ht => ?_
      have hlt := Nat.pow_lt_pow_right (a := 2) (by omega) (mem_range.mp ht)
      omega
    rw [passed, hnone, sum_empty, add_zero, h j hj hjn]
  intro i hi hin
  exact (hstart.run hn Nat.one_pos (by omega)).sum_eq hn hi hin (by omega)

/-! ### The sums searched -/

/-- The greatest power of two, doubled from a step, not past `n`. -/
def topStep (n : ℕ) : ℕ → ℕ → ℕ
  | 0, step => step
  | fuel + 1, step => if step * 2 ≤ n then topStep n fuel (step * 2) else step

/-- Go on from an index, by steps that halve, while the sum there keeps the total within a
limit. -/
def descend (n : ℕ) (sums : ℕ → ℤ) (limit : ℤ) : ℕ → ℕ → ℕ → ℤ → ℕ × ℤ
  | 0, _, index, total => (index, total)
  | fuel + 1, step, index, total =>
    if step = 0 then (index, total)
    else if index + step ≤ n ∧ total + sums (index + step) ≤ limit then
      descend n sums limit fuel (step / 2) (index + step) (total + sums (index + step))
    else descend n sums limit fuel (step / 2) index total

lemma topStep_spec {n fuel a : ℕ} (hn : n < 2 ^ (a + fuel + 1)) :
    ∃ k, topStep n fuel (2 ^ a) = 2 ^ k ∧ n < 2 ^ (k + 1) := by
  induction fuel generalizing a with
  | zero => exact ⟨a, rfl, hn⟩
  | succ fuel ih =>
    rw [topStep]
    split
    next =>
      rw [← pow_succ]
      exact ih (by rwa [show a + 1 + fuel + 1 = a + (fuel + 1) + 1 by omega])
    next hle => exact ⟨a, rfl, by rw [pow_succ]; omega⟩

lemma before_mono {f : ℕ → ℤ} {n i j : ℕ} (hf : ∀ k < n, 0 ≤ f k) (hij : i ≤ j) (hj : j ≤ n) :
    before f i ≤ before f j := by
  induction j, hij using Nat.le_induction with
  | base => exact le_refl _
  | succ j _ ih =>
    have hnonneg := hf j (by omega)
    have := ih (by omega)
    rw [before_succ]
    omega

/-- A step of the search goes on to an index whose lowest set bit is the step. -/
lemma Good.sum_step {n : ℕ} {sums f : ℕ → M} (h : Good n sums f) (hn : n < 2 ^ 64) {k index : ℕ}
    (hdvd : 2 ^ (k + 1) ∣ index) (hle : index + 2 ^ k ≤ n) :
    sums (index + 2 ^ k) = before f (index + 2 ^ k) - before f index := by
  have hpos := Nat.two_pow_pos k
  rw [h _ (by omega) hle, lowBit_add_two_pow hdvd (by omega), Nat.add_sub_cancel]

/-- The search ends at the last index whose first values are within the limit, or at none. -/
theorem Good.descend {n : ℕ} {sums f : ℕ → ℤ} (h : Good n sums f) (hn : n < 2 ^ 64)
    (hf : ∀ k < n, 0 ≤ f k) {base limit : ℤ} {fuel k index : ℕ} (hfuel : k < fuel)
    (hindex : index ≤ n) (hdvd : 2 ^ (k + 1) ∣ index)
    (hwithin : index = 0 ∨ base + before f index ≤ limit)
    (hpast : ∀ i, index + 2 ^ (k + 1) ≤ i → i ≤ n → limit < base + before f i) :
    ∃ c ≤ n, Fenwick.descend n sums limit fuel (2 ^ k) index (base + before f index) =
        (c, base + before f c) ∧ (c = 0 ∨ base + before f c ≤ limit) ∧
      ∀ i, c < i → i ≤ n → limit < base + before f i := by
  induction k generalizing fuel index with
  | zero =>
    obtain ⟨fuel, rfl⟩ : ∃ fuel', fuel = fuel' + 1 := ⟨fuel - 1, by omega⟩
    have hend : ∀ index total, Fenwick.descend n sums limit fuel 0 index total =
        (index, total) := by
      intro index total
      cases fuel with
      | zero => rfl
      | succ fuel => rw [Fenwick.descend, if_pos rfl]
    rw [Fenwick.descend, if_neg (by simp), pow_zero, show 1 / 2 = 0 by rfl]
    split
    next hgo =>
      have hsum := h.sum_step hn hdvd hgo.1
      rw [pow_zero] at hsum
      have htotal : base + before f index + sums (index + 1) = base + before f (index + 1) := by
        rw [hsum]
        abel
      rw [htotal] at hgo ⊢
      rw [hend]
      refine ⟨index + 1, hgo.1, rfl, .inr hgo.2, fun i hi hin => hpast i ?_ hin⟩
      rw [Nat.zero_add, pow_one]
      omega
    next hstay =>
      rw [hend]
      refine ⟨index, hindex, rfl, hwithin, fun i hi hin => ?_⟩
      have hle : index + 1 ≤ n := by omega
      have hsum := h.sum_step hn hdvd hle
      rw [pow_zero] at hsum
      have hlt : limit < base + before f (index + 1) := by
        by_contra hge
        refine hstay ⟨hle, ?_⟩
        rw [hsum]
        omega
      have := before_mono hf (by omega : index + 1 ≤ i) hin
      omega
  | succ k ih =>
    obtain ⟨fuel, rfl⟩ : ∃ fuel', fuel = fuel' + 1 := ⟨fuel - 1, by omega⟩
    have hpos := Nat.two_pow_pos (k + 1)
    have hhalf : 2 ^ (k + 1) / 2 = 2 ^ k := by
      rw [pow_succ]
      exact Nat.mul_div_cancel _ Nat.two_pos
    rw [Fenwick.descend, if_neg hpos.ne', hhalf]
    split
    next hgo =>
      have hsum := h.sum_step hn hdvd hgo.1
      have htotal : base + before f index + sums (index + 2 ^ (k + 1)) =
          base + before f (index + 2 ^ (k + 1)) := by
        rw [hsum]
        abel
      rw [htotal] at hgo ⊢
      have hdvd' : 2 ^ (k + 1) ∣ index + 2 ^ (k + 1) :=
        Nat.dvd_add ((pow_dvd_pow 2 (Nat.le_succ (k + 1))).trans hdvd) (dvd_refl _)
      refine ih (by omega) hgo.1 hdvd' (.inr hgo.2) fun i hi hin => hpast i ?_ hin
      rw [pow_succ 2 (k + 1)]
      omega
    next hstay =>
      refine ih (by omega) hindex ((pow_dvd_pow 2 (Nat.le_succ _)).trans hdvd) hwithin
        fun i hi hin => ?_
      have hle : index + 2 ^ (k + 1) ≤ n := hi.trans hin
      have hsum := h.sum_step hn hdvd hle
      have hlt : limit < base + before f (index + 2 ^ (k + 1)) := by
        by_contra hge
        refine hstay ⟨hle, ?_⟩
        rw [hsum]
        omega
      have := before_mono hf hi hin
      omega

end Fenwick
