import Mathlib.Data.List.Sort
import Mathlib.Data.Nat.Basic

/-!
# Ranges that nest

Ranges in order of where they start, outer before inner, each linked to the last one before it
that is still open where it starts. While no two cross, climbing the links from the last that
starts at or before a place comes to the ranges that hold the place, innermost first
(`climb_spec`, `mem_chain_iff`); and the links themselves are found by climbing, which tells
whether a range crosses one before it (`crosses_iff`).
-/

namespace Laminar

/-- Go up from a range while it ends at or before a place. -/
def climb (stop : ℕ → ℕ) (enclosing : ℕ → Option ℕ) (place : ℕ) : ℕ → Option ℕ → Option ℕ
  | 0, range => range
  | _ + 1, none => none
  | fuel + 1, some i => if stop i ≤ place then climb stop enclosing place fuel (enclosing i)
    else some i

/-- A range and those that enclose it, innermost first. -/
def chain (enclosing : ℕ → Option ℕ) : ℕ → Option ℕ → List ℕ
  | 0, _ => []
  | _ + 1, none => []
  | fuel + 1, some i => i :: chain enclosing fuel (enclosing i)

/-- The last of the first `n` ranges that ends past a place, or none. -/
def LastPast (stop : ℕ → ℕ) (n place : ℕ) : Option ℕ → Prop
  | none => ∀ k < n, stop k ≤ place
  | some i => i < n ∧ place < stop i ∧ ∀ k, i < k → k < n → stop k ≤ place

/-- Ranges in order of start, outer before inner. -/
def Ordered (start stop : ℕ → ℕ) (n : ℕ) : Prop :=
  ∀ i j, i < j → j < n → start i < start j ∨ start i = start j ∧ stop j ≤ stop i

/-- No two ranges cross: what starts inside a range ends inside it. -/
def Nested (start stop : ℕ → ℕ) (n : ℕ) : Prop :=
  ∀ i j, i < j → j < n → start j < stop i → stop j ≤ stop i

/-- Each range is linked to the last before it that is open where it starts. -/
def Linked (start stop : ℕ → ℕ) (enclosing : ℕ → Option ℕ) (n : ℕ) : Prop :=
  ∀ i < n, LastPast stop i (start i) (enclosing i)

variable {start stop : ℕ → ℕ} {enclosing : ℕ → Option ℕ} {n : ℕ}

lemma Ordered.start_le (h : Ordered start stop n) {i j : ℕ} (hij : i ≤ j) (hj : j < n) :
    start i ≤ start j := by
  rcases Nat.eq_or_lt_of_le hij with rfl | hlt
  · exact le_refl _
  · rcases h i j hlt hj with hlt | ⟨heq, -⟩
    · exact hlt.le
    · exact heq.le

lemma Ordered.mono (h : Ordered start stop n) {m : ℕ} (hm : m ≤ n) : Ordered start stop m :=
  fun i j hij hj => h i j hij (by omega)

/-- Climbing from a range that starts at or before a place finds the last that ends past it. -/
theorem climb_spec (hordered : Ordered start stop n)
    (hlinked : Linked start stop enclosing n) {place : ℕ} :
    ∀ {i fuel : ℕ}, i < n → i < fuel → start i ≤ place →
      LastPast stop (i + 1) place (climb stop enclosing place fuel (some i)) := by
  intro i
  induction i using Nat.strong_induction_on with
  | _ i ih =>
    intro fuel hi hfuel hstart
    obtain ⟨fuel, rfl⟩ : ∃ f, fuel = f + 1 := ⟨fuel - 1, by omega⟩
    rw [climb]
    split
    next hle =>
      have hlink := hlinked i hi
      cases henc : enclosing i with
      | none =>
        rw [henc] at hlink
        have hnone : climb stop enclosing place fuel none = none := by cases fuel <;> rfl
        rw [hnone]
        intro k hk
        rcases Nat.eq_or_lt_of_le (Nat.le_of_lt_succ hk) with rfl | hlt
        · exact hle
        · exact (hlink k hlt).trans hstart
      | some o =>
        rw [henc] at hlink
        obtain ⟨hoi, -, hbetween⟩ := hlink
        have hup := @ih o hoi fuel (hoi.trans hi) (by omega)
          ((hordered.start_le hoi.le hi).trans hstart)
        -- what stands between a range and the one it is linked to has ended where it starts
        have hpast : ∀ k, o < k → k < i + 1 → stop k ≤ place := by
          intro k hok hk
          rcases Nat.eq_or_lt_of_le (Nat.le_of_lt_succ hk) with rfl | hlt
          · exact hle
          · exact (hbetween k hok hlt).trans hstart
        cases hc : climb stop enclosing place fuel (some o) with
        | none =>
          rw [hc] at hup
          intro k hk
          by_cases hko : k < o + 1
          · exact hup k hko
          · exact hpast k (by omega) hk
        | some m =>
          rw [hc] at hup
          refine ⟨by have := hup.1; omega, hup.2.1, ?_⟩
          intro k hmk hk
          by_cases hko : k < o + 1
          · exact hup.2.2 k hmk hko
          · exact hpast k (by omega) hk
    next hgt => exact ⟨Nat.lt_succ_self i, not_le.mp hgt, fun k h₁ h₂ => by omega⟩

/-- The ranges up from one that holds a place are those that hold it. -/
theorem mem_chain_iff (hordered : Ordered start stop n) (hnested : Nested start stop n)
    (hlinked : Linked start stop enclosing n) {place : ℕ} :
    ∀ {i fuel : ℕ}, i < n → i < fuel → start i ≤ place → place < stop i →
      (∀ l, l ∈ chain enclosing fuel (some i) ↔ l ≤ i ∧ place < stop l) ∧
        (chain enclosing fuel (some i)).Pairwise (· > ·) := by
  intro i
  induction i using Nat.strong_induction_on with
  | _ i ih =>
    intro fuel hi hfuel hstart hstop
    obtain ⟨fuel, rfl⟩ : ∃ f, fuel = f + 1 := ⟨fuel - 1, by omega⟩
    rw [chain]
    have hlink := hlinked i hi
    cases henc : enclosing i with
    | none =>
      rw [henc] at hlink
      have hnone : chain enclosing fuel none = [] := by cases fuel <;> rfl
      rw [hnone]
      refine ⟨fun l => ?_, List.pairwise_singleton _ _⟩
      rw [List.mem_singleton]
      constructor
      · rintro rfl
        exact ⟨le_refl _, hstop⟩
      · rintro ⟨hle, hlt⟩
        by_contra hne
        have := hlink l (by omega)
        omega
    | some o =>
      rw [henc] at hlink
      obtain ⟨hoi, hopen, hbetween⟩ := hlink
      have hinside := hnested o i hoi hi hopen
      obtain ⟨hmem, hsorted⟩ := @ih o hoi fuel (hoi.trans hi) (by omega)
        ((hordered.start_le hoi.le hi).trans hstart) (by omega)
      refine ⟨fun l => ?_, List.pairwise_cons.mpr ⟨fun l hl => ?_, hsorted⟩⟩
      · rw [List.mem_cons, hmem]
        constructor
        · rintro (rfl | ⟨hle, hlt⟩)
          · exact ⟨le_refl _, hstop⟩
          · exact ⟨by omega, hlt⟩
        · rintro ⟨hle, hlt⟩
          rcases Nat.eq_or_lt_of_le hle with rfl | hli
          · exact .inl rfl
          · refine .inr ⟨?_, hlt⟩
            by_contra hgt
            have := hbetween l (by omega) hli
            omega
      · have := ((hmem l).mp hl).1
        omega

/-- A range crosses one before it just when it ends past the last that is open where it starts,
where those before it nest. -/
lemma crosses_iff {i : ℕ} (hordered : Ordered start stop (i + 1)) (hnested : Nested start stop i)
    {o : Option ℕ} (ho : LastPast stop i (start i) o) :
    (∀ k, o = some k → stop i ≤ stop k) ↔ Nested start stop (i + 1) := by
  constructor
  · intro h k j hkj hj hopen
    rcases Nat.eq_or_lt_of_le (Nat.le_of_lt_succ hj) with rfl | hlt
    · cases o with
      | none =>
        have := ho k hkj
        omega
      | some m =>
        obtain ⟨hm, hmopen, hbetween⟩ := ho
        have hle := h m rfl
        by_cases hkm : k < m
        · -- the last open range lies in the one before it
          have hstart := hordered.start_le hm.le (Nat.lt_succ_self j)
          exact hle.trans (hnested k m hkm hm (by omega))
        · by_cases hmk : m < k
          · have := hbetween k hmk hkj
            omega
          · obtain rfl : k = m := by omega
            exact hle
    · exact hnested k j hkj hlt hopen
  · intro h k hk
    subst hk
    exact h k i ho.1 (Nat.lt_succ_self i) ho.2.1

/-- The link of a range, found by climbing from the one before it. -/
lemma link_spec {i : ℕ} (hordered : Ordered start stop (i + 1))
    (hlinked : Linked start stop enclosing i) {fuel : ℕ} (hfuel : i ≤ fuel) :
    LastPast stop i (start i)
      (climb stop enclosing (start i) fuel (if i = 0 then none else some (i - 1))) := by
  cases i with
  | zero =>
    have hnone : climb stop enclosing (start 0) fuel none = none := by cases fuel <;> rfl
    rw [if_pos rfl, hnone]
    exact fun k hk => absurd hk (Nat.not_lt_zero k)
  | succ i =>
    rw [if_neg (Nat.succ_ne_zero i), Nat.add_sub_cancel]
    exact climb_spec (hordered.mono (Nat.le_succ _)) hlinked (Nat.lt_succ_self i) (by omega)
      (hordered.start_le (Nat.le_succ i) (Nat.lt_succ_self _))

end Laminar
