import Mathlib.Data.Finset.Card
import Mathlib.Data.Finset.Image
import Mathlib.Data.Set.Finite.Basic
import Mathlib.Order.WellFounded
import Mathlib.Order.Interval.Finset.Nat

/-!
# Greedy naming

A row of items is named one after another. Each item has a base, and each base an endless
sequence of names it would take; an item takes the first name of its sequence that is neither
reserved nor taken by an item before it.

`IsGreedy` says this of an assignment of names, item by item and with no regard to how the names
were found, over any order of the items; `greedy` computes one over a list. An assignment that is
greedy is the only one (`IsGreedy.unique`), so whatever keeps `IsGreedy` computes `greedy`.
-/

namespace Naming

variable {ι B N : Type*}

/-- The names each base tries, in order, none of them twice. -/
structure Sequence (B N : Type*) where
  nth : B → ℕ → N
  injective : ∀ b, Function.Injective (nth b)

lemma Sequence.nth_inj (s : Sequence B N) {b : B} {k l : ℕ} :
    s.nth b k = s.nth b l ↔ k = l :=
  (s.injective b).eq_iff

/-! ### Taken names -/

/-- The name is reserved, or an item before `i` has it. -/
def Taken [LT ι] (R : N → Prop) (name : ι → Option N) (i : ι) (n : N) : Prop :=
  R n ∨ ∃ j < i, name j = some n

/-- `n` is the first name of the sequence of `b` that is not taken before `i`. -/
def IsFirst [LT ι] (s : Sequence B N) (R : N → Prop) (name : ι → Option N) (i : ι) (b : B)
    (n : N) : Prop :=
  ∃ k, n = s.nth b k ∧ ¬ Taken R name i n ∧ ∀ l < k, Taken R name i (s.nth b l)

/-- Each item that has a base has the first name of its sequence not taken before it. -/
def IsGreedy [LT ι] (s : Sequence B N) (R : N → Prop) (base : ι → Option B)
    (name : ι → Option N) : Prop :=
  ∀ i, (∀ n, name i = some n → ∃ b, base i = some b) ∧
    ∀ b, base i = some b → ∃ n, name i = some n ∧ IsFirst s R name i b n

lemma Taken.mono [LT ι] {R R' : N → Prop} {name name' : ι → Option N} {i : ι} {n : N}
    (hR : R n → R' n) (hname : ∀ j < i, name j = some n → name' j = some n)
    (h : Taken R name i n) : Taken R' name' i n := by
  rcases h with h | ⟨j, hj, h⟩
  · exact Or.inl (hR h)
  · exact Or.inr ⟨j, hj, hname j hj h⟩

lemma taken_congr [LT ι] {R R' : N → Prop} {name name' : ι → Option N} {i : ι} {n : N}
    (hR : R n ↔ R' n) (hname : ∀ j < i, name j = some n ↔ name' j = some n) :
    Taken R name i n ↔ Taken R' name' i n :=
  ⟨Taken.mono hR.mp fun j hj => (hname j hj).mp, Taken.mono hR.mpr fun j hj => (hname j hj).mpr⟩

lemma IsFirst.not_taken [LT ι] {s : Sequence B N} {R : N → Prop} {name : ι → Option N} {i : ι}
    {b : B} {n : N} (h : IsFirst s R name i b n) : ¬ Taken R name i n := by
  obtain ⟨k, rfl, hfree, -⟩ := h
  exact hfree

lemma IsFirst.mem [LT ι] {s : Sequence B N} {R : N → Prop} {name : ι → Option N} {i : ι}
    {b : B} {n : N} (h : IsFirst s R name i b n) : ∃ k, n = s.nth b k := by
  obtain ⟨k, rfl, -, -⟩ := h
  exact ⟨k, rfl⟩

/-- The first free name depends only on which names of the sequence are taken. -/
lemma IsFirst.congr [LT ι] {s : Sequence B N} {R R' : N → Prop} {name name' : ι → Option N}
    {i : ι} {b : B} {n : N}
    (htaken : ∀ k, Taken R name i (s.nth b k) ↔ Taken R' name' i (s.nth b k))
    (h : IsFirst s R name i b n) : IsFirst s R' name' i b n := by
  obtain ⟨k, rfl, hfree, hbelow⟩ := h
  exact ⟨k, rfl, fun ht => hfree ((htaken k).mpr ht), fun l hl => (htaken l).mp (hbelow l hl)⟩

lemma IsFirst.eq [LT ι] {s : Sequence B N} {R : N → Prop} {name : ι → Option N} {i : ι} {b : B}
    {m n : N} (hm : IsFirst s R name i b m) (hn : IsFirst s R name i b n) : m = n := by
  obtain ⟨k, rfl, hk, hkb⟩ := hm
  obtain ⟨l, rfl, hl, hlb⟩ := hn
  rcases lt_trichotomy k l with h | rfl | h
  · exact absurd (hlb k h) hk
  · rfl
  · exact absurd (hkb l h) hl

/-! ### Greedy assignments -/

namespace IsGreedy

variable {s : Sequence B N} {R : N → Prop} {base : ι → Option B} {name name' : ι → Option N}

lemma not_reserved [LT ι] (h : IsGreedy s R base name) {i : ι} {n : N} (hi : name i = some n) :
    ¬ R n := by
  obtain ⟨b, hb⟩ := (h i).1 n hi
  obtain ⟨m, hm, hfirst⟩ := (h i).2 b hb
  obtain rfl : m = n := Option.some.inj (hm.symm.trans hi)
  exact fun hR => hfirst.not_taken (Or.inl hR)

lemma ne_of_lt [LT ι] (h : IsGreedy s R base name) {i j : ι} {n : N} (hij : i < j)
    (hi : name i = some n) : name j ≠ some n := by
  intro hj
  obtain ⟨b, hb⟩ := (h j).1 n hj
  obtain ⟨m, hm, hfirst⟩ := (h j).2 b hb
  obtain rfl : m = n := Option.some.inj (hm.symm.trans hj)
  exact hfirst.not_taken (Or.inr ⟨i, hij, hi⟩)

/-- No two items have one name. -/
lemma injective [LinearOrder ι] (h : IsGreedy s R base name) {i j : ι} {n : N}
    (hi : name i = some n) (hj : name j = some n) : i = j := by
  rcases lt_trichotomy i j with hij | hij | hij
  · exact absurd hj (h.ne_of_lt hij hi)
  · exact hij
  · exact absurd hi (h.ne_of_lt hij hj)

lemma isFirst [LT ι] (h : IsGreedy s R base name) {i : ι} {b : B} {n : N}
    (hb : base i = some b) (hn : name i = some n) : IsFirst s R name i b n := by
  obtain ⟨m, hm, hfirst⟩ := (h i).2 b hb
  obtain rfl : m = n := Option.some.inj (hm.symm.trans hn)
  exact hfirst

lemma name_isSome [LT ι] (h : IsGreedy s R base name) {i : ι} {b : B} (hb : base i = some b) :
    ∃ n, name i = some n := by
  obtain ⟨n, hn, -⟩ := (h i).2 b hb
  exact ⟨n, hn⟩

lemma eq_none [LT ι] (h : IsGreedy s R base name) {i : ι} (hb : base i = none) :
    name i = none := by
  rcases hn : name i with _ | n
  · rfl
  · obtain ⟨b, hb'⟩ := (h i).1 n hn
    simp [hb] at hb'

/-- There is one greedy assignment: by induction along the order, an item's name is determined by
the names before it. -/
theorem unique [LinearOrder ι] [WellFoundedLT ι] (h : IsGreedy s R base name)
    (h' : IsGreedy s R base name') : name = name' := by
  funext i
  induction i using WellFoundedLT.induction with
  | ind i ih =>
    rcases hb : base i with _ | b
    · rw [h.eq_none hb, h'.eq_none hb]
    · obtain ⟨n, hn, hfirst⟩ := (h i).2 b hb
      obtain ⟨n', hn', hfirst'⟩ := (h' i).2 b hb
      have hsame : IsFirst s R name' i b n :=
        hfirst.congr fun k => taken_congr Iff.rfl fun j hj => by rw [ih j hj]
      rw [hn, hn', hsame.eq hfirst']

end IsGreedy

/-! ### Names that move

An item added after all others, or a name reserved late, changes the assignment. A name reserved
while an item has it displaces the item, which takes the first name past it in its sequence that
no item before it has; an item after it that has that name is displaced in turn. In between, one
item is without a name: `GreedyBut`. -/

section Moves

variable [LinearOrder ι]

/-- Every item but `i` has its first free name; `i`, of base `b`, has none, and finds the first
`k` names of its sequence taken. -/
structure GreedyBut (s : Sequence B N) (R : N → Prop) (base : ι → Option B)
    (name : ι → Option N) (i : ι) (b : B) (k : ℕ) : Prop where
  base_eq : base i = some b
  name_eq : name i = none
  below : ∀ l < k, Taken R name i (s.nth b l)
  others : ∀ j ≠ i, (∀ n, name j = some n → ∃ c, base j = some c) ∧
    ∀ c, base j = some c → ∃ n, name j = some n ∧ IsFirst s R name j c n

variable {s : Sequence B N} {R : N → Prop} {base : ι → Option B} {name : ι → Option N}

/-- Reserving a name no item has changes no name. -/
theorem IsGreedy.reserve (h : IsGreedy s R base name) {n : N} (hn : ∀ i, name i ≠ some n) :
    IsGreedy s (fun m => R m ∨ m = n) base name := by
  refine fun i => ⟨(h i).1, fun b hb => ?_⟩
  obtain ⟨m, hm, k, rfl, hfree, hbelow⟩ := (h i).2 b hb
  refine ⟨_, hm, k, rfl, ?_, fun l hl => (hbelow l hl).mono Or.inl fun j _ hj => hj⟩
  rintro ((hR | hmn) | hj)
  · exact hfree (Or.inl hR)
  · exact hn i (hmn ▸ hm)
  · exact hfree (Or.inr hj)

/-- Reserving the name of an item leaves that item without one, with every name up to it taken. -/
theorem IsGreedy.reserve_held (h : IsGreedy s R base name) {i : ι} {b : B} {k : ℕ}
    (hb : base i = some b) (hi : name i = some (s.nth b k)) :
    GreedyBut s (fun m => R m ∨ m = s.nth b k) base (Function.update name i none) i b (k + 1) := by
  have hup : ∀ j x, x ≠ s.nth b k →
      (Function.update name i none j = some x ↔ name j = some x) := by
    intro j x hx
    rcases eq_or_ne j i with rfl | hj
    · simp [hi, hx.symm]
    · rw [Function.update_of_ne hj]
  have hmono : ∀ j x, Taken R name j x →
      Taken (fun m => R m ∨ m = s.nth b k) (Function.update name i none) j x := by
    intro j x hx
    rcases eq_or_ne x (s.nth b k) with rfl | hne
    · exact Or.inl (Or.inr rfl)
    · exact hx.mono Or.inl fun j' _ hj' => (hup j' x hne).mpr hj'
  refine ⟨hb, Function.update_self .., fun l hl => ?_, fun j hj => ?_⟩
  · rcases Nat.lt_succ_iff_lt_or_eq.mp hl with hl | rfl
    · obtain ⟨k', heq, -, hbelow⟩ := h.isFirst hb hi
      obtain rfl := s.nth_inj.mp heq
      exact hmono i _ (hbelow l hl)
    · exact Or.inl (Or.inr rfl)
  · rw [Function.update_of_ne hj]
    refine ⟨(h j).1, fun c hc => ?_⟩
    obtain ⟨n, hn, l, rfl, hfree, hbelow⟩ := (h j).2 c hc
    have hne : s.nth c l ≠ s.nth b k := fun heq => hj (h.injective hn (heq ▸ hi))
    refine ⟨_, hn, l, rfl, ?_, fun l' hl' => hmono j _ (hbelow l' hl')⟩
    rintro ((hR | heq) | ⟨j', hj', hname⟩)
    · exact hfree (Or.inl hR)
    · exact hne heq
    · exact hfree (Or.inr ⟨j', hj', (hup j' _ hne).mp hname⟩)

/-- An item added after every other takes its first free name, and no other name changes. -/
theorem IsGreedy.append (h : IsGreedy s R base name) {i : ι} {b : B} {n : N}
    (hi : ∀ j, i ≤ j → base j = none) (hn : IsFirst s R name i b n) :
    IsGreedy s R (Function.update base i (some b)) (Function.update name i (some n)) := by
  have hsame : ∀ j ≤ i, ∀ x, Taken R (Function.update name i (some n)) j x ↔ Taken R name j x :=
    fun j hj x => taken_congr Iff.rfl fun j' hj' => by
      rw [Function.update_of_ne (lt_of_lt_of_le hj' hj).ne]
  intro j
  rcases lt_trichotomy j i with hj | rfl | hj
  · rw [Function.update_of_ne hj.ne, Function.update_of_ne hj.ne]
    refine ⟨(h j).1, fun c hc => ?_⟩
    obtain ⟨m, hm, hfirst⟩ := (h j).2 c hc
    exact ⟨m, hm, hfirst.congr fun k => (hsame j hj.le _).symm⟩
  · rw [Function.update_self, Function.update_self]
    refine ⟨fun _ _ => ⟨b, rfl⟩, fun c hc => ⟨n, rfl, ?_⟩⟩
    obtain rfl : b = c := Option.some.inj hc
    exact hn.congr fun k => (hsame j le_rfl _).symm
  · rw [Function.update_of_ne hj.ne', Function.update_of_ne hj.ne', hi j hj.le,
      h.eq_none (hi j hj.le)]
    exact ⟨fun m hm => absurd hm (by simp), fun c hc => absurd hc (by simp)⟩

namespace GreedyBut

variable {i : ι} {b : B} {k : ℕ}

lemma isFirst (h : GreedyBut s R base name i b k) {j : ι} {c : B} {n : N}
    (hc : base j = some c) (hn : name j = some n) : IsFirst s R name j c n := by
  have hj : j ≠ i := fun hj => by simp [hj, h.name_eq] at hn
  obtain ⟨m, hm, hfirst⟩ := (h.others j hj).2 c hc
  obtain rfl : m = n := Option.some.inj (hm.symm.trans hn)
  exact hfirst

lemma base_isSome (h : GreedyBut s R base name i b k) {j : ι} {n : N} (hn : name j = some n) :
    ∃ c, base j = some c :=
  (h.others j fun hj => by simp [hj, h.name_eq] at hn).1 n hn

lemma injective (h : GreedyBut s R base name i b k) {j j' : ι} {n : N}
    (hj : name j = some n) (hj' : name j' = some n) : j = j' := by
  obtain ⟨c, hc⟩ := h.base_isSome hj
  obtain ⟨c', hc'⟩ := h.base_isSome hj'
  rcases lt_trichotomy j j' with hlt | heq | hlt
  · exact absurd (Or.inr ⟨j, hlt, hj⟩) (h.isFirst hc' hj').not_taken
  · exact heq
  · exact absurd (Or.inr ⟨j', hlt, hj'⟩) (h.isFirst hc hj).not_taken

/-- The item without a name takes the first one left, which no item has: then all are named. -/
theorem claim (h : GreedyBut s R base name i b k) {l : ℕ}
    (hbelow : ∀ m, k ≤ m → m < l → Taken R name i (s.nth b m)) (hR : ¬ R (s.nth b l))
    (hfree : ∀ j, name j ≠ some (s.nth b l)) :
    IsGreedy s R base (Function.update name i (some (s.nth b l))) := by
  have hup : ∀ j x, x ≠ s.nth b l →
      (Function.update name i (some (s.nth b l)) j = some x ↔ name j = some x) := by
    intro j x hx
    rcases eq_or_ne j i with rfl | hj
    · simp [h.name_eq, hx.symm]
    · rw [Function.update_of_ne hj]
  have hmono : ∀ j x, Taken R name j x →
      Taken R (Function.update name i (some (s.nth b l))) j x := by
    intro j x hx
    refine hx.mono id fun j' _ hj' => (hup j' x ?_).mpr hj'
    rintro rfl
    exact hfree j' hj'
  intro j
  rcases eq_or_ne j i with rfl | hj
  · rw [Function.update_self]
    refine ⟨fun _ _ => ⟨b, h.base_eq⟩, fun c hc => ⟨_, rfl, l, ?_, ?_, fun m hm => ?_⟩⟩
    · rw [Option.some.inj (h.base_eq.symm.trans hc)]
    · rintro (hR' | ⟨j', hj', hname⟩)
      · exact hR hR'
      · rw [Function.update_of_ne hj'.ne] at hname
        exact hfree j' hname
    · rw [← Option.some.inj (h.base_eq.symm.trans hc)]
      rcases lt_or_ge m k with hmk | hmk
      · exact hmono j _ (h.below m hmk)
      · exact hmono j _ (hbelow m hmk hm)
  · rw [Function.update_of_ne hj]
    refine ⟨(h.others j hj).1, fun c hc => ?_⟩
    obtain ⟨n, hn, m, rfl, hfree', hbelow'⟩ := (h.others j hj).2 c hc
    have hne : s.nth c m ≠ s.nth b l := fun heq => hfree j (heq ▸ hn)
    refine ⟨_, hn, m, rfl, ?_, fun m' hm' => hmono j _ (hbelow' m' hm')⟩
    rintro (hR' | ⟨j', hj', hname⟩)
    · exact hfree' (Or.inl hR')
    · exact hfree' (Or.inr ⟨j', hj', (hup j' _ hne).mp hname⟩)

/-- The item without a name takes the first one left, which an item `j` after it has: then `j` is
the one without a name. -/
theorem claim_held (h : GreedyBut s R base name i b k) {l : ℕ} {j : ι} {c : B} {m : ℕ}
    (hbelow : ∀ m, k ≤ m → m < l → Taken R name i (s.nth b m)) (hij : i < j)
    (hj : name j = some (s.nth b l)) (hc : base j = some c) (hm : s.nth b l = s.nth c m) :
    GreedyBut s R base (Function.update (Function.update name j none) i (some (s.nth b l)))
      j c (m + 1) := by
  -- the names with `j`'s let go and `i`'s taken
  set name' := Function.update (Function.update name j none) i (some (s.nth b l)) with hname'
  have hother : ∀ x, x ≠ i → x ≠ j → name' x = name x := fun x hxi hxj => by
    rw [hname', Function.update_of_ne hxi, Function.update_of_ne hxj]
  have hself : name' i = some (s.nth b l) := Function.update_self ..
  have hnone : name' j = none := by
    rw [hname', Function.update_of_ne hij.ne', Function.update_self]
  have hmono : ∀ x y, Taken R name x y → (y = s.nth b l → i < x) → Taken R name' x y := by
    rintro x y (hR | ⟨z, hz, hzn⟩) hx
    · exact Or.inl hR
    · rcases eq_or_ne z j with rfl | hzj
      · obtain rfl : s.nth b l = y := Option.some.inj (hj.symm.trans hzn)
        exact Or.inr ⟨i, hx rfl, hself⟩
      · have hzi : z ≠ i := fun hzi => by simp [hzi, h.name_eq] at hzn
        exact Or.inr ⟨z, hz, (hother z hzi hzj).trans hzn⟩
  have hfirstj := h.isFirst hc hj
  have hRn : ¬ R (s.nth b l) := fun hR => hfirstj.not_taken (Or.inl hR)
  refine ⟨hc, hnone, fun l' hl' => ?_, fun x hx => ?_⟩
  · rcases Nat.lt_succ_iff_lt_or_eq.mp hl' with hl' | rfl
    · obtain ⟨m', heq, -, hbelow'⟩ := hfirstj
      obtain rfl := s.nth_inj.mp (hm.symm.trans heq)
      exact hmono j _ (hbelow' l' hl') fun _ => hij
    · exact Or.inr ⟨i, hij, hself.trans (congrArg some hm)⟩
  · rcases eq_or_ne x i with rfl | hxi
    · refine ⟨fun _ _ => ⟨b, h.base_eq⟩, fun c' hc' => ⟨_, hself, l, ?_, ?_, fun m' hm' => ?_⟩⟩
      · rw [Option.some.inj (h.base_eq.symm.trans hc')]
      · rintro (hR | ⟨z, hz, hzn⟩)
        · exact hRn hR
        · have hzj : z ≠ j := fun hzj => absurd hij (by rw [← hzj]; exact not_lt_of_gt hz)
          rw [hother z hz.ne hzj] at hzn
          exact hzj (h.injective hzn hj)
      · rw [← Option.some.inj (h.base_eq.symm.trans hc')]
        have htaken : Taken R name x (s.nth b m') := by
          rcases lt_or_ge m' k with hmk | hmk
          · exact h.below m' hmk
          · exact hbelow m' hmk hm'
        exact hmono x _ htaken fun heq => absurd (s.nth_inj.mp heq) hm'.ne
    · rw [hother x hxi hx]
      refine ⟨(h.others x hxi).1, fun c' hc' => ?_⟩
      obtain ⟨n, hn, m', rfl, hfree, hbelow'⟩ := (h.others x hxi).2 c' hc'
      refine ⟨_, hn, m', rfl, ?_, fun l' hl' => hmono x _ (hbelow' l' hl') fun heq => ?_⟩
      · rintro (hR | ⟨z, hz, hzn⟩)
        · exact hfree (Or.inl hR)
        · rcases eq_or_ne z i with rfl | hzi
          · have heq : s.nth b l = s.nth c' m' := Option.some.inj (hself.symm.trans hzn)
            exact hx (h.injective hn (heq ▸ hj))
          · have hzj : z ≠ j := fun hzj => by simp [hzj, hnone] at hzn
            exact hfree (Or.inr ⟨z, hz, (hother z hzi hzj).symm.trans hzn⟩)
      · rcases hbelow' l' hl' with hR | ⟨z, hz, hzn⟩
        · exact absurd (heq ▸ hR) hRn
        · exact hij.trans ((h.injective (heq ▸ hzn) hj) ▸ hz)

end GreedyBut

end Moves

/-! ### The greedy pass over a list -/

/-- Of any `taken.card + 1` names of the sequence in a row one is outside `taken`: the sequence
repeats no name. -/
lemma Sequence.exists_notMem_from (s : Sequence B N) (taken : Finset N) (b : B) (first : ℕ) :
    ∃ k, first ≤ k ∧ k ≤ first + taken.card ∧ s.nth b k ∉ taken := by
  classical
  by_contra h
  push Not at h
  have hsub : (Finset.Icc first (first + taken.card)).image (s.nth b) ⊆ taken := by
    intro n hn
    obtain ⟨k, hk, rfl⟩ := Finset.mem_image.mp hn
    exact h k (Finset.mem_Icc.mp hk).1 (Finset.mem_Icc.mp hk).2
  have hcard := Finset.card_le_card hsub
  rw [Finset.card_image_of_injective _ (s.injective b), Nat.card_Icc] at hcard
  omega

lemma Sequence.exists_notMem (s : Sequence B N) (taken : Finset N) (b : B) :
    ∃ k, s.nth b k ∉ taken := by
  obtain ⟨k, -, -, h⟩ := s.exists_notMem_from taken b 0
  exact ⟨k, h⟩

/-- What a list holds at a place, past its end nothing. -/
def at? {α : Type*} (l : List (Option α)) (i : ℕ) : Option α := l[i]?.join

@[simp] lemma at?_nil {α : Type*} (i : ℕ) : at? ([] : List (Option α)) i = none := rfl

@[simp] lemma at?_cons_zero {α : Type*} (a : Option α) (l : List (Option α)) :
    at? (a :: l) 0 = a := by
  simp [at?]

@[simp] lemma at?_cons_succ {α : Type*} (a : Option α) (l : List (Option α)) (i : ℕ) :
    at? (a :: l) (i + 1) = at? l i := by
  simp [at?]

lemma ext_at? {α : Type*} {l m : List (Option α)} (hlen : l.length = m.length)
    (h : at? l = at? m) : l = m := by
  apply List.ext_getElem hlen
  intro i hi hi'
  have := congrFun h i
  simpa [at?, hi, hi'] using this

/-- A row stays greedy behind a first item that has its first free name, when the row takes
before it what the longer row does. -/
lemma IsGreedy.cons {s : Sequence B N} {R R' : N → Prop} {item : Option B} {name : Option N}
    {items : List (Option B)} {names : List (Option N)}
    (h : IsGreedy s R' (at? items) (at? names)) (hR : ∀ m, R' m ↔ R m ∨ name = some m)
    (hnone : ∀ n, name = some n → ∃ b, item = some b)
    (hfirst : ∀ b, item = some b → ∃ n, name = some n ∧
      ∃ k, n = s.nth b k ∧ ¬ R n ∧ ∀ l < k, R (s.nth b l)) :
    IsGreedy s R (at? (item :: items)) (at? (name :: names)) := by
  have htaken : ∀ i m, Taken R' (at? names) i m ↔ Taken R (at? (name :: names)) (i + 1) m := by
    intro i m
    simp only [Taken, hR]
    constructor
    · rintro ((hm | hm) | ⟨j, hj, hm⟩)
      · exact Or.inl hm
      · exact Or.inr ⟨0, Nat.succ_pos i, by simpa using hm⟩
      · exact Or.inr ⟨j + 1, Nat.succ_lt_succ hj, by simpa using hm⟩
    · rintro (hm | ⟨_ | j, hj, hm⟩)
      · exact Or.inl (Or.inl hm)
      · exact Or.inl (Or.inr (by simpa using hm))
      · exact Or.inr ⟨j, Nat.lt_of_succ_lt_succ hj, by simpa using hm⟩
  intro i
  cases i with
  | zero =>
    refine ⟨fun n hn => by simpa using hnone n (by simpa using hn), fun b hb => ?_⟩
    obtain ⟨n, hn, k, rfl, hfree, hbelow⟩ := hfirst b (by simpa using hb)
    refine ⟨_, by simpa using hn, k, rfl, ?_, fun l hl => Or.inl (hbelow l hl)⟩
    rintro (hm | ⟨j, hj, -⟩)
    · exact hfree hm
    · exact absurd hj (Nat.not_lt_zero j)
  | succ i =>
    refine ⟨fun m hm => ?_, fun c hc => ?_⟩
    · obtain ⟨c, hc⟩ := (h i).1 m (by simpa using hm)
      exact ⟨c, by simpa using hc⟩
    · obtain ⟨m, hm, k, rfl, hfree, hbelow⟩ := (h i).2 c (by simpa using hc)
      exact ⟨_, by simpa using hm, k, rfl, fun ht => hfree ((htaken i _).mpr ht),
        fun l hl => (htaken i _).mp (hbelow l hl)⟩

variable [DecidableEq N]

/-- The first name of the sequence of `b` outside `taken`. -/
def Sequence.firstFree (s : Sequence B N) (taken : Finset N) (b : B) : N :=
  s.nth b (Nat.find (s.exists_notMem taken b))

/-- The names the items take, in order; an item with no base takes none. -/
def greedy (s : Sequence B N) (taken : Finset N) : List (Option B) → List (Option N)
  | [] => []
  | none :: items => none :: greedy s taken items
  | some b :: items =>
    let n := s.firstFree taken b
    some n :: greedy s (insert n taken) items

@[simp] lemma length_greedy (s : Sequence B N) (taken : Finset N) (items : List (Option B)) :
    (greedy s taken items).length = items.length := by
  induction items generalizing taken with
  | nil => rfl
  | cons item items ih => cases item <;> simp [greedy, ih]

/-- The pass is greedy. -/
theorem isGreedy_greedy (s : Sequence B N) (taken : Finset N) (items : List (Option B)) :
    IsGreedy s (· ∈ taken) (at? items) (at? (greedy s taken items)) := by
  induction items generalizing taken with
  | nil => exact fun i => ⟨fun n hn => by simp [greedy] at hn, fun b hb => by simp at hb⟩
  | cons item items ih =>
    cases item with
    | none => exact (ih taken).cons (by simp) (by simp) (by simp)
    | some b =>
      refine (ih (insert (s.firstFree taken b) taken)).cons (fun m => ?_)
        (fun n _ => ⟨b, rfl⟩) fun c hc => ⟨_, rfl, ?_⟩
      · rw [Finset.mem_insert, or_comm, Option.some.injEq, eq_comm]
      · obtain rfl : b = c := Option.some.inj hc
        exact ⟨_, rfl, Nat.find_spec (s.exists_notMem taken b),
          fun l hl => not_not.mp (Nat.find_min (s.exists_notMem taken b) hl)⟩

/-- A greedy assignment over a list is the pass. -/
theorem IsGreedy.eq_greedy {s : Sequence B N} {taken : Finset N} {items : List (Option B)}
    {names : List (Option N)} (hlen : names.length = items.length)
    (h : IsGreedy s (· ∈ taken) (at? items) (at? names)) : names = greedy s taken items :=
  ext_at? (by simp [hlen]) (h.unique (isGreedy_greedy s taken items))

end Naming
