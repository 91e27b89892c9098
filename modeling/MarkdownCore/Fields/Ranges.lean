import Mathlib.Order.Monotone.Basic
import Mathlib.Data.Nat.Find
import MarkdownCore.Fields.Join

/-!
# The ranges of a query

A range of the text is split where the runs split it, and each piece goes back to the source: to
the byte it begins in, and past the byte it ends in. Ranges that cover the text one after the
other so list the runs' source in order. A NUL whose three bytes two ranges share is listed by
each of them.
-/

namespace MarkdownCore.Fields

open Bisect (bisect bisect_below bisect_bounds)

section
variable {source : List UInt8} {r : View} {i : ℕ}

/-! ### A byte before and a byte behind -/

/-- The byte a place of the text begins in. -/
lemma View.Joined.sourceAt_start (h : r.Joined source) (hi : i < r.runs.length) {at' : ℕ}
    (hlow : r.base i ≤ at') (hhigh : at' < r.top i) :
    (r.run i).start ≤ r.sourceAt i at' false ∧ r.sourceAt i at' false < (r.run i).stop ∧
      r.stands i (r.sourceAt i at' false) ≤ at' ∧
      at' < r.stands i (r.sourceAt i at' false) + r.width (r.sourceAt i at' false) := by
  obtain ⟨s, k, hs, hs', rfl, hk⟩ := h.exists_stands hi hlow hhigh.le
  rw [h.sourceAt_eq hs hs' hk, if_neg (by simp)]
  have hpos := r.width_pos s
  have hlt : s < (r.run i).stop := by
    rcases hk with hk | hk
    · exact hk.1
    · rcases Nat.lt_or_eq_of_le hs' with hlt | heq
      · exact hlt
      · rw [heq, h.stands_stop hi] at hhigh
        omega
  refine ⟨hs, hlt, Nat.le_add_right _ _, ?_⟩
  rcases hk with hk | hk <;> omega

/-- The byte before the one that a place of the text ends at. -/
lemma View.Joined.sourceAt_end (h : r.Joined source) (hi : i < r.runs.length) {at' : ℕ}
    (hlow : r.base i < at') (hhigh : at' ≤ r.top i) :
    ∃ s, r.sourceAt i at' true = s + 1 ∧ (r.run i).start ≤ s ∧ s < (r.run i).stop ∧
      r.stands i s < at' ∧ at' ≤ r.stands i s + r.width s := by
  obtain ⟨s, k, hs, hs', rfl, hk⟩ := h.exists_stands hi hlow.le hhigh
  rw [h.sourceAt_eq hs hs' hk]
  by_cases hzero : k = 0
  · subst hzero
    rw [if_neg (by simp)]
    rw [Nat.add_zero] at hlow ⊢
    have hgt : (r.run i).start < s := by
      rcases Nat.lt_or_eq_of_le hs with hlt | heq
      · exact hlt
      · rw [← heq, View.stands_start] at hlow
        exact absurd hlow (Nat.lt_irrefl _)
    obtain ⟨t, rfl⟩ : ∃ t, s = t + 1 := ⟨s - 1, by omega⟩
    have hsucc := @View.Joined.stands_succ source r i t h (by omega)
    have hpos := r.width_pos t
    exact ⟨t, rfl, by omega, by omega, by omega, by omega⟩
  · rw [if_pos ⟨rfl, hzero⟩]
    rcases hk with hk | hk
    · exact ⟨s, rfl, hs, hk.1, by omega, by omega⟩
    · exact absurd hk hzero

/-! ### The tops -/

lemma View.Joined.base_le_top (h : r.Joined source) (hi : i < r.runs.length) :
    r.base i ≤ r.top i := by
  rw [h.top_eq i hi, Nat.add_assoc]
  exact Nat.le_add_right _ _

lemma View.Joined.top_mono (h : r.Joined source) : Monotone r.top := by
  refine monotone_nat_of_le_succ fun i => ?_
  by_cases hi : i + 1 < r.runs.length
  · have htop : r.top i = r.base (i + 1) := if_pos hi
    rw [htop]
    exact h.base_le_top hi
  · rw [View.top, View.top, if_neg hi, if_neg (by omega)]

lemma View.Joined.top_le_base (h : r.Joined source) {j : ℕ} (hij : i < j)
    (hj : j < r.runs.length) : r.top i ≤ r.base j := by
  have hle := h.top_mono (Nat.le_sub_one_of_lt hij)
  have htop : r.top (j - 1) = r.base j := by
    rw [View.top, Nat.sub_add_cancel (by omega), if_pos hj]
  rw [← htop]
  exact hle

/-! ### The pieces of a range -/

/-- What a range of the text has in a run. -/
def View.piece (r : View) (start stop i : ℕ) : List Place :=
  if r.base i < stop ∧ start < stop ∧ start < r.top i then
    [⟨r.sourceAt i (max start (r.base i)) false, r.sourceAt i (min stop (r.top i)) true⟩]
  else []

lemma View.Joined.placesFrom_eq (h : r.Joined source) {start stop left : ℕ}
    (hleft : i + left = r.runs.length) :
    r.placesFrom start stop left i = (List.range' i left).flatMap (r.piece start stop) := by
  induction left generalizing i with
  | zero => rfl
  | succ left ih =>
    have hrest := ih (i := i + 1) (by omega)
    rw [View.placesFrom, List.range'_succ, List.flatMap_cons, View.piece]
    split
    next hrun =>
      obtain ⟨hbase, hlt⟩ := hrun
      by_cases hge : start ≥ r.top i
      · rw [if_pos hge, if_neg (by omega), hrest, List.nil_append]
      · have hmax : (if start > r.base i then start else r.base i) = max start (r.base i) := by
          rw [max_def]
          split <;> split <;> omega
        have hmin : (if stop < r.top i then stop else r.top i) = min stop (r.top i) := by
          rw [min_def]
          split <;> split <;> omega
        rw [if_neg hge, hmax, hmin, if_pos ⟨hbase, hlt, by omega⟩, hrest]
        rfl
    next hend =>
      -- no run from here on begins in the range
      rw [if_neg fun hin => hend ⟨hin.1, hin.2.1⟩, List.nil_append]
      symm
      rw [List.flatMap_eq_nil_iff]
      intro j hj
      rw [List.mem_range'_1] at hj
      have hle := h.top_le_base (i := i) (j := j) (by omega) (by omega)
      have hbase := h.base_le_top (i := i) (by omega)
      exact if_neg fun hin => hend ⟨by omega, hin.2.1⟩

/-- A range's places are its pieces, run by run. -/
lemma View.Joined.addPlace_eq (h : r.Joined source) (start stop : ℕ) :
    r.addPlace start stop = (List.range r.runs.length).flatMap (r.piece start stop) := by
  rw [View.addPlace]
  obtain ⟨low, hlow⟩ : ∃ low, low = bisect (fun middle => r.top middle ≤ start) r.runs.length 0
      r.runs.length := ⟨_, rfl⟩
  have hbound : low ≤ r.runs.length := hlow ▸ (bisect_bounds _ (Nat.zero_le _)).2
  have hskipped : ∀ j < low, r.top j ≤ start := by
    intro j hj
    have hbelow : Bisect.Falls fun middle => decide (r.top middle ≤ start) := by
      intro a b hab hb
      simp only [decide_eq_true_eq] at hb ⊢
      exact (h.top_mono hab).trans hb
    simpa using bisect_below hbelow (Nat.zero_le j) (hlow ▸ hj)
  rw [← hlow, h.placesFrom_eq (Nat.add_sub_cancel' hbound), List.range_eq_range']
  have hsplit : List.range' 0 r.runs.length =
      List.range' 0 low ++ List.range' low (r.runs.length - low) := by
    have := @List.range'_append_1 0 low (r.runs.length - low)
    rw [Nat.zero_add, Nat.add_sub_cancel' hbound] at this
    exact this.symm
  have hfront : (List.range' 0 low).flatMap (r.piece start stop) = [] := by
    rw [List.flatMap_eq_nil_iff]
    intro j hj
    rw [List.mem_range'_1] at hj
    have := hskipped j (by omega)
    exact if_neg fun hin => by omega
  rw [hsplit, List.flatMap_append, hfront, List.nil_append]

/-- A run of no bytes has an empty piece. The piece of another one begins at the byte that the
range does, and ends past the byte that the range ends in. -/
lemma View.Joined.mem_piece (h : r.Joined source) (hi : i < r.runs.length) {start stop : ℕ}
    {p : Place} (hp : p ∈ r.piece start stop i) :
    r.base i < stop ∧ start < r.top i ∧
      ((r.run i).start = (r.run i).stop ∧ p = ⟨(r.run i).start, (r.run i).start⟩ ∨
        r.base i < r.top i ∧ (r.run i).start ≤ p.start ∧ p.start < (r.run i).stop ∧
          r.stands i p.start ≤ max start (r.base i) ∧
          max start (r.base i) < r.stands i p.start + r.width p.start ∧
          ∃ s, p.stop = s + 1 ∧ (r.run i).start ≤ s ∧ s < (r.run i).stop ∧
            r.stands i s < min stop (r.top i) ∧
            min stop (r.top i) ≤ r.stands i s + r.width s) := by
  rw [View.piece] at hp
  split at hp
  next hin =>
    obtain ⟨hbase, hlt, htop⟩ := hin
    rw [List.mem_singleton] at hp
    subst hp
    refine ⟨hbase, htop, ?_⟩
    rcases Nat.lt_or_eq_of_le (h.base_le_top hi) with hwidth | heq
    · right
      obtain ⟨h₁, h₂, h₃, h₄⟩ := h.sourceAt_start hi (le_max_right start (r.base i))
        (max_lt htop hwidth)
      obtain ⟨s, h₅, h₆, h₇, h₈, h₉⟩ := h.sourceAt_end hi (lt_min hbase hwidth)
        (min_le_right stop (r.top i))
      exact ⟨hwidth, h₁, h₂, h₃, h₄, s, h₅, h₆, h₇, h₈, h₉⟩
    · left
      have hstart := h.start_le _ (View.Joined.run_mem hi)
      have hempty : (r.run i).start = (r.run i).stop := by
        rcases Nat.lt_or_eq_of_le hstart with hlt' | heq'
        · have hpast := h.stands_lt le_rfl hlt'
          rw [View.stands_start, h.stands_stop hi] at hpast
          have := r.width_pos (r.run i).start
          omega
        · exact heq'
      refine ⟨hempty, ?_⟩
      have hmax : max start (r.base i) = r.stands i (r.run i).start + 0 := by
        rw [View.stands_start, max_eq_right (by omega), Nat.add_zero]
      have hmin : min stop (r.top i) = r.stands i (r.run i).start + 0 := by
        rw [View.stands_start, min_eq_right (by omega), ← heq, Nat.add_zero]
      rw [hmax, hmin, h.sourceAt_eq le_rfl hstart (Or.inr rfl),
        h.sourceAt_eq le_rfl hstart (Or.inr rfl)]
      simp
  next => cases hp

lemma View.Joined.piece_within (h : r.Joined source) (hi : i < r.runs.length) {start stop : ℕ}
    (hlt : start < stop) {p : Place} (hp : p ∈ r.piece start stop i) :
    (r.run i).start ≤ p.start ∧ p.start ≤ p.stop ∧ p.stop ≤ (r.run i).stop := by
  obtain ⟨hbase, htop, hempty | hpiece⟩ := h.mem_piece hi hp
  · obtain ⟨hempty, rfl⟩ := hempty
    exact ⟨le_rfl, le_rfl, hempty.le⟩
  · obtain ⟨hwidth, h₁, h₂, h₃, -, s, h₅, h₆, h₇, -, h₉⟩ := hpiece
    have hmeet : max start (r.base i) < min stop (r.top i) :=
      max_lt (lt_min hlt htop) (lt_min hbase hwidth)
    refine ⟨h₁, ?_, by omega⟩
    by_contra hgt
    have := h.stands_lt h₆ (show s < p.start by omega)
    omega

lemma piece_lt {start stop : ℕ} {p : Place} (hp : p ∈ r.piece start stop i) : start < stop := by
  rw [View.piece] at hp
  split at hp
  next hin => exact hin.2.1
  next => cases hp

/-- A byte of a run is in the piece of every range that meets its image. -/
lemma View.Joined.piece_covers (h : r.Joined source) (hi : i < r.runs.length) {s : ℕ}
    (hs : (r.run i).start ≤ s) (hs' : s < (r.run i).stop) {start stop : ℕ}
    (hstart : start ≤ r.stands i s) (hstop : r.stands i s < stop) :
    ∃ p ∈ r.piece start stop i, p.start ≤ s ∧ s < p.stop := by
  have hbase : r.base i ≤ r.stands i s := by
    rcases Nat.lt_or_eq_of_le hs with hlt | heq
    · have := h.stands_lt le_rfl hlt
      rw [View.stands_start] at this
      omega
    · rw [← heq, View.stands_start]
  have htop : r.stands i s < r.top i := by
    have := h.stands_lt hs hs'
    have := r.width_pos s
    rw [← h.stands_stop hi]
    omega
  have hin : r.base i < stop ∧ start < stop ∧ start < r.top i :=
    ⟨by omega, by omega, by omega⟩
  refine ⟨_, by rw [View.piece, if_pos hin]; exact List.mem_singleton_self _, ?_, ?_⟩
  · have hmax : max start (r.base i) ≤ r.stands i s := max_le hstart hbase
    obtain ⟨h₁, -, h₃, -⟩ := h.sourceAt_start hi (le_max_right start (r.base i))
      (hmax.trans_lt htop)
    change r.sourceAt i (max start (r.base i)) false ≤ s
    by_contra hgt
    have := h.stands_lt hs (not_le.mp hgt)
    have := r.width_pos s
    omega
  · have hmin : r.stands i s < min stop (r.top i) := lt_min hstop htop
    obtain ⟨t, h₅, h₆, -, -, h₉⟩ := h.sourceAt_end hi (hbase.trans_lt hmin)
      (min_le_right stop (r.top i))
    dsimp only
    rw [h₅]
    by_contra hge
    have := h.stands_lt h₆ (show t < s by omega)
    omega

/-! ### Ranges one after the other -/

/-- Ranges each of which begins where the one before ends. -/
inductive Consecutive : ℕ → List Place → ℕ → Prop
  | nil (at' : ℕ) : Consecutive at' [] at'
  | cons {start stop last : ℕ} {rest : List Place} (h : start ≤ stop)
      (hrest : Consecutive stop rest last) : Consecutive start (⟨start, stop⟩ :: rest) last

lemma Consecutive.bounds {start last : ℕ} {parts : List Place} (h : Consecutive start parts last) :
    start ≤ last ∧ ∀ part ∈ parts, start ≤ part.start ∧ part.stop ≤ last := by
  induction h with
  | nil at' => simp
  | cons hle _ ih =>
    refine ⟨hle.trans ih.1, fun part hpart => ?_⟩
    rcases List.mem_cons.mp hpart with rfl | hpart
    · exact ⟨le_rfl, ih.1⟩
    · exact ⟨hle.trans (ih.2 part hpart).1, (ih.2 part hpart).2⟩

lemma Consecutive.pairwise {start last : ℕ} {parts : List Place}
    (h : Consecutive start parts last) : parts.Pairwise fun a b => a.stop ≤ b.start := by
  induction h with
  | nil => exact List.Pairwise.nil
  | cons _ hrest ih => exact List.Pairwise.cons (fun b hb => (hrest.bounds.2 b hb).1) ih

lemma Consecutive.exists_mem {start last : ℕ} {parts : List Place}
    (h : Consecutive start parts last) {x : ℕ} (hlow : start ≤ x) (hhigh : x < last) :
    ∃ part ∈ parts, part.start ≤ x ∧ x < part.stop := by
  induction h with
  | nil => omega
  | @cons start stop last rest hle hrest ih =>
    by_cases hx : x < stop
    · exact ⟨⟨start, stop⟩, List.mem_cons_self, hlow, hx⟩
    · obtain ⟨part, hpart, hin⟩ := ih (by omega) hhigh
      exact ⟨part, List.mem_cons_of_mem _ hpart, hin⟩

/-- A range ends inside the image of the NUL at a byte of the source. -/
def Splits (source : List UInt8) (r : View) (parts : List Place) (s : ℕ) : Prop :=
  source.getD s 0 = 0 ∧ ∃ i < r.runs.length, ∃ part ∈ parts,
    r.textAt i s < part.stop ∧ part.stop < r.textAt i s + 3

/-- The order of the places: one behind the other, but for a NUL that a range splits. -/
def Follows (source : List UInt8) (r : View) (parts : List Place) (p q : Place) : Prop :=
  p.stop ≤ q.start ∨ p.stop = q.start + 1 ∧ Splits source r parts q.start

lemma View.Joined.width_eq (h : r.Joined source) (hi : i < r.runs.length) {s : ℕ}
    (hs : (r.run i).start ≤ s) (hs' : s < (r.run i).stop) :
    r.width s = (image source s).length := by
  rw [View.width, length_image]
  have hiff := nul_of_mem h.mem_nuls (View.Joined.run_mem hi) hs hs'
  simp only [hiff]

/-- The pieces of a range before another one, and of the other. -/
lemma View.Joined.piece_follows (h : r.Joined source) {parts : List Place} {a b : Place}
    (ha : a ∈ parts) (hab : a.stop ≤ b.start) {j : ℕ} (hi : i < r.runs.length)
    (hj : j < r.runs.length) {p q : Place} (hp : p ∈ r.piece a.start a.stop i)
    (hq : q ∈ r.piece b.start b.stop j) : Follows source r parts p q := by
  have hpin := h.piece_within hi (piece_lt hp) hp
  have hqin := h.piece_within hj (piece_lt hq) hq
  obtain ⟨hbase, htop, hp'⟩ := h.mem_piece hi hp
  obtain ⟨hbase', htop', hq'⟩ := h.mem_piece hj hq
  rcases Nat.lt_trichotomy i j with hlt | rfl | hgt
  · have := @View.Joined.stop_le_start source r i h j hlt hj
    exact Or.inl (by omega)
  · -- in one run, the later range ends behind the base and begins before the top
    rcases hp' with ⟨hempty, rfl⟩ | ⟨hwidth, -, -, -, -, s, hs, hs₁, hs₂, hs₃, hs₄⟩
    · exact Or.inl hqin.1
    rcases hq' with ⟨hempty, -⟩ | ⟨-, hq₁, hq₂, hq₃, hq₄, -⟩
    · omega
    by_cases hle : p.stop ≤ q.start
    · exact Or.inl hle
    · have hmax : max b.start (r.base i) = b.start := max_eq_left (by omega)
      have hmin : min a.stop (r.top i) = a.stop := min_eq_left (by omega)
      rw [hmax] at hq₃ hq₄
      rw [hmin] at hs₃ hs₄
      have heq : s = q.start := by
        rcases Nat.lt_trichotomy s q.start with hlt | heq | hgt
        · omega
        · exact heq
        · have := h.stands_lt hq₁ hgt
          omega
      subst heq
      have hthree : r.width q.start = 3 ∧ q.start ∈ r.nuls := by
        by_cases hnul : q.start ∈ r.nuls
        · exact ⟨if_pos hnul, hnul⟩
        · have hone : r.width q.start = 1 := if_neg hnul
          omega
      obtain ⟨-, -, -, -, hz⟩ := (h.mem_nuls q.start).mp hthree.2
      refine Or.inr ⟨hs, hz, i, hi, a, ha, ?_, ?_⟩
      · rw [View.textAt_eq h]
        exact hs₃
      · rw [View.textAt_eq h, ← hthree.1]
        omega
  · have := h.top_le_base hgt hi
    omega

/-- The places of ranges one after the other follow one another. -/
lemma View.Joined.addPlaces_follows (h : r.Joined source) {parts : List Place} {start last : ℕ}
    (hparts : Consecutive start parts last) :
    (r.addPlaces parts).Pairwise (Follows source r parts) := by
  rw [View.addPlaces, List.pairwise_flatMap]
  refine ⟨fun part hpart => ?_, hparts.pairwise.imp_of_mem fun {a b} ha hb hab p hp q hq => ?_⟩
  · rw [h.addPlace_eq, List.pairwise_flatMap]
    refine ⟨fun i _ => ?_, List.pairwise_lt_range.imp_of_mem fun {i j} hi hj hij p hp q hq => ?_⟩
    · rw [View.piece]
      split
      · exact List.pairwise_singleton _ _
      · exact List.Pairwise.nil
    · rw [List.mem_range] at hi hj
      have hpin := h.piece_within hi (piece_lt hp) hp
      have hqin := h.piece_within hj (piece_lt hq) hq
      have := @View.Joined.stop_le_start source r i h j hij hj
      exact Or.inl (by omega)
  · rw [h.addPlace_eq, List.mem_flatMap] at hp hq
    obtain ⟨i, hi, hp⟩ := hp
    obtain ⟨j, hj, hq⟩ := hq
    exact h.piece_follows ha hab (List.mem_range.mp hi) (List.mem_range.mp hj) hp hq

lemma View.Joined.mem_addPlaces (h : r.Joined source) {parts : List Place} {p : Place} :
    p ∈ r.addPlaces parts ↔
      ∃ part ∈ parts, ∃ i < r.runs.length, p ∈ r.piece part.start part.stop i := by
  simp only [View.addPlaces, h.addPlace_eq, List.mem_flatMap, List.mem_range]

lemma View.Joined.top_le_size (h : r.Joined source) (hi : i < r.runs.length) :
    r.top i ≤ r.size := by
  have hle := h.top_mono (show i ≤ r.runs.length by omega)
  rwa [View.top, View.top, if_neg (show ¬ r.runs.length + 1 < r.runs.length by omega)] at hle

/-- The places of ranges that cover the text cover the bytes of the runs, and no other. -/
lemma View.Joined.addPlaces_covers (h : r.Joined source) {parts : List Place}
    (hparts : Consecutive 0 parts r.size) (s : ℕ) :
    (∃ p ∈ r.addPlaces parts, p.start ≤ s ∧ s < p.stop) ↔
      ∃ run ∈ r.runs, run.start ≤ s ∧ s < run.stop := by
  constructor
  · rintro ⟨p, hp, hs, hs'⟩
    obtain ⟨part, -, i, hi, hp⟩ := h.mem_addPlaces.mp hp
    have hin := h.piece_within hi (piece_lt hp) hp
    exact ⟨r.run i, View.Joined.run_mem hi, by omega, by omega⟩
  · rintro ⟨run, hrun, hs, hs'⟩
    obtain ⟨i, hi, rfl⟩ := List.getElem_of_mem hrun
    have hget : r.run i = r.runs[i] := by
      rw [View.run, List.getD_eq_getElem _ _ hi]
    rw [← hget] at hs hs'
    have hlt : r.stands i s < r.size := by
      have := h.stands_lt hs hs'
      have := r.width_pos s
      have := h.top_le_size hi
      rw [← h.stands_stop hi] at this
      omega
    obtain ⟨part, hpart, hstart, hstop⟩ := hparts.exists_mem (Nat.zero_le _) hlt
    obtain ⟨p, hp, hin⟩ := h.piece_covers hi hs hs' hstart hstop
    exact ⟨p, h.mem_addPlaces.mpr ⟨part, hpart, i, hi, hp⟩, hin⟩

/-- Every byte of the text is in the image of one byte of one run. -/
lemma View.Joined.exists_image (h : r.Joined source) {at' : ℕ} (hat : at' < r.size) :
    ∃ i < r.runs.length, ∃ s k, (r.run i).start ≤ s ∧ s < (r.run i).stop ∧
      k < (image source s).length ∧ at' = r.textAt i s + k := by
  by_cases hnone : r.runs.length = 0
  · rw [h.size_zero (List.eq_nil_of_length_eq_zero hnone)] at hat
    exact absurd hat (Nat.not_lt_zero _)
  -- the first run whose text ends past the place
  have hlast : at' < r.top (r.runs.length - 1) := by
    rw [View.top, if_neg (by omega)]
    exact hat
  have hex : ∃ i, at' < r.top i := ⟨_, hlast⟩
  have hi : Nat.find hex < r.runs.length := by
    have := Nat.find_min' hex hlast
    omega
  have hbase : r.base (Nat.find hex) ≤ at' := by
    cases hfound : Nat.find hex with
    | zero =>
      rw [h.base_zero (by rintro hnil; rw [hnil] at hnone; exact hnone rfl)]
      exact Nat.zero_le _
    | succ n =>
      have hmin := Nat.find_min hex (show n < Nat.find hex by omega)
      have htop : r.top n = r.base (n + 1) := if_pos (by omega)
      omega
  have hfound := Nat.find_spec hex
  obtain ⟨hs, hs', hle, hlt⟩ := h.sourceAt_start hi hbase hfound
  refine ⟨_, hi, _, at' - r.textAt (Nat.find hex) (r.sourceAt (Nat.find hex) at' false), hs, hs',
    ?_, ?_⟩
  · rw [← h.width_eq hi hs hs', View.textAt_eq h]
    omega
  · rw [View.textAt_eq h]
    omega

end

/-- The searches invert the joining on every byte of the text, each of a NUL's three giving the
NUL, and the places of ranges that cover the text follow one another in the source and cover the
bytes of the runs and no other; where a range ends inside a NUL's image, the place that ends there
and the next one both hold the NUL. -/
theorem joined_parts {source : List UInt8} {runs : List Place} {r : View}
    (hordered : runs.Pairwise fun a b => a.stop ≤ b.start)
    (hle : ∀ run ∈ runs, run.start ≤ run.stop) (h : join source runs = some r) :
    r.runs = runs ∧
      (∀ i < runs.length, ∀ s, (r.run i).start ≤ s → s < (r.run i).stop →
        ∀ k < (image source s).length, r.sourceAt i (r.textAt i s + k) false = s ∧
          r.text[r.textAt i s + k]? = (image source s)[k]?) ∧
      (∀ at' < r.size, ∃ i < runs.length, ∃ s k, (r.run i).start ≤ s ∧ s < (r.run i).stop ∧
        k < (image source s).length ∧ at' = r.textAt i s + k) ∧
      ∀ parts, Consecutive 0 parts r.size →
        (r.addPlaces parts).Pairwise (Follows source r parts) ∧
        ∀ s, (∃ p ∈ r.addPlaces parts, p.start ≤ s ∧ s < p.stop) ↔
          ∃ run ∈ runs, run.start ≤ s ∧ s < run.stop := by
  have hjoined := join_joined hordered hle h
  have hruns := (join_eq h).1
  refine ⟨hruns, ?_, ?_, ?_⟩
  · intro i hi s hs hs' k hk
    have hi' : i < r.runs.length := hruns ▸ hi
    rw [View.textAt_eq hjoined]
    refine ⟨?_, text_getElem hordered hle h hi hs hs' hk⟩
    rw [← hjoined.width_eq hi' hs hs'] at hk
    rw [hjoined.sourceAt_eq hs hs'.le (Or.inl ⟨hs', hk⟩), if_neg (by simp)]
  · intro at' hat
    obtain ⟨i, hi, hrest⟩ := hjoined.exists_image hat
    exact ⟨i, hruns ▸ hi, hrest⟩
  · intro parts hparts
    refine ⟨hjoined.addPlaces_follows hparts, fun s => ?_⟩
    rw [← hruns]
    exact hjoined.addPlaces_covers hparts s

/-- A letter and a NUL in two runs, and ranges of which one ends inside the NUL's image. -/
theorem joined_parts_split :
    ∃ r, join [0x61, 0x62, 0x00] [⟨0, 1⟩, ⟨2, 3⟩] = some r ∧
      r.sourceAt 1 (r.textAt 1 2 + 2) false = 2 ∧
      (r.addPlaces [⟨0, 2⟩, ⟨2, 4⟩]).Pairwise
        (Follows [0x61, 0x62, 0x00] r [⟨0, 2⟩, ⟨2, 4⟩]) := by
  have h : join [0x61, 0x62, 0x00] [⟨0, 1⟩, ⟨2, 3⟩] =
      some ⟨[⟨0, 1⟩, ⟨2, 3⟩], [0, 1], [0x61, 0xef, 0xbf, 0xbd, 0x0a], 4, [2]⟩ := by decide
  obtain ⟨-, hinverse, -, hplaces⟩ := joined_parts (by simp) (by simp) h
  refine ⟨_, h, (hinverse 1 (by decide) 2 (by decide) (by decide) 2 (by decide)).1,
    (hplaces _ ?_).1⟩
  exact .cons (by decide) (.cons (by decide) (.nil 4))

/-- Two ranges that share a NUL's three bytes both list it: their places overlap. -/
theorem shared_nul_listed_twice :
    ¬ ∀ (source : List UInt8) (runs parts : List Place) (r : View),
      (runs.Pairwise fun a b => a.stop ≤ b.start) → (∀ run ∈ runs, run.start ≤ run.stop) →
      join source runs = some r → Consecutive 0 parts r.size →
      (r.addPlaces parts).Pairwise fun p q => p.stop ≤ q.start := by
  intro hall
  have h : join [0x00] [⟨0, 1⟩] =
      some ⟨[⟨0, 1⟩], [0], [0xef, 0xbf, 0xbd, 0x0a], 3, [0]⟩ := by decide
  have hpairwise := hall [0x00] [⟨0, 1⟩] [⟨0, 1⟩, ⟨1, 3⟩] _ (by simp) (by simp) h
    (.cons (by decide) (.cons (by decide) (.nil 3)))
  revert hpairwise
  decide

end MarkdownCore.Fields
