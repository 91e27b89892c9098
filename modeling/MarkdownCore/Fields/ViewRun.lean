import Mathlib.Data.List.GetD
import Mathlib.Algebra.BigOperators.Group.List.Basic
import Mathlib.Algebra.Order.Ring.Nat
import MarkdownCore.Fields.View

/-!
# Places of the joined text

A byte of the source is one byte of the text or, where it is NUL, three. Where each byte stands
in the text grows with it, so every place of the text is in the image of one byte, and the two
searches find it. The ranges that cover the text then list the source of the runs, in order.
-/

namespace MarkdownCore.Fields

open Bisect (bisect bisect_of_lt)

/-! ### Counting in a sorted list -/

section
variable {l : List ℕ}

/-- In a list that grows, the entries before the count of those below a bound are below it. -/
lemma lt_countP_iff (hl : l.Pairwise (· < ·)) {m x : ℕ} :
    m < l.countP (· < x) ↔ m < l.length ∧ l.getD m 0 < x := by
  induction l generalizing m with
  | nil => simp
  | cons a l ih =>
    obtain ⟨ha, hl⟩ := List.pairwise_cons.mp hl
    by_cases hax : a < x
    · rw [List.countP_cons_of_pos (by simpa using hax)]
      cases m with
      | zero => simp [hax]
      | succ m => simpa using ih hl
    · have hzero : (a :: l).countP (· < x) = 0 := by
        rw [List.countP_eq_zero]
        intro b hb
        rcases List.mem_cons.mp hb with rfl | hb
        · simpa using hax
        · have := ha b hb
          simp
          omega
      rw [hzero]
      constructor
      · intro h
        exact absurd h (Nat.not_lt_zero m)
      · rintro ⟨hm, hlt⟩
        cases m with
        | zero => exact absurd hlt (by simpa using hax)
        | succ m =>
          have hm' : m < l.length := Nat.lt_of_succ_lt_succ hm
          have hget : l.getD m 0 = l[m] := List.getD_eq_getElem _ _ hm'
          have := ha l[m] (List.getElem_mem hm')
          rw [List.getD_cons_succ, hget] at hlt
          omega

lemma getD_lt_getD (hl : l.Pairwise (· < ·)) {i j : ℕ} (hij : i < j) (hj : j < l.length) :
    l.getD i 0 < l.getD j 0 := by
  rw [List.getD_eq_getElem _ _ hj, List.getD_eq_getElem _ _ (hij.trans hj)]
  exact List.pairwise_iff_getElem.mp hl i j _ _ hij

/-- An entry of a list that grows is behind as many entries as are below it. -/
lemma countP_lt_getD (hl : l.Pairwise (· < ·)) {m : ℕ} (hm : m < l.length) :
    l.countP (· < l.getD m 0) = m := by
  refine Nat.le_antisymm (Nat.le_of_not_lt fun h => ?_) ?_
  · exact absurd ((lt_countP_iff hl).mp h).2 (Nat.lt_irrefl _)
  · cases m with
    | zero => exact Nat.zero_le _
    | succ m =>
      exact (lt_countP_iff hl).mpr ⟨by omega, getD_lt_getD hl (Nat.lt_succ_self m) hm⟩

lemma getD_countP (hl : l.Pairwise (· < ·)) {x : ℕ} (hx : x ∈ l) :
    l.getD (l.countP (· < x)) 0 = x := by
  obtain ⟨m, hm, rfl⟩ := List.getElem_of_mem hx
  have hget : l.getD m 0 = l[m] := List.getD_eq_getElem _ _ hm
  rw [← hget, countP_lt_getD hl hm]

lemma countP_le_of_le (l : List ℕ) {x y : ℕ} (h : x ≤ y) :
    l.countP (· < x) ≤ l.countP (· < y) := by
  refine List.countP_mono_left fun a _ ha => ?_
  simp only [decide_eq_true_eq] at ha ⊢
  omega

/-- One more bound counts one more entry where it is one. -/
lemma countP_succ (hl : l.Pairwise (· < ·)) (x : ℕ) :
    l.countP (· < x + 1) = l.countP (· < x) + if x ∈ l then 1 else 0 := by
  induction l with
  | nil => simp
  | cons a l ih =>
    obtain ⟨ha, hl⟩ := List.pairwise_cons.mp hl
    rw [List.countP_cons, List.countP_cons, ih hl]
    by_cases hax : a = x
    · have hnot : x ∉ l := fun h => absurd (ha x h) (by omega)
      simp [hax, hnot]
    · have hne : x ≠ a := fun h => hax h.symm
      have hiff : a < x + 1 ↔ a < x := by omega
      simp [hne, hiff]
      omega

end

/-! ### What joining makes -/

/-- The view of a source's runs: where they stand in the text, and where they hold a NUL. -/
structure View.Joined (source : List UInt8) (r : View) : Prop where
  ordered : r.runs.Pairwise fun a b => a.stop ≤ b.start
  start_le : ∀ run ∈ r.runs, run.start ≤ run.stop
  size_zero : r.runs = [] → r.size = 0
  base_zero : r.runs ≠ [] → r.base 0 = 0
  top_eq : ∀ i < r.runs.length, r.top i = r.base i + ((r.run i).stop - (r.run i).start) +
    2 * (r.nuls.countP (· < (r.run i).stop) - r.nuls.countP (· < (r.run i).start))
  sorted : r.nuls.Pairwise (· < ·)
  mem_nuls : ∀ s, s ∈ r.nuls ↔
    ∃ run ∈ r.runs, run.start ≤ s ∧ s < run.stop ∧ source.getD s 0 = 0

/-- In a run, the NULs of the runs are those of the source. -/
lemma nul_of_mem {source : List UInt8} {runs : List Place} {nuls : List ℕ}
    (hmem : ∀ s, s ∈ nuls ↔ ∃ run ∈ runs, run.start ≤ s ∧ s < run.stop ∧ source.getD s 0 = 0)
    {run : Place} (hrun : run ∈ runs) {s : ℕ} (hs : run.start ≤ s) (hs' : s < run.stop) :
    s ∈ nuls ↔ source.getD s 0 = 0 := by
  rw [hmem]
  constructor
  · rintro ⟨_, _, _, _, hzero⟩
    exact hzero
  · intro hzero
    exact ⟨run, hrun, hs, hs', hzero⟩

/-- How many bytes of the text a byte of the source is. -/
def View.width (r : View) (s : ℕ) : ℕ := if s ∈ r.nuls then 3 else 1

/-- Where a byte of run `i` stands in the text. -/
def View.stands (r : View) (i s : ℕ) : ℕ :=
  r.base i + (s - (r.run i).start) +
    2 * (r.nuls.countP (· < s) - r.nuls.countP (· < (r.run i).start))

section
variable {source : List UInt8} {r : View} {i s : ℕ}

lemma View.nulsBefore_eq (hsorted : r.nuls.Pairwise (· < ·)) (at' : ℕ) :
    r.nulsBefore at' = r.nuls.countP (· < at') := by
  refine bisect_of_lt (by simp) (Nat.zero_le _) List.countP_le_length fun k _ hk => ?_
  rw [decide_eq_true_eq, lt_countP_iff hsorted]
  exact ⟨fun h => ⟨hk, h⟩, fun h => h.2⟩

lemma View.textAt_eq (h : r.Joined source) : r.textAt i s = r.stands i s := by
  rw [View.textAt, View.stands]
  rw [View.nulsBefore_eq h.sorted, View.nulsBefore_eq h.sorted]
  by_cases hnil : r.nuls.length = 0
  · rw [List.eq_nil_of_length_eq_zero hnil]
    simp
  · rw [if_pos hnil]

lemma View.Joined.run_mem (hi : i < r.runs.length) : r.run i ∈ r.runs := by
  rw [View.run, List.getD_eq_getElem _ _ hi]
  exact List.getElem_mem hi

lemma View.Joined.stop_le_start (h : r.Joined source) {j : ℕ} (hij : i < j)
    (hj : j < r.runs.length) : (r.run i).stop ≤ (r.run j).start := by
  rw [View.run, View.run, List.getD_eq_getElem _ _ hj, List.getD_eq_getElem _ _ (hij.trans hj)]
  exact List.pairwise_iff_getElem.mp h.ordered i j _ _ hij

@[simp] lemma View.stands_start : r.stands i (r.run i).start = r.base i := by
  simp [View.stands]

lemma View.Joined.stands_stop (h : r.Joined source) (hi : i < r.runs.length) :
    r.stands i (r.run i).stop = r.top i := (h.top_eq i hi).symm

/-- The next byte stands behind the whole image of this one. -/
lemma View.Joined.stands_succ (h : r.Joined source) (hs : (r.run i).start ≤ s) :
    r.stands i (s + 1) = r.stands i s + r.width s := by
  have hle := countP_le_of_le r.nuls hs
  rw [View.stands, View.stands, countP_succ h.sorted, View.width]
  split <;> omega

lemma View.Joined.stands_lt (h : r.Joined source) (hs : (r.run i).start ≤ s) {t : ℕ}
    (hst : s < t) : r.stands i s + r.width s ≤ r.stands i t := by
  rw [← h.stands_succ hs]
  have hle : r.nuls.countP (· < s + 1) ≤ r.nuls.countP (· < t) := countP_le_of_le r.nuls hst
  rw [View.stands, View.stands]
  omega

lemma View.width_pos (r : View) (s : ℕ) : 0 < r.width s := by
  rw [View.width]
  split <;> decide

/-- Every place of a run's text is in the image of a byte, or is the run's end. -/
lemma View.Joined.exists_stands (h : r.Joined source) (hi : i < r.runs.length) {at' : ℕ}
    (hlow : r.base i ≤ at') (hhigh : at' ≤ r.top i) :
    ∃ s k, (r.run i).start ≤ s ∧ s ≤ (r.run i).stop ∧ at' = r.stands i s + k ∧
      (s < (r.run i).stop ∧ k < r.width s ∨ k = 0) := by
  -- the last byte that does not stand past the place
  have hstart := h.start_le _ (View.Joined.run_mem hi)
  obtain ⟨n, hn⟩ := Nat.exists_eq_add_of_le hstart
  rw [← h.stands_stop hi, hn] at hhigh
  have hwalk : ∀ n, at' ≤ r.stands i ((r.run i).start + n) →
      ∃ s k, (r.run i).start ≤ s ∧ s ≤ (r.run i).start + n ∧ at' = r.stands i s + k ∧
        (s < (r.run i).start + n ∧ k < r.width s ∨ k = 0) := by
    intro n
    induction n with
    | zero =>
      intro hle
      rw [Nat.add_zero, View.stands_start] at hle
      exact ⟨(r.run i).start, 0, le_rfl, le_rfl, by rw [View.stands_start]; omega, Or.inr rfl⟩
    | succ n ih =>
      intro hle
      by_cases hle' : at' ≤ r.stands i ((r.run i).start + n)
      · obtain ⟨s, k, hs, hs', heq, hk⟩ := ih hle'
        exact ⟨s, k, hs, by omega, heq, hk.imp (fun hk => ⟨by omega, hk.2⟩) id⟩
      · by_cases hend : at' = r.stands i ((r.run i).start + (n + 1))
        · exact ⟨_, 0, Nat.le_add_right _ _, le_rfl, hend, Or.inr rfl⟩
        · have hsucc := h.stands_succ (Nat.le_add_right (r.run i).start n)
          rw [Nat.add_assoc] at hsucc
          exact ⟨(r.run i).start + n, at' - r.stands i ((r.run i).start + n),
            Nat.le_add_right _ _, by omega, by omega, Or.inl ⟨by omega, by omega⟩⟩
  rw [hn]
  exact hwalk n hhigh

/-! ### Back to the source -/

/-- The place of a NUL, as the search computes it. -/
lemma View.Joined.place_eq (h : r.Joined source) {m : ℕ}
    (hlow : r.nuls.countP (· < (r.run i).start) ≤ m)
    (hhigh : m < r.nuls.countP (· < (r.run i).stop)) :
    r.base i + (r.nuls.getD m 0 - (r.run i).start) +
        2 * (m - r.nuls.countP (· < (r.run i).start)) =
      r.stands i (r.nuls.getD m 0) ∧ (r.run i).start ≤ r.nuls.getD m 0 ∧
        r.nuls.getD m 0 < (r.run i).stop := by
  obtain ⟨hm, hlt⟩ := (lt_countP_iff h.sorted).mp hhigh
  have hge : (r.run i).start ≤ r.nuls.getD m 0 := by
    by_contra hlt'
    exact absurd ((lt_countP_iff h.sorted).mpr ⟨hm, not_le.mp hlt'⟩) (by omega)
  refine ⟨?_, hge, hlt⟩
  rw [View.stands, countP_lt_getD h.sorted hm]

/-- From a place in the image of a byte, the source's is the byte, and as an end past the byte
where the place is inside the image. -/
lemma View.Joined.sourceAt_eq (h : r.Joined source) {k : ℕ}
    (hstart : (r.run i).start ≤ s) (hstop : s ≤ (r.run i).stop)
    (hk : s < (r.run i).stop ∧ k < r.width s ∨ k = 0) (isEnd : Bool) :
    r.sourceAt i (r.stands i s + k) isEnd = if isEnd ∧ k ≠ 0 then s + 1 else s := by
  rw [View.sourceAt]
  dsimp only
  rw [View.nulsBefore_eq h.sorted, View.nulsBefore_eq h.sorted]
  have hfirst := countP_le_of_le r.nuls hstart
  split
  next hnil =>
    have hnone : r.nuls = [] := List.eq_nil_of_length_eq_zero hnil
    have hzero : k = 0 := by
      rcases hk with hk | hk
      · have hone : r.width s = 1 := by simp [View.width, hnone]
        omega
      · exact hk
    subst hzero
    rw [View.stands, hnone]
    simp
    omega
  next =>
    -- the search ends at the NULs that stand before the place
    have hturn : r.nuls.countP (· < if k = 0 then s else s + 1) ≤
        r.nuls.countP (· < (r.run i).stop) := by
      refine countP_le_of_le r.nuls ?_
      split <;> omega
    have hturn' : r.nuls.countP (· < (r.run i).start) ≤
        r.nuls.countP (· < if k = 0 then s else s + 1) := by
      refine countP_le_of_le r.nuls ?_
      split <;> omega
    have hlow : bisect (fun middle => decide (r.base i + (r.nuls.getD middle 0 - (r.run i).start) +
        2 * (middle - r.nuls.countP (· < (r.run i).start)) < r.stands i s + k))
        (r.nuls.countP (· < (r.run i).stop) - r.nuls.countP (· < (r.run i).start))
        (r.nuls.countP (· < (r.run i).start)) (r.nuls.countP (· < (r.run i).stop)) =
          r.nuls.countP (· < if k = 0 then s else s + 1) := by
      refine bisect_of_lt le_rfl hturn' hturn fun m hm hm' => ?_
      obtain ⟨hplace, hge, hlt⟩ := h.place_eq hm hm'
      have hlen := ((lt_countP_iff h.sorted).mp hm').1
      rw [decide_eq_true_eq, hplace, lt_countP_iff h.sorted]
      rcases Nat.lt_trichotomy (r.nuls.getD m 0) s with hlt' | heq | hgt
      · have := h.stands_lt hge hlt'
        have := r.width_pos (r.nuls.getD m 0)
        constructor
        · intro _
          refine ⟨hlen, ?_⟩
          split <;> omega
        · intro _
          omega
      · rw [heq]
        constructor
        · intro hpos
          refine ⟨hlen, ?_⟩
          rw [if_neg (by omega)]
          exact Nat.lt_succ_self s
        · rintro ⟨-, hpos⟩
          split at hpos <;> omega
      · have := h.stands_lt hstart hgt
        have := r.width_pos s
        constructor
        · intro hpos
          rcases hk with hk | hk <;> omega
        · rintro ⟨-, hpos⟩
          split at hpos <;> omega
    rw [hlow]
    by_cases hzero : k = 0
    · subst hzero
      rw [if_pos rfl, Nat.add_zero]
      -- the NUL before ends before the byte
      have hpast : ¬ (r.nuls.countP (· < s) > r.nuls.countP (· < (r.run i).start) ∧
          r.stands i s < r.base i + (r.nuls.getD (r.nuls.countP (· < s) - 1) 0 -
            (r.run i).start) + 2 * (r.nuls.countP (· < s) - 1 -
              r.nuls.countP (· < (r.run i).start)) + 3) := by
        rintro ⟨hgt, hlt⟩
        have hle := countP_le_of_le r.nuls hstop
        obtain ⟨hplace, hge, -⟩ := @View.Joined.place_eq source r i h
          (r.nuls.countP (· < s) - 1) (by omega) (by omega)
        obtain ⟨hlen, hbefore⟩ := (lt_countP_iff h.sorted (m := r.nuls.countP (· < s) - 1)
          (x := s)).mp (by omega)
        have hmem : r.nuls.getD (r.nuls.countP (· < s) - 1) 0 ∈ r.nuls := by
          rw [List.getD_eq_getElem _ _ hlen]
          exact List.getElem_mem hlen
        have hwidth := h.stands_lt hge hbefore
        rw [View.width, if_pos hmem] at hwidth
        omega
      rw [if_neg hpast, if_neg (by simp), View.stands]
      omega
    · have hnul : s ∈ r.nuls := by
        by_contra hnot
        have hone : r.width s = 1 := if_neg hnot
        rcases hk with hk | hk <;> omega
      have hlt : k < 3 := by
        rcases hk with hk | hk
        · have hthree : r.width s = 3 := if_pos hnul
          omega
        · omega
      have hinside : r.nuls.countP (· < s) + 1 > r.nuls.countP (· < (r.run i).start) ∧
          r.stands i s + k < r.base i +
            (r.nuls.getD (r.nuls.countP (· < s) + 1 - 1) 0 - (r.run i).start) +
              2 * (r.nuls.countP (· < s) + 1 - 1 - r.nuls.countP (· < (r.run i).start)) + 3 := by
        rw [Nat.add_sub_cancel, getD_countP h.sorted hnul, ← View.stands]
        exact ⟨by omega, by omega⟩
      rw [if_neg hzero, countP_succ h.sorted, if_pos hnul, if_pos hinside, Nat.add_sub_cancel,
        getD_countP h.sorted hnul]
      cases isEnd
      · simp
      · simp [hzero]

end

end MarkdownCore.Fields
