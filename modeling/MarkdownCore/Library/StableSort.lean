import Mathlib.Data.List.Perm.Basic
import Mathlib.Order.Defs.LinearOrder
import Mathlib.Algebra.Order.Ring.Nat

/-!
# Stable sorts

A list sorted by a key keeps the order of equal keys. Merging sorted lists two by two, the first
before the second, is stable, and so is laying a list out by one digit, which sorts it by that
digit before the key it is in order of.
-/

namespace StableSort

variable {α κ : Type*} [LinearOrder κ]

/-- `l'` holds the entries of `l`, those of equal keys in their order. -/
structure Stable (key : α → κ) (l l' : List α) : Prop where
  perm : l'.Perm l
  kept : ∀ k, l'.filter (fun a => key a = k) = l.filter fun a => key a = k

/-- A list's keys do not decrease. -/
def InOrder (key : α → κ) (l : List α) : Prop := l.Pairwise fun a b => key a ≤ key b

/-- `l'` is `l` sorted by key, those of equal keys in their order. -/
structure Sorted (key : α → κ) (l l' : List α) : Prop extends Stable key l l' where
  ordered : InOrder key l'

variable {key : α → κ} {l l' l'' m m' : List α}

lemma Stable.refl (l : List α) : Stable key l l := ⟨List.Perm.refl _, fun _ => rfl⟩

lemma Stable.trans (h : Stable key l l') (h' : Stable key l' l'') : Stable key l l'' :=
  ⟨h'.perm.trans h.perm, fun k => (h'.kept k).trans (h.kept k)⟩

lemma Stable.append (h : Stable key l l') (h' : Stable key m m') :
    Stable key (l ++ m) (l' ++ m') where
  perm := h.perm.append h'.perm
  kept k := by rw [List.filter_append, List.filter_append, h.kept, h'.kept]

/-! ### Merging -/

/-- Entries keep their place before those of no greater key. -/
def le (key : α → κ) (a b : α) : Bool := decide (key a ≤ key b)

lemma inOrder_merge (hl : InOrder key l) (hm : InOrder key m) :
    InOrder key (l.merge m (le key)) := by
  have htrans : ∀ a b c : α, le key a b = true → le key b c = true → le key a c = true := by
    simp only [le, decide_eq_true_eq]
    exact fun _ _ _ => le_trans
  have htotal : ∀ a b : α, (le key a b || le key b a) = true := by
    simp only [le, Bool.or_eq_true, decide_eq_true_eq]
    exact fun a b => le_total _ _
  have h := List.pairwise_merge htrans htotal l m (hl.imp (by simp [le])) (hm.imp (by simp [le]))
  exact h.imp (by simp [le])

/-- A merge keeps the entries of a key: those of the first list, then those of the second. -/
lemma filter_merge (hl : InOrder key l) (k : κ) :
    (l.merge m (le key)).filter (fun a => key a = k) =
      l.filter (fun a => key a = k) ++ m.filter fun a => key a = k := by
  induction l generalizing m with
  | nil => rw [List.nil_merge, List.filter_nil, List.nil_append]
  | cons a l ihl =>
    induction m with
    | nil => rw [List.merge_right, List.filter_nil, List.append_nil]
    | cons b m ihm =>
      cases hab : le key a b with
      | true =>
        rw [List.cons_merge_cons_pos _ _ _ hab]
        by_cases ha : key a = k
        · simp [List.filter_cons, ha, ihl hl.of_cons]
        · simp [List.filter_cons, ha, ihl hl.of_cons]
      | false =>
        have hlt : key b < key a := by simpa [le] using hab
        rw [List.cons_merge_cons_neg _ _ _ (by rw [hab]; exact Bool.false_ne_true)]
        by_cases hb : key b = k
        · -- every entry of the first list has a greater key
          have hnone : (a :: l).filter (fun a => key a = k) = [] := by
            rw [List.filter_eq_nil_iff]
            intro c hc hck
            have hac : key a ≤ key c := by
              rcases List.mem_cons.mp hc with rfl | hc
              · exact le_rfl
              · exact List.rel_of_pairwise_cons hl hc
            rw [of_decide_eq_true hck, ← hb] at hac
            exact absurd hac (not_le.mpr hlt)
          rw [hnone, List.nil_append] at ihm ⊢
          simp only [List.filter_cons, hb, decide_true, if_true, ihm]
        · simp only [List.filter_cons, hb, decide_false, Bool.false_eq_true, if_false] at ihm ⊢
          rw [ihm]

lemma stable_merge (hl : InOrder key l) : Stable key (l ++ m) (l.merge m (le key)) where
  perm := List.merge_perm_append _
  kept k := by rw [filter_merge hl, List.filter_append]

/-- Lists merged two by two, an odd last one left. -/
def mergePairs (key : α → κ) : List (List α) → List (List α)
  | l :: m :: rest => l.merge m (le key) :: mergePairs key rest
  | [l] => [l]
  | [] => []

lemma length_mergePairs (runs : List (List α)) :
    (mergePairs key runs).length = (runs.length + 1) / 2 := by
  induction runs using mergePairs.induct with
  | case1 l m rest ih =>
    rw [mergePairs, List.length_cons, ih, List.length_cons, List.length_cons]
    omega
  | case2 l => simp [mergePairs]
  | case3 => simp [mergePairs]

lemma inOrder_mergePairs {runs : List (List α)} (h : ∀ run ∈ runs, InOrder key run) :
    ∀ run ∈ mergePairs key runs, InOrder key run := by
  induction runs using mergePairs.induct with
  | case1 l m rest ih =>
    have hl := h l (by simp)
    have hm := h m (by simp)
    intro run hrun
    rw [mergePairs] at hrun
    rcases List.mem_cons.mp hrun with rfl | hrun
    · exact inOrder_merge hl hm
    · exact ih (fun run hrun => h run (by simp [hrun])) run hrun
  | case2 l => exact h
  | case3 => exact h

lemma stable_mergePairs {runs : List (List α)} (h : ∀ run ∈ runs, InOrder key run) :
    Stable key runs.flatten (mergePairs key runs).flatten := by
  induction runs using mergePairs.induct with
  | case1 l m rest ih =>
    have hrest := ih fun run hrun => h run (by simp [hrun])
    have hmerge := @stable_merge _ _ _ key l m (h l (by simp))
    rw [mergePairs, List.flatten_cons, List.flatten_cons, List.flatten_cons, ← List.append_assoc]
    exact hmerge.append hrest
  | case2 l => exact Stable.refl _
  | case3 => exact Stable.refl _

/-! ### Laying out by a digit -/

/-- A list laid out by digit. -/
def layout (digit : α → ℕ) (n : ℕ) (l : List α) : List α :=
  (List.range n).flatMap fun d => l.filter fun a => digit a = d

/-- How many entries have a digit below one: where that digit's begin. -/
def startOf (digit : α → ℕ) (l : List α) (d : ℕ) : ℕ := (layout digit d l).length

variable {digit : α → ℕ} {n : ℕ}

lemma layout_succ (l : List α) :
    layout digit (n + 1) l = layout digit n l ++ l.filter fun a => digit a = n := by
  rw [layout, List.range_succ, List.flatMap_append, layout, List.flatMap_singleton]

lemma startOf_succ (l : List α) (d : ℕ) :
    startOf digit l (d + 1) = startOf digit l d + (l.filter fun a => digit a = d).length := by
  rw [startOf, layout_succ, List.length_append, startOf]

lemma layout_isPrefix (l : List α) {d : ℕ} (h : d ≤ n) : layout digit d l <+: layout digit n l := by
  induction n with
  | zero =>
    obtain rfl := Nat.le_zero.mp h
    exact List.prefix_rfl
  | succ n ih =>
    rcases Nat.lt_or_eq_of_le h with hlt | rfl
    · rw [layout_succ]
      exact (ih (Nat.lt_succ_iff.mp hlt)).trans (List.prefix_append _ _)
    · exact List.prefix_rfl

/-- What stands in the layout among the entries of one digit. -/
lemma layout_getElem? (l : List α) {d : ℕ} (h : d < n) {j : ℕ}
    (hj : j < (l.filter fun a => digit a = d).length) :
    (layout digit n l)[startOf digit l d + j]? = (l.filter fun a => digit a = d)[j]? := by
  obtain ⟨rest, hrest⟩ := @layout_isPrefix _ digit n l (d + 1) h
  rw [← hrest, layout_succ, List.append_assoc, startOf, List.getElem?_append_right
    (Nat.le_add_right _ _), Nat.add_sub_cancel_left, List.getElem?_append_left hj]

/-- Each place of the layout is among the entries of one digit. -/
lemma exists_digit (l : List α) {i : ℕ} (h : i < startOf digit l n) :
    ∃ d < n, ∃ j < (l.filter fun a => digit a = d).length, i = startOf digit l d + j := by
  induction n with
  | zero => exact absurd h (Nat.not_lt_zero i)
  | succ n ih =>
    rw [startOf_succ] at h
    rcases Nat.lt_or_ge i (startOf digit l n) with hlt | hge
    · obtain ⟨d, hd, j, hj, heq⟩ := ih hlt
      exact ⟨d, Nat.lt_succ_of_lt hd, j, hj, heq⟩
    · obtain ⟨j, rfl⟩ := Nat.exists_eq_add_of_le hge
      exact ⟨n, Nat.lt_succ_self n, j, by omega, rfl⟩

lemma filter_layout (l : List α) {d : ℕ} (h : d < n) :
    (layout digit n l).filter (fun a => digit a = d) = l.filter fun a => digit a = d := by
  have hother : ∀ m ≤ d, (layout digit m l).filter (fun a => digit a = d) = [] := by
    intro m hm
    rw [List.filter_eq_nil_iff]
    intro a ha had
    obtain ⟨c, hc, hac⟩ := List.mem_flatMap.mp ha
    have hlt := List.mem_range.mp hc
    have heq := of_decide_eq_true (List.mem_filter.mp hac).2
    have heq' := of_decide_eq_true had
    omega
  induction n with
  | zero => exact absurd h (Nat.not_lt_zero d)
  | succ n ih =>
    rw [layout_succ, List.filter_append]
    rcases Nat.lt_succ_iff_lt_or_eq.mp h with hlt | rfl
    · have hnone : (l.filter fun a => digit a = n).filter (fun a => digit a = d) = [] := by
        rw [List.filter_eq_nil_iff]
        intro a ha had
        have heq := of_decide_eq_true (List.mem_filter.mp ha).2
        have heq' := of_decide_eq_true had
        omega
      rw [ih hlt, hnone, List.append_nil]
    · rw [hother d le_rfl, List.nil_append, List.filter_filter]
      exact List.filter_congr fun a _ => Bool.and_self _

lemma perm_layout {l : List α} (h : ∀ a ∈ l, digit a < n) : (layout digit n l).Perm l := by
  classical
  rw [List.perm_iff_count]
  intro a
  by_cases hlt : digit a < n
  · have hcount : ∀ m : List α, m.count a = (m.filter fun b => digit b = digit a).count a := by
      intro m
      rw [List.count_filter (by simp)]
    rw [hcount, filter_layout l hlt, ← hcount]
  · have hout : a ∉ layout digit n l := by
      intro ha
      obtain ⟨c, hc, hac⟩ := List.mem_flatMap.mp ha
      have heq := of_decide_eq_true (List.mem_filter.mp hac).2
      exact hlt (heq ▸ List.mem_range.mp hc)
    have hout' : a ∉ l := fun ha => hlt (h a ha)
    rw [List.count_eq_zero_of_not_mem hout, List.count_eq_zero_of_not_mem hout']

lemma pairwise_layout {r r' : α → α → Prop} (hl : l.Pairwise r)
    (hsame : ∀ a b, digit a = digit b → r a b → r' a b)
    (hdigit : ∀ a b, digit a < digit b → r' a b) : (layout digit n l).Pairwise r' := by
  induction n with
  | zero => exact List.Pairwise.nil
  | succ n ih =>
    rw [layout_succ, List.pairwise_append]
    refine ⟨ih, ?_, ?_⟩
    · apply (hl.filter _).imp_of_mem
      intro a b ha hb hab
      have hna := of_decide_eq_true (List.mem_filter.mp ha).2
      have hnb := of_decide_eq_true (List.mem_filter.mp hb).2
      exact hsame a b (hna.trans hnb.symm) hab
    · intro a ha b hb
      obtain ⟨c, hc, hac⟩ := List.mem_flatMap.mp ha
      have hlt := List.mem_range.mp hc
      have hca := of_decide_eq_true (List.mem_filter.mp hac).2
      have hcb := of_decide_eq_true (List.mem_filter.mp hb).2
      exact hdigit a b (by omega)

/-- A key made of a digit and a lower key is one of each. -/
lemma decide_full {low full : α → ℕ} {b : ℕ} (hfull : ∀ a, full a = digit a * b + low a)
    (hlow : ∀ a, low a < b) (k : ℕ) (a : α) :
    decide (full a = k) = (decide (low a = k % b) && decide (digit a = k / b)) := by
  have hpos : 0 < b := lt_of_le_of_lt (Nat.zero_le _) (hlow a)
  have hdiv : full a / b = digit a := by
    rw [hfull, Nat.mul_comm, Nat.mul_add_div hpos, Nat.div_eq_of_lt (hlow a), Nat.add_zero]
  have hmod : full a % b = low a := by
    rw [hfull, Nat.mul_add_mod_self_right, Nat.mod_eq_of_lt (hlow a)]
  rw [Bool.eq_iff_iff, Bool.and_eq_true, decide_eq_true_eq, decide_eq_true_eq, decide_eq_true_eq]
  constructor
  · rintro rfl
    exact ⟨hmod.symm, hdiv.symm⟩
  · rintro ⟨hl, hd⟩
    rw [hfull, hl, hd, Nat.mul_comm]
    exact Nat.div_add_mod k b

/-- A list sorted by the key below a digit, laid out by the digit, is sorted by both. -/
theorem sorted_layout {low full : α → ℕ} {b : ℕ} (hfull : ∀ a, full a = digit a * b + low a)
    (hlow : ∀ a, low a < b) (hdigit : ∀ a ∈ l', digit a < n) (h : Sorted low l l') :
    Sorted full l (layout digit n l') where
  perm := (perm_layout hdigit).trans h.perm
  kept k := by
    have hsplit : ∀ m : List α, m.filter (fun a => full a = k) =
        (m.filter fun a => digit a = k / b).filter fun a => low a = k % b := by
      intro m
      rw [List.filter_filter]
      exact List.filter_congr fun a _ => decide_full hfull hlow k a
    have hswap : ∀ m : List α,
        (m.filter fun a => digit a = k / b).filter (fun a => low a = k % b) =
          (m.filter fun a => low a = k % b).filter fun a => digit a = k / b := by
      intro m
      rw [List.filter_filter, List.filter_filter]
      exact List.filter_congr fun a _ => Bool.and_comm _ _
    rw [hsplit, hsplit]
    have hkept : (layout digit n l').filter (fun a => digit a = k / b) =
        l'.filter fun a => digit a = k / b := by
      by_cases hk : k / b < n
      · exact filter_layout l' hk
      · have hnone : ∀ m : List α, (∀ a ∈ m, a ∈ l') →
            m.filter (fun a => digit a = k / b) = [] := by
          intro m hm
          rw [List.filter_eq_nil_iff]
          intro a ha had
          have hlt := hdigit a (hm a ha)
          rw [of_decide_eq_true had] at hlt
          exact hk hlt
        rw [hnone _ fun a ha => (perm_layout hdigit).mem_iff.mp ha, hnone _ fun a ha => ha]
    rw [hkept, hswap, h.kept, ← hswap]
  ordered := by
    apply pairwise_layout h.ordered
    · intro a c hac hle
      rw [hfull, hfull, hac]
      exact Nat.add_le_add_left hle _
    · intro a c hac
      have hmul : (digit a + 1) * b ≤ digit c * b := Nat.mul_le_mul_right b hac
      have hla := hlow a
      rw [Nat.add_mul, Nat.one_mul] at hmul
      rw [hfull, hfull]
      omega

/-- A digit all entries share is no part of the order. -/
lemma Sorted.shared {low full : α → ℕ} {b d : ℕ} (hfull : ∀ a ∈ l, full a = d * b + low a)
    (h : Sorted low l l') : Sorted full l l' where
  perm := h.perm
  kept k := by
    have hsplit : ∀ m : List α, (∀ a ∈ m, a ∈ l) → m.filter (fun a => full a = k) =
        m.filter fun a => decide (d * b ≤ k) && decide (low a = k - d * b) := by
      intro m hm
      apply List.filter_congr
      intro a ha
      have heq := hfull a (hm a ha)
      rw [Bool.eq_iff_iff, Bool.and_eq_true, decide_eq_true_eq, decide_eq_true_eq,
        decide_eq_true_eq]
      omega
    rw [hsplit l' fun a ha => h.perm.mem_iff.mp ha, hsplit l fun a ha => ha]
    by_cases hk : d * b ≤ k
    · simp only [hk, decide_true, Bool.true_and]
      exact h.kept _
    · simp [hk]
  ordered := by
    apply h.ordered.imp_of_mem
    intro a c ha hc hle
    rw [hfull a (h.perm.mem_iff.mp ha), hfull c (h.perm.mem_iff.mp hc)]
    exact Nat.add_le_add_left hle _

end StableSort
