import Mathlib.Data.List.Sort

/-!
# The widest of a list

The widest entries of a list, as many as there is room for, the earlier of two as wide first. They
are kept by insertion as the list is read: an entry goes after those at least as wide, and the last
goes when there is room for no more. What is kept is what a sort of the whole list puts first
(`take_orderedInsert`), so whatever is left out comes after all of it (`kept_spec`).
-/

namespace Widest

variable {α : Type*} (width : α → ℕ)

/-- An entry goes before those it is wider than. -/
abbrev Wider (a b : α) : Prop := width b < width a

/-- The entries of a list, each put before those it is wider than. -/
def sorted (l : List α) : List α := l.foldl (fun kept a => kept.orderedInsert (Wider width) a) []

/-- Down over the last entries that pass a test. -/
def seat (p : α → Bool) (l : List α) : ℕ → ℕ
  | 0 => 0
  | n + 1 => if (l[n]?).any p then seat p l n else n + 1

variable {width}

/-- Where the entries that fail a test come first, they end where the way down over the others
does. -/
lemma seat_append {p : α → Bool} (front : List α) {back : List α}
    (hfront : ∀ a ∈ front, p a = false) (hback : ∀ a ∈ back, p a = true) {n : ℕ}
    (hn : n ≤ back.length) : seat p (front ++ back) (front.length + n) = front.length := by
  induction n with
  | zero =>
    rw [Nat.add_zero]
    cases h : front.length with
    | zero => rfl
    | succ k =>
      have hlt : k < front.length := by omega
      have hlast : (front ++ back)[k]? = some front[k] := by
        rw [List.getElem?_append_left hlt, List.getElem?_eq_getElem hlt]
      rw [seat, hlast, Option.any_some, hfront _ (List.getElem_mem hlt)]
      rfl
  | succ n ih =>
    have hlast : (front ++ back)[front.length + n]? = some back[n] := by
      rw [List.getElem?_append_right (Nat.le_add_right _ _), Nat.add_sub_cancel_left,
        List.getElem?_eq_getElem hn]
    rw [← Nat.add_assoc, seat, hlast, Option.any_some, hback _ (List.getElem_mem hn), if_pos rfl]
    exact ih (Nat.le_of_succ_le hn)

/-! ### As many as there is room for -/

/-- The first entries after an insertion are those after an insertion in the first entries. -/
lemma take_orderedInsert (r : α → α → Prop) [DecidableRel r] (a : α) (n : ℕ) (l : List α) :
    ((l.take n).orderedInsert r a).take n = (l.orderedInsert r a).take n := by
  induction n generalizing l with
  | zero => rfl
  | succ n ih =>
    cases l with
    | nil => rfl
    | cons b l =>
      rw [List.take_succ_cons, List.orderedInsert_cons, List.orderedInsert_cons]
      split
      · cases n with
        | zero => rfl
        | succ n =>
          rw [List.take_succ_cons, List.take_succ_cons, List.take_succ_cons, List.take_succ_cons,
            List.take_take, Nat.min_eq_left (Nat.le_succ n)]
      · rw [List.take_succ_cons, List.take_succ_cons, ih]

/-- The widest of a list, kept as it is read. -/
theorem foldl_take (n : ℕ) (l : List α) :
    l.foldl (fun kept a => (kept.orderedInsert (Wider width) a).take n) [] =
      (sorted width l).take n := by
  have hfold : ∀ kept : List α,
      l.foldl (fun kept a => (kept.orderedInsert (Wider width) a).take n) (kept.take n) =
        (l.foldl (fun kept a => kept.orderedInsert (Wider width) a) kept).take n := by
    induction l with
    | nil =>
      intro kept
      rfl
    | cons a l ih =>
      intro kept
      rw [List.foldl_cons, List.foldl_cons, take_orderedInsert, ih]
  have hnil := hfold []
  rwa [List.take_nil] at hnil

/-- An insertion keeps the widest first. -/
lemma descending_orderedInsert {kept : List α} (hkept : kept.Pairwise fun a b => width b ≤ width a)
    (a : α) : (kept.orderedInsert (Wider width) a).Pairwise fun a b => width b ≤ width a := by
  induction kept with
  | nil => exact List.pairwise_singleton _ _
  | cons b kept ih =>
    obtain ⟨hb, hkept'⟩ := List.pairwise_cons.mp hkept
    rw [List.orderedInsert_cons]
    split
    next hwider =>
      rw [List.pairwise_cons]
      refine ⟨?_, hkept⟩
      intro c hc
      rcases List.mem_cons.mp hc with rfl | hc
      · exact hwider.le
      · exact (hb c hc).trans hwider.le
    next hnot =>
      rw [List.pairwise_cons]
      refine ⟨?_, ih hkept'⟩
      intro c hc
      rcases (List.mem_orderedInsert _).mp hc with rfl | hc
      · exact not_lt.mp hnot
      · exact hb c hc

/-- In a list with the widest first, an entry goes between those at least as wide and the others. -/
lemma orderedInsert_split {kept : List α} (hkept : kept.Pairwise fun a b => width b ≤ width a)
    (a : α) : ∃ front back, kept = front ++ back ∧ (∀ b ∈ front, ¬ Wider width a b) ∧
      (∀ b ∈ back, Wider width a b) ∧
      kept.orderedInsert (Wider width) a = front ++ a :: back := by
  induction kept with
  | nil => exact ⟨[], [], rfl, by simp, by simp, rfl⟩
  | cons b kept ih =>
    obtain ⟨hb, hkept'⟩ := List.pairwise_cons.mp hkept
    by_cases hwider : Wider width a b
    · refine ⟨[], b :: kept, rfl, by simp, ?_, List.orderedInsert_cons_of_le _ _ hwider⟩
      intro c hc
      rcases List.mem_cons.mp hc with rfl | hc
      · exact hwider
      · exact lt_of_le_of_lt (hb c hc) hwider
    · obtain ⟨front, back, hsplit, hfront, hback, hinsert⟩ := ih hkept'
      refine ⟨b :: front, back, by rw [hsplit, List.cons_append], ?_, hback, ?_⟩
      · intro c hc
        rcases List.mem_cons.mp hc with rfl | hc
        · exact hwider
        · exact hfront c hc
      · rw [List.orderedInsert_of_not_le _ _ hwider, hinsert, List.cons_append]

/-- Its place is found from the back. -/
lemma orderedInsert_eq_seat {kept : List α} (hkept : kept.Pairwise fun a b => width b ≤ width a)
    (a : α) : kept.orderedInsert (Wider width) a =
      kept.take (seat (fun b => decide (width b < width a)) kept kept.length) ++
        a :: kept.drop (seat (fun b => decide (width b < width a)) kept kept.length) := by
  obtain ⟨front, back, hsplit, hfront, hback, hinsert⟩ := orderedInsert_split hkept a
  have hseat : seat (fun b => decide (width b < width a)) kept kept.length = front.length := by
    rw [hsplit, List.length_append]
    apply seat_append front
    · exact fun b hb => decide_eq_false (hfront b hb)
    · exact fun b hb => decide_eq_true (hback b hb)
    · exact le_rfl
  rw [hinsert, hseat, hsplit, List.take_left, List.drop_left]

/-! ### What is kept -/

lemma perm_sorted (l : List α) : (sorted width l).Perm l := by
  have hfold : ∀ kept : List α,
      (l.foldl (fun kept a => kept.orderedInsert (Wider width) a) kept).Perm (l ++ kept) := by
    induction l with
    | nil => exact fun kept => .refl kept
    | cons a l ih =>
      intro kept
      calc (l.foldl (fun kept a => kept.orderedInsert (Wider width) a)
              (kept.orderedInsert (Wider width) a)).Perm
            (l ++ kept.orderedInsert (Wider width) a) := ih _
        _ |>.Perm (l ++ a :: kept) := (List.perm_orderedInsert _ a kept).append_left l
        _ |>.Perm (a :: l ++ kept) := List.perm_middle
  have hnil := hfold []
  rwa [List.append_nil] at hnil

section

variable [Preorder α]

/-- The wider first, the earlier of two as wide first. -/
def Before (width : α → ℕ) (a b : α) : Prop := width b < width a ∨ width a = width b ∧ a < b

/-- An entry later than all goes where it stands in their order. -/
lemma pairwise_orderedInsert {kept : List α} {a : α} (hkept : kept.Pairwise (Before width))
    (ha : ∀ b ∈ kept, b < a) :
    (kept.orderedInsert (Wider width) a).Pairwise (Before width) := by
  induction kept with
  | nil => exact List.pairwise_singleton _ _
  | cons b kept ih =>
    obtain ⟨hb, hkept'⟩ := List.pairwise_cons.mp hkept
    rw [List.orderedInsert_cons]
    split
    next hwider =>
      rw [List.pairwise_cons]
      constructor
      · intro c hc
        rcases List.mem_cons.mp hc with rfl | hc
        · exact Or.inl hwider
        · rcases hb c hc with hlt | ⟨heq, -⟩
          · exact Or.inl (hlt.trans hwider)
          · exact Or.inl (heq ▸ hwider)
      · exact hkept
    next hnot =>
      rw [List.pairwise_cons]
      constructor
      · intro c hc
        rcases (List.mem_orderedInsert _).mp hc with rfl | hc
        · rcases lt_or_eq_of_le (not_lt.mp hnot) with hlt | heq
          · exact Or.inl hlt
          · exact Or.inr ⟨heq.symm, ha b List.mem_cons_self⟩
        · exact hb c hc
      · exact ih hkept' fun c hc => ha c (List.mem_cons_of_mem b hc)

lemma pairwise_sorted {l : List α} (hl : l.Pairwise (· < ·)) :
    (sorted width l).Pairwise (Before width) := by
  have hfold : ∀ kept : List α, kept.Pairwise (Before width) → (∀ b ∈ kept, ∀ a ∈ l, b < a) →
      (l.foldl (fun kept a => kept.orderedInsert (Wider width) a) kept).Pairwise
        (Before width) := by
    induction l with
    | nil => exact fun kept hkept _ => hkept
    | cons a l ih =>
      intro kept hkept hbefore
      obtain ⟨ha, hl'⟩ := List.pairwise_cons.mp hl
      apply ih hl'
      · exact pairwise_orderedInsert hkept fun b hb => hbefore b hb a List.mem_cons_self
      · intro b hb c hc
        rcases (List.mem_orderedInsert _).mp hb with rfl | hb
        · exact ha c hc
        · exact hbefore b hb c (List.mem_cons_of_mem a hc)
  exact hfold [] List.Pairwise.nil (by simp)

/-- The widest of a list in order: as many as there is room for, each before every entry left
out. -/
theorem kept_spec {l : List α} (hl : l.Pairwise (· < ·)) (n : ℕ) :
    ((sorted width l).take n).length = min n l.length ∧
      (∀ a ∈ (sorted width l).take n, a ∈ l) ∧
      ∀ a ∈ (sorted width l).take n, ∀ b ∈ l, b ∉ (sorted width l).take n → Before width a b := by
  have hperm := @perm_sorted _ width l
  refine ⟨?_, ?_, ?_⟩
  · rw [List.length_take, hperm.length_eq]
  · intro a ha
    exact hperm.mem_iff.mp (List.mem_of_mem_take ha)
  · intro a ha b hb hout
    have hpairwise := @pairwise_sorted _ width _ l hl
    have hsplit := List.take_append_drop n (sorted width l)
    rw [← hsplit] at hpairwise
    have hmem : b ∈ (sorted width l).take n ++ (sorted width l).drop n := by
      rw [hsplit]
      exact hperm.mem_iff.mpr hb
    exact (List.pairwise_append.mp hpairwise).2.2 a ha b
      ((List.mem_append.mp hmem).resolve_left hout)

end

end Widest
