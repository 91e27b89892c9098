import Mathlib.Data.List.GetD
import Mathlib.Data.Nat.Basic

/-!
# Merging from the back

An array whose first entries are in order takes the entries of a second list, which are in order
too, in the places past them. The merge writes from the last place down, so that no entry is
written over before it is read, and ends where the second list is used up: no entry before that
place has moved (`Merged.take`).
-/

namespace Merge

variable {α : Type*} [Inhabited α] (key : α → ℕ) (room : List α)

/-- Write the places before `at'` from the last down: the array's entries before `left` and those
of `room` before `right`, the greater last. With the array, the place the merge ended at. -/
def fromBack : ℕ → ℕ → ℕ → List α → List α × ℕ
  | at' + 1, left, right + 1, l =>
    if 0 < left ∧ key (room.getD right default) < key (l.getD (left - 1) default) then
      fromBack at' (left - 1) (right + 1) (l.set at' (l.getD (left - 1) default))
    else fromBack at' left right (l.set at' (room.getD right default))
  | at', _, _, l => (l, at')

variable {key room}

/-- The entries are in order of their keys. -/
def InOrder (key : α → ℕ) (l : List α) : Prop := l.Pairwise fun a b => key a ≤ key b

omit [Inhabited α] in
instance (key : α → ℕ) (l : List α) : Decidable (InOrder key l) :=
  inferInstanceAs (Decidable (l.Pairwise fun a b => key a ≤ key b))

omit [Inhabited α] in
lemma drop_set_self {l : List α} {n : ℕ} (hn : n < l.length) (a : α) :
    (l.set n a).drop n = a :: l.drop (n + 1) := by
  rw [List.set_eq_take_append_cons_drop, if_pos hn]
  exact List.drop_left' (List.length_take_of_le (le_of_lt hn))

lemma take_succ_getD {l : List α} {n : ℕ} (hn : n < l.length) :
    l.take (n + 1) = l.take n ++ [l.getD n default] := by
  rw [List.take_add_one, List.getElem?_eq_getElem hn, List.getD_eq_getElem l default hn]
  rfl

/-- Where the merge stands: what it has written is in order, and no entry still to write comes
after it. -/
structure Merging (key : α → ℕ) (room : List α) (at' left right : ℕ) (l : List α) : Prop where
  place : at' = left + right
  length : at' ≤ l.length
  bound : right ≤ room.length
  front : InOrder key (l.take left)
  rest : InOrder key (room.take right)
  written : InOrder key (l.drop at')
  front_written : ∀ a ∈ l.take left, ∀ b ∈ l.drop at', key a ≤ key b
  rest_written : ∀ a ∈ room.take right, ∀ b ∈ l.drop at', key a ≤ key b

/-- One entry of the array goes to its place. -/
lemma Merging.left {at' left right : ℕ} {l : List α}
    (h : Merging key room (at' + 1) (left + 1) (right + 1) l)
    (hlt : key (room.getD right default) < key (l.getD left default)) :
    Merging key room at' left (right + 1) (l.set at' (l.getD left default)) := by
  have hplace := h.place
  have hat : at' < l.length := h.length
  have hleft : left < l.length := by omega
  have htake : (l.set at' (l.getD left default)).take left = l.take left :=
    List.take_set_of_le (by omega)
  have hdrop := drop_set_self hat (l.getD left default)
  have hfront := h.front
  have hcross := h.front_written
  rw [InOrder, take_succ_getD hleft, List.pairwise_append] at hfront
  rw [take_succ_getD hleft] at hcross
  have hlast : ∀ b ∈ l.drop (at' + 1), key (l.getD left default) ≤ key b :=
    hcross _ (List.mem_append_right _ (List.mem_singleton_self _))
  have hrest : ∀ a ∈ room.take (right + 1), key a ≤ key (l.getD left default) := by
    intro a ha
    have hroom := h.rest
    rw [InOrder, take_succ_getD h.bound, List.pairwise_append] at hroom
    rw [take_succ_getD h.bound] at ha
    rcases List.mem_append.mp ha with ha | ha
    · exact le_trans (hroom.2.2 a ha _ (List.mem_singleton_self _)) (le_of_lt hlt)
    · rw [List.mem_singleton.mp ha]
      exact (le_of_lt hlt)
  constructor
  · omega
  · rw [List.length_set]
    exact le_of_lt hat
  · exact h.bound
  · rw [htake]
    exact hfront.1
  · exact h.rest
  · rw [hdrop]
    exact List.pairwise_cons.mpr ⟨hlast, h.written⟩
  · rw [htake, hdrop]
    intro a ha b hb
    rcases List.mem_cons.mp hb with rfl | hb
    · exact hfront.2.2 a ha _ (List.mem_singleton_self _)
    · exact hcross a (List.mem_append_left _ ha) b hb
  · rw [hdrop]
    intro a ha b hb
    rcases List.mem_cons.mp hb with rfl | hb
    · exact hrest a ha
    · exact h.rest_written a ha b hb

/-- One entry of the second list goes to its place. -/
lemma Merging.right {at' left right : ℕ} {l : List α}
    (h : Merging key room (at' + 1) left (right + 1) l)
    (hle : 0 < left → key (l.getD (left - 1) default) ≤ key (room.getD right default)) :
    Merging key room at' left right (l.set at' (room.getD right default)) := by
  have hplace := h.place
  have hat : at' < l.length := h.length
  have htake : (l.set at' (room.getD right default)).take left = l.take left :=
    List.take_set_of_le (by omega)
  have hdrop := drop_set_self hat (room.getD right default)
  have hrest := h.rest
  have hcross := h.rest_written
  rw [InOrder, take_succ_getD h.bound, List.pairwise_append] at hrest
  rw [take_succ_getD h.bound] at hcross
  have hlast : ∀ b ∈ l.drop (at' + 1), key (room.getD right default) ≤ key b :=
    hcross _ (List.mem_append_right _ (List.mem_singleton_self _))
  have hfront : ∀ a ∈ l.take left, key a ≤ key (room.getD right default) := by
    cases left with
    | zero => simp
    | succ left =>
      intro a ha
      have hin := h.front
      have hleft : left < l.length := by omega
      rw [InOrder, take_succ_getD hleft, List.pairwise_append] at hin
      rw [take_succ_getD hleft] at ha
      have hle' := hle left.succ_pos
      rw [Nat.add_sub_cancel] at hle'
      rcases List.mem_append.mp ha with ha | ha
      · exact le_trans (hin.2.2 a ha _ (List.mem_singleton_self _)) hle'
      · rw [List.mem_singleton.mp ha]
        exact hle'
  constructor
  · omega
  · rw [List.length_set]
    exact le_of_lt hat
  · exact Nat.le_of_succ_le h.bound
  · rw [htake]
    exact h.front
  · exact hrest.1
  · rw [hdrop]
    exact List.pairwise_cons.mpr ⟨hlast, h.written⟩
  · rw [htake, hdrop]
    intro a ha b hb
    rcases List.mem_cons.mp hb with rfl | hb
    · exact hfront a ha
    · exact h.front_written a ha b hb
  · rw [hdrop]
    intro a ha b hb
    rcases List.mem_cons.mp hb with rfl | hb
    · exact hrest.2.2 a ha _ (List.mem_singleton_self _)
    · exact hcross a (List.mem_append_left _ ha) b hb

/-- What the merge leaves: the same entries, in order, those before the place it ended at as they
were. -/
structure Merged (key : α → ℕ) (room : List α) (at' left right : ℕ) (l : List α)
    (merged : List α × ℕ) : Prop where
  inOrder : InOrder key merged.1
  perm : merged.1.Perm (l.take left ++ room.take right ++ l.drop at')
  place : merged.2 ≤ left
  take : merged.1.take merged.2 = l.take merged.2

theorem fromBack_merged {at' left right : ℕ} {l : List α} (h : Merging key room at' left right l) :
    Merged key room at' left right l (fromBack key room at' left right l) := by
  induction at' generalizing left right l with
  | zero =>
    have hplace := h.place
    obtain ⟨rfl, rfl⟩ : left = 0 ∧ right = 0 := by omega
    refine ⟨h.written, ?_, le_refl 0, rfl⟩
    simp [fromBack]
  | succ at' ih =>
    cases right with
    | zero =>
      have hplace := h.place
      obtain rfl : left = at' + 1 := by omega
      refine ⟨?_, ?_, le_refl _, rfl⟩
      · have hall := List.pairwise_append.mpr ⟨h.front, h.written, h.front_written⟩
        rwa [List.take_append_drop] at hall
      · simp [fromBack]
    | succ right =>
      have hplace := h.place
      have hat : at' < l.length := h.length
      rw [fromBack]
      split
      next hcond =>
        -- the array's entry is the greater
        obtain ⟨left, rfl⟩ := Nat.exists_eq_add_of_lt hcond.1
        rw [Nat.zero_add, Nat.add_sub_cancel] at hcond ⊢
        rw [Nat.zero_add] at h hplace
        have hleft : left < l.length := by omega
        have hmerged := ih (h.left hcond.2)
        have htake : (l.set at' (l.getD left default)).take left = l.take left :=
          List.take_set_of_le (by omega)
        constructor
        · exact hmerged.inOrder
        · refine hmerged.perm.trans ?_
          rw [htake, drop_set_self hat, take_succ_getD hleft]
          refine List.perm_middle.trans ?_
          rw [List.append_assoc (l.take left), List.append_assoc, List.append_assoc]
          exact List.perm_middle.symm
        · exact Nat.le_succ_of_le hmerged.place
        · rw [hmerged.take]
          exact List.take_set_of_le (le_trans hmerged.place (by omega))
      next hcond =>
        have hle : 0 < left →
            key (l.getD (left - 1) default) ≤ key (room.getD right default) := by
          intro hpos
          exact not_lt.mp fun hlt => hcond ⟨hpos, hlt⟩
        have hmerged := ih (h.right hle)
        have htake : (l.set at' (room.getD right default)).take left = l.take left :=
          List.take_set_of_le (by omega)
        constructor
        · exact hmerged.inOrder
        · refine hmerged.perm.trans ?_
          rw [htake, drop_set_self hat, take_succ_getD h.bound]
          simp
        · exact hmerged.place
        · rw [hmerged.take]
          exact List.take_set_of_le (le_trans hmerged.place (by omega))

end Merge
