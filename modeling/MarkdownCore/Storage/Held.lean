import MarkdownCore.Storage.AheadRun

/-!
# What a row of cells holds

A list stands in a row of cells from a place on (`Held`). A copy puts what its source held where it
was copied to and leaves every cell outside there as it was (`Copied`), so what a row holds after
several copies is read off the places they were made at.
-/

namespace MarkdownCore.Storage

variable {α : Type*}

/-- The list's elements stand in the cells from `start` on. -/
def Held (cells : Cells α) (start : ℕ) (l : List α) : Prop :=
  ∀ k < l.length, cells[start + k]? = some l[k]?

namespace Held

variable {cells cells' : Cells α} {start : ℕ} {l m : List α}

@[simp] lemma nil : Held cells start ([] : List α) := by
  intro k hk
  simp at hk

lemma append_iff : Held cells start (l ++ m) ↔ Held cells start l ∧ Held cells (start + l.length) m := by
  constructor
  · intro h
    constructor
    · intro k hk
      rw [h k (by simp; omega), List.getElem?_append_left hk]
    · intro k hk
      have hjoin := h (l.length + k) (by simp; omega)
      rw [List.getElem?_append_right (by omega), Nat.add_sub_cancel_left] at hjoin
      rwa [Nat.add_assoc]
  · rintro ⟨hl, hm⟩ k hk
    rw [List.length_append] at hk
    rcases Nat.lt_or_ge k l.length with hlt | hge
    · rw [List.getElem?_append_left hlt, hl k hlt]
    · have hright := hm (k - l.length) (by omega)
      rw [List.getElem?_append_right hge, ← hright]
      congr 1
      omega

lemma take (h : Held cells start l) (n : ℕ) : Held cells start (l.take n) := by
  rw [← List.take_append_drop n l] at h
  exact (append_iff.mp h).1

lemma drop (h : Held cells start l) {n : ℕ} (hn : n ≤ l.length) :
    Held cells (start + n) (l.drop n) := by
  rw [← List.take_append_drop n l] at h
  have hdrop := (append_iff.mp h).2
  rwa [List.length_take_of_le hn] at hdrop

/-- A list of one element. -/
lemma singleton_iff {a : α} : Held cells start [a] ↔ cells[start]? = some (some a) := by
  constructor
  · intro h
    simpa using h 0 (by simp)
  · intro h k hk
    have hk : k = 0 := by simpa using hk
    simp [hk, h]

/-- A row holds what another row holds there. -/
lemma congr (h : Held cells start l)
    (heq : ∀ j, start ≤ j → j < start + l.length → cells'[j]? = cells[j]?) :
    Held cells' start l := by
  intro k hk
  rw [heq (start + k) (by omega) (by omega), h k hk]

/-- What a row holds from a place on is what stands there. -/
lemma slice (h : Held cells start l) :
    (cells.drop start).take l.length = l.map some := by
  apply List.ext_getElem?
  intro k
  rcases Nat.lt_or_ge k l.length with hlt | hge
  · rw [List.getElem?_take_of_lt hlt, List.getElem?_drop, h k hlt, List.getElem?_map,
      List.getElem?_eq_getElem hlt]
    rfl
  · rw [List.getElem?_eq_none (by simp; omega), List.getElem?_eq_none (by simpa using hge)]

end Held

/-! ### Copies -/

/-- `out` is `dst` with `n` cells of `src` from `start` copied over it from `at'` on. -/
structure Copied (dst : Cells α) (at' : ℕ) (src : Cells α) (start n : ℕ) (out : Cells α) : Prop where
  length_eq : out.length = dst.length
  inside : ∀ k < n, out[at' + k]? = src[start + k]?
  outside : ∀ j, j < at' ∨ at' + n ≤ j → out[j]? = dst[j]?

lemma copyCells_copied (dst src : Cells α) (at' start n : ℕ) (hdst : at' + n ≤ dst.length)
    (hsrc : start + n ≤ src.length) :
    ∃ out, copyCells dst at' src start n = some out ∧ Copied dst at' src start n out := by
  refine ⟨_, copyCells_eq hdst hsrc, ⟨length_copied hdst hsrc, ?_, ?_⟩⟩
  · intro k hk
    have hfront : (dst.take at').length = at' := List.length_take_of_le (by omega)
    rw [List.append_assoc, List.getElem?_append_right (by omega), hfront, Nat.add_sub_cancel_left,
      List.getElem?_append_left (by simp; omega), List.getElem?_take_of_lt hk, List.getElem?_drop]
  · intro j hj
    rcases Nat.lt_or_ge j at' with hlt | hge
    · rw [List.append_assoc, List.getElem?_append_left (by simp; omega),
        List.getElem?_take_of_lt hlt]
    · rw [List.getElem?_append_right (by simp; omega), List.getElem?_drop]
      congr 1
      simp
      omega

lemma writeCells_copied (dst : Cells α) (at' : ℕ) (a : α) (hdst : at' < dst.length) :
    ∃ out, writeCells dst at' [a] = some out ∧ out.length = dst.length ∧
      out[at']? = some (some a) ∧ ∀ j ≠ at', out[j]? = dst[j]? := by
  obtain ⟨out, hout, hcopied⟩ := copyCells_copied dst [some a] at' 0 1 hdst le_rfl
  refine ⟨out, hout, hcopied.length_eq, ?_, ?_⟩
  · simpa using hcopied.inside 0 Nat.one_pos
  · intro j hj
    exact hcopied.outside j (by omega)

namespace Copied

variable {dst src out : Cells α} {at' start n i : ℕ} {l : List α}

/-- What the source held stands where it was copied to. -/
lemma held (h : Copied dst at' src start n out) (hl : Held src start l) (hn : l.length ≤ n) :
    Held out at' l := by
  intro k hk
  rw [h.inside k (by omega), hl k hk]

/-- What the row held outside stands as it did. -/
lemma kept (h : Copied dst at' src start n out) (hl : Held dst i l)
    (hapart : i + l.length ≤ at' ∨ at' + n ≤ i) : Held out i l :=
  hl.congr fun j hge hlt => h.outside j (by omega)

end Copied

end MarkdownCore.Storage
