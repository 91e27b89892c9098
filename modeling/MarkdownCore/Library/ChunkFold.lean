import Mathlib.Data.List.TakeWhile
import Mathlib.Data.Nat.Basic

/-!
# Folds by chunks

A list is folded in chunks of one size. A mark is what the list folds to through a chunk, so a fold
of the list's first entries may go on from the last mark before their end. A pass is a value and
what a chunk folds it to, so a fold that comes to the chunk with that value may step over it. When
the list changes, the marks and the passes of the chunks it still holds stand.
-/

namespace ChunkFold

variable {κ α : Type*} (step : κ → α → κ) (size : ℕ)

/-- The entries of a chunk. -/
def chunk (xs : List α) (c : ℕ) : List α := (xs.drop (c * size)).take size

/-- Each mark is what the entries through its chunk fold to. -/
def Marked (start : κ) (xs : List α) (marks : List κ) : Prop :=
  ∀ c m, marks[c]? = some m → m = (xs.take ((c + 1) * size)).foldl step start

/-- Each pass is a value and what its chunk's entries fold it to. -/
def Passing (xs : List α) (passes : List (List (κ × κ))) : Prop :=
  ∀ c pass, passes[c]? = some pass → ∀ p ∈ pass, p.2 = (chunk size xs c).foldl step p.1

variable {step size} {start : κ} {xs ys : List α} {marks : List κ} {passes : List (List (κ × κ))}

lemma marked_nil : Marked step size start xs [] := by
  intro c m h
  cases h

lemma passing_nil : Passing step size xs [] := by
  intro c pass h
  cases h

lemma take_of_take_eq {n k : ℕ} (h : ys.take k = xs.take k) (hn : n ≤ k) :
    ys.take n = xs.take n := by
  have htake := congrArg (List.take n) h
  rwa [List.take_take, List.take_take, Nat.min_eq_left hn] at htake

/-- A fold goes on from a mark. -/
lemma Marked.resume (h : Marked step size start xs marks) {c k : ℕ} {m : κ}
    (hm : marks[c]? = some m) (hk : (c + 1) * size ≤ k) :
    ((xs.take k).drop ((c + 1) * size)).foldl step m = (xs.take k).foldl step start := by
  have hsplit : xs.take k = xs.take ((c + 1) * size) ++ (xs.take k).drop ((c + 1) * size) := by
    have htake : (xs.take k).take ((c + 1) * size) = xs.take ((c + 1) * size) := by
      rw [List.take_take, Nat.min_eq_left hk]
    rw [← htake, List.take_append_drop]
  calc ((xs.take k).drop ((c + 1) * size)).foldl step m
      = (xs.take ((c + 1) * size) ++ (xs.take k).drop ((c + 1) * size)).foldl step start := by
        rw [List.foldl_append, ← h c m hm]
    _ = (xs.take k).foldl step start := by rw [← hsplit]

/-- The next mark. -/
lemma Marked.append (h : Marked step size start xs marks) {m : κ}
    (hm : m = (xs.take ((marks.length + 1) * size)).foldl step start) :
    Marked step size start xs (marks ++ [m]) := by
  intro c m' hc
  rcases Nat.lt_trichotomy c marks.length with hlt | rfl | hgt
  · rw [List.getElem?_append_left hlt] at hc
    exact h c m' hc
  · rw [List.getElem?_append_right le_rfl, Nat.sub_self] at hc
    rw [← Option.some.inj hc]
    exact hm
  · rw [List.getElem?_eq_none (by rw [List.length_append, List.length_singleton]; exact hgt)] at hc
    cases hc

/-- The marks of the chunks before a place stand when the entries before it do. -/
lemma Marked.take (h : Marked step size start xs marks) {n k : ℕ} (hsame : ys.take k = xs.take k)
    (hn : n * size ≤ k) : Marked step size start ys (marks.take n) := by
  intro c m hc
  have hlt : c < n := by
    by_contra hle
    rw [List.getElem?_take, if_neg hle] at hc
    cases hc
  rw [List.getElem?_take_of_lt hlt] at hc
  have hle : (c + 1) * size ≤ k := (Nat.mul_le_mul_right size hlt).trans hn
  rw [take_of_take_eq hsame hle]
  exact h c m hc

/-- A chunk before a place stands when the entries before the place do. -/
lemma chunk_of_take_eq {c k : ℕ} (hsame : ys.take k = xs.take k) (hc : (c + 1) * size ≤ k) :
    chunk size ys c = chunk size xs c := by
  have htake := take_of_take_eq hsame hc
  have hdrop := congrArg (List.drop (c * size)) htake
  rw [List.drop_take, List.drop_take] at hdrop
  have hsize : (c + 1) * size - c * size = size := by
    rw [Nat.add_mul, Nat.one_mul, Nat.add_sub_cancel_left]
  rw [hsize] at hdrop
  exact hdrop

/-- A chunk past a place stands when the entries past the place do. -/
lemma chunk_of_drop_eq {c k : ℕ} (hsame : ys.drop k = xs.drop k) (hc : k ≤ c * size) :
    chunk size ys c = chunk size xs c := by
  obtain ⟨d, hd⟩ := Nat.exists_eq_add_of_le hc
  rw [chunk, chunk, hd, ← List.drop_drop, ← List.drop_drop, hsame]

/-- The passes of the chunks before a place, or past another, stand when the entries there do. -/
lemma Passing.of_stands (h : Passing step size xs passes) {passes' : List (List (κ × κ))}
    (hstands : ∀ c pass, passes'[c]? = some pass → pass ≠ [] →
      passes[c]? = some pass ∧ chunk size ys c = chunk size xs c) :
    Passing step size ys passes' := by
  intro c pass hc p hp
  obtain ⟨hpass, hchunk⟩ := hstands c pass hc (List.ne_nil_of_mem hp)
  rw [hchunk]
  exact h c pass hpass p hp

/-- One more pass of a chunk. -/
lemma Passing.set (h : Passing step size xs passes) {c : ℕ} {pass : List (κ × κ)}
    (hpass : ∀ p ∈ pass, p.2 = (chunk size xs c).foldl step p.1) :
    Passing step size xs (passes.set c pass) := by
  intro d pass' hd p hp
  by_cases hcd : c = d
  · subst hcd
    by_cases hlt : c < passes.length
    · rw [List.getElem?_set_self hlt] at hd
      rw [← Option.some.inj hd] at hp
      exact hpass p hp
    · rw [List.getElem?_eq_none (by rw [List.length_set]; exact not_lt.mp hlt)] at hd
      cases hd
  · rw [List.getElem?_set_ne hcd] at hd
    exact h d pass' hd p hp

/-- Chunks of no pass. -/
lemma Passing.append_replicate (h : Passing step size xs passes) (n : ℕ) :
    Passing step size xs (passes ++ List.replicate n []) := by
  intro c pass hc p hp
  by_cases hlt : c < passes.length
  · rw [List.getElem?_append_left hlt] at hc
    exact h c pass hc p hp
  · rw [List.getElem?_append_right (not_lt.mp hlt)] at hc
    have hnil : pass = [] := List.eq_of_mem_replicate (List.mem_of_getElem? hc)
    rw [hnil] at hp
    cases hp

end ChunkFold
