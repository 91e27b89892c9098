import Mathlib.Data.List.TakeWhile
import Mathlib.Tactic.Common

/-!
# The content of a run of inlines

The bytes an inline state reads, out of which the NUL bytes have been taken before, and the
loops that run over them while a byte answers to a test.
-/

namespace MarkdownCore.Inline

/-- The input of an inline state. -/
structure Content where
  data : List UInt8
  clean : 0 ∉ data

/-- The byte at a position; behind the last one stands the NUL the buffer ends with. -/
def byteAt (data : List UInt8) (pos : ℕ) : UInt8 := data.getD pos 0

/-- How many bytes from `pos` on answer to a test, without a break. -/
def width (p : UInt8 → Bool) (data : List UInt8) (pos : ℕ) : ℕ :=
  ((data.drop pos).takeWhile p).length

lemma width_le (p : UInt8 → Bool) (data : List UInt8) (pos : ℕ) :
    width p data pos ≤ data.length - pos := by
  have h := (List.takeWhile_sublist p (l := data.drop pos)).length_le
  simpa [width] using h

/-- The loop cuts what lies ahead in two: what it passes and what it leaves. -/
lemma getElem?_span (p : UInt8 → Bool) (data : List UInt8) (pos i : ℕ) :
    data[pos + i]? = ((data.drop pos).takeWhile p ++ (data.drop pos).dropWhile p)[i]? := by
  rw [List.takeWhile_append_dropWhile, List.getElem?_drop]

/-- Every byte the loop passes answers to the test. -/
lemma width_holds (p : UInt8 → Bool) (data : List UInt8) (pos i : ℕ)
    (h : i < width p data pos) : ∃ c, data[pos + i]? = some c ∧ p c = true := by
  have h' : i < ((data.drop pos).takeWhile p).length := h
  refine ⟨((data.drop pos).takeWhile p)[i], ?_, ?_⟩
  · rw [getElem?_span p, List.getElem?_append_left h', List.getElem?_eq_getElem h']
  · exact List.mem_takeWhile_imp (List.getElem_mem h')

/-- The byte at which the loop stops does not. -/
lemma width_stops (p : UInt8 → Bool) (data : List UInt8) (pos : ℕ) {c : UInt8}
    (h : data[pos + width p data pos]? = some c) : p c = false := by
  rw [getElem?_span p, width, List.getElem?_append_right le_rfl, Nat.sub_self] at h
  cases hrest : (data.drop pos).dropWhile p with
  | nil => simp [hrest] at h
  | cons d rest =>
    rw [hrest] at h
    obtain rfl : d = c := by simpa using h
    have hne := List.head_dropWhile_not p (l := data.drop pos) (by simp [hrest])
    simpa [hrest] using hne

/-- The loop has passed a byte when the first one answers to the test. -/
lemma width_pos (p : UInt8 → Bool) {data : List UInt8} {pos : ℕ} {c : UInt8}
    (h : data[pos]? = some c) (hc : p c = true) : 0 < width p data pos := by
  rcases Nat.eq_zero_or_pos (width p data pos) with hzero | hpos
  · have hstop := width_stops p data pos (c := c) (by rw [hzero]; exact h)
    simp [hc] at hstop
  · exact hpos

lemma byteAt_of_getElem? {data : List UInt8} {pos : ℕ} {c : UInt8} (h : data[pos]? = some c) :
    byteAt data pos = c := by
  rw [byteAt, List.getD_eq_getElem?_getD, h]
  rfl

lemma byteAt_eq_getElem {data : List UInt8} {pos : ℕ} (h : pos < data.length) :
    byteAt data pos = data[pos] := byteAt_of_getElem? (List.getElem?_eq_getElem h)

lemma byteAt_append_left {data more : List UInt8} {pos : ℕ} (h : pos < data.length) :
    byteAt (data ++ more) pos = byteAt data pos := by
  rw [byteAt, byteAt, List.getD_eq_getElem?_getD, List.getD_eq_getElem?_getD,
    List.getElem?_append_left h]

lemma byteAt_take {data : List UInt8} {pos stop : ℕ} (h : pos < stop) :
    byteAt (data.take stop) pos = byteAt data pos := by
  rw [byteAt, byteAt, List.getD_eq_getElem?_getD, List.getD_eq_getElem?_getD,
    List.getElem?_take_of_lt h]

lemma byteAt_drop (data : List UInt8) (start pos : ℕ) :
    byteAt (data.drop start) pos = byteAt data (start + pos) := by
  rw [byteAt, byteAt, List.getD_eq_getElem?_getD, List.getD_eq_getElem?_getD,
    List.getElem?_drop]

lemma byteAt_of_length_le {data : List UInt8} {pos : ℕ} (h : data.length ≤ pos) :
    byteAt data pos = 0 := by
  rw [byteAt, List.getD_eq_getElem?_getD, List.getElem?_eq_none h]
  rfl

/-- A byte that is not NUL is in the text. -/
lemma lt_of_byteAt {data : List UInt8} {pos : ℕ} {c : UInt8} (h : byteAt data pos = c)
    (hc : c ≠ 0) : pos < data.length := by
  by_contra hcon
  rw [byteAt_of_length_le (Nat.not_lt.mp hcon)] at h
  exact hc h.symm

lemma width_byteAt (p : UInt8 → Bool) {data : List UInt8} {pos k : ℕ} (hle : pos ≤ k)
    (hlt : k < pos + width p data pos) : k < data.length ∧ p (byteAt data k) = true := by
  obtain ⟨i, rfl⟩ := Nat.exists_eq_add_of_le hle
  obtain ⟨c, hc, hp⟩ := width_holds p data pos i (by omega)
  rw [byteAt_of_getElem? hc]
  exact ⟨(List.getElem?_eq_some_iff.mp hc).1, hp⟩

lemma width_stops_byteAt (p : UInt8 → Bool) {data : List UInt8} {pos : ℕ}
    (hlt : pos + width p data pos < data.length) :
    p (byteAt data (pos + width p data pos)) = false := by
  have hc := List.getElem?_eq_getElem hlt
  rw [byteAt_of_getElem? hc]
  exact width_stops p data pos hc

lemma width_byteAt_pos (p : UInt8 → Bool) {data : List UInt8} {pos : ℕ} (hlt : pos < data.length)
    (h : p (byteAt data pos) = true) : 0 < width p data pos := by
  have hc := List.getElem?_eq_getElem hlt
  rw [byteAt_of_getElem? hc] at h
  exact width_pos p hc h

/-- A run that answers to the test up to a byte that does not is the whole of the loop. -/
lemma width_eq (p : UInt8 → Bool) {data : List UInt8} {pos w : ℕ}
    (hrun : ∀ k, pos ≤ k → k < pos + w → p (byteAt data k) = true) (hlt : pos + w < data.length)
    (hstop : p (byteAt data (pos + w)) = false) : width p data pos = w := by
  rcases lt_trichotomy (width p data pos) w with h | h | h
  · have hin : pos + width p data pos < data.length := by omega
    have hbyte := width_stops_byteAt p hin
    rw [hrun _ (Nat.le_add_right _ _) (Nat.add_lt_add_left h pos)] at hbyte
    cases hbyte
  · exact h
  · have hbyte := (width_byteAt p (Nat.le_add_right pos w) (Nat.add_lt_add_left h pos)).2
    rw [hstop] at hbyte
    cases hbyte

end MarkdownCore.Inline
