import MarkdownCore.Attributes.Read

/-!
# A text cut off

A reader that is given the end of a container reads the text cut off there. What it scans for
stands in the cut text where it stands in the whole one, or the text's end stands for it.
-/

namespace MarkdownCore.Attributes

open Inline

variable {data : List UInt8} {pos stop : ℕ}

lemma length_cut (hstop : stop ≤ data.length) : (data.take stop).length = stop :=
  List.length_take_of_le hstop

lemma length_takeWhile_take (p : UInt8 → Bool) : ∀ (l : List UInt8) (n : ℕ),
    ((l.take n).takeWhile p).length = min (l.takeWhile p).length n := by
  intro l
  induction l with
  | nil => simp
  | cons c l ih =>
    intro n
    cases n with
    | zero => simp
    | succ n =>
      rw [List.take_succ_cons, List.takeWhile_cons, List.takeWhile_cons]
      split
      · rw [List.length_cons, List.length_cons, ih]
        omega
      · simp

lemma width_cut (p : UInt8 → Bool) (pos : ℕ) :
    width p (data.take stop) pos = min (width p data pos) (stop - pos) := by
  rw [width, width, List.drop_take, length_takeWhile_take]

lemma scanName_cut (hle : pos ≤ stop) :
    scanName (data.take stop) pos = min (scanName data pos) stop := by
  unfold scanName
  rw [width_cut]
  omega

lemma memberBoundary_cut (hstop : stop ≤ data.length) (hlt : pos < stop) :
    memberBoundary (data.take stop) pos = memberBoundary data pos := by
  have hdata : pos < data.length := Nat.lt_of_lt_of_le hlt hstop
  rw [memberBoundary, memberBoundary, length_cut hstop, byteAt_take hlt]
  simp [Nat.not_le.mpr hlt, Nat.not_le.mpr hdata]

lemma escaped_cut (hstop : stop ≤ data.length) (h : pos + 1 < stop) :
    escaped (data.take stop) pos = escaped data pos := by
  have hlt : pos + 1 < data.length := Nat.lt_of_lt_of_le h hstop
  rw [escaped, escaped, byteAt_take (Nat.lt_of_succ_lt h), byteAt_take h, length_cut hstop]
  simp [h, hlt]

lemma escaped_cut_last (hstop : stop ≤ data.length) (h : stop ≤ pos + 1) :
    escaped (data.take stop) pos = false := by
  rw [escaped, length_cut hstop]
  simp [Nat.not_lt.mpr h]

/-- An escape is two bytes wide in both texts, or ends behind the cut. -/
lemma escape_width_cut (hstop : stop ≤ data.length) (h : pos < stop) :
    (if escaped (data.take stop) pos then 2 else 1) = (if escaped data pos then 2 else 1) ∨
      (stop ≤ pos + (if escaped (data.take stop) pos then 2 else 1) ∧
        stop ≤ pos + (if escaped data pos then 2 else 1)) := by
  rcases Nat.lt_or_ge (pos + 1) stop with hlt | hge
  · left
    rw [escaped_cut hstop hlt]
  · right
    constructor <;> split <;> omega

lemma plainUnits_cut (hstop : stop ≤ data.length) (quote : UInt8) (pos : ℕ) :
    (plainUnits (data.take stop) quote).search stop pos =
      ((plainUnits data quote).search data.length pos).filter (fun found => found < stop) := by
  rw [← Scanner.search_shorter _ hstop]
  apply Scanner.search_congr
  · intro pos hlt
    simp only [plainUnits, byteAt_take hlt]
  · exact fun pos hlt => escape_width_cut hstop hlt

lemma unquotedUnits_cut (hstop : stop ≤ data.length) (pos : ℕ) :
    (unquotedUnits (data.take stop)).search stop pos =
      ((unquotedUnits data).search data.length pos).filter (fun found => found < stop) := by
  rw [← Scanner.search_shorter _ hstop]
  apply Scanner.search_congr
  · intro pos hlt
    simp only [unquotedUnits, byteAt_take hlt]
  · exact fun pos hlt => escape_width_cut hstop hlt

lemma unquotedStop_cut (hstop : stop ≤ data.length) (pos : ℕ) :
    unquotedStop (data.take stop) pos = min (unquotedStop data pos) stop := by
  rw [unquotedStop, unquotedStop, length_cut hstop, unquotedUnits_cut hstop]
  cases hsearch : (unquotedUnits data).search data.length pos with
  | none => simp [hstop]
  | some found =>
    rw [Option.getD_some]
    by_cases hlt : found < stop
    · rw [Option.filter_some_pos (by simpa using hlt), Option.getD_some, min_eq_left hlt.le]
    · rw [Option.filter_some_neg (by simpa using hlt), Option.getD_none,
        min_eq_right (Nat.not_lt.mp hlt)]

end MarkdownCore.Attributes
