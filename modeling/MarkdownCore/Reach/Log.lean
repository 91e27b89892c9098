import Mathlib.Algebra.Order.Ring.Int
import Mathlib.Algebra.Order.Ring.Nat
import MarkdownCore.Library.Maxima
import MarkdownCore.Library.Merge
import MarkdownCore.Library.Zipper

/-!
# The reach log

Each reading of the document that decided what starts at a place from the bytes up to another is
noted. The log is a zipper: its front takes the notes in the order the readings ran, and its back
keeps those of the old tail while an edit reads. Before an edit asks for the readings that span a
place the log is put in order of start, with the furthest end of its notes up to each.
-/

namespace MarkdownCore.Reach

/-- What a `uint32_t` keeps of a number. -/
def wrap (n : ℤ) : ℕ := (n % 2 ^ 32).toNat

/-- `markdown_core_place`: a range of the source, its places `uint32_t`. -/
structure Place where
  start : ℕ
  stop : ℕ
deriving DecidableEq, Inhabited

namespace Place

/-- `S_place_flip`. -/
@[grind =] def flip (place : Place) (size : ℕ) : Place :=
  ⟨wrap (size - place.start), wrap (size - place.stop)⟩

/-- The place moved by an edit. -/
def shift (place : Place) (delta : ℤ) : Place :=
  ⟨wrap (place.start + delta), wrap (place.stop + delta)⟩

/-- The place starts in a text of this size, and what it holds fits a `uint32_t`. -/
def Within (size : ℕ) (place : Place) : Prop :=
  place.start ≤ size ∧ size < 2 ^ 32 ∧ place.stop < 2 ^ 32

lemma flip_flip {size : ℕ} {place : Place} (h : place.Within size) :
    (place.flip size).flip size = place := by
  obtain ⟨start, stop⟩ := place
  simp only [Within] at h
  simp only [flip, wrap, mk.injEq]
  omega

lemma start_flip {size : ℕ} {place : Place} (h : place.Within size) :
    (place.flip size).start = size - place.start := by
  simp only [Within] at h
  simp only [flip, wrap]
  omega

lemma within_flip {size : ℕ} {place : Place} (h : place.Within size) :
    (place.flip size).Within size := by
  simp only [Within] at h
  simp only [Within, flip, wrap]
  omega

/-- A place measured from the end of the old text, in the terms of the new one. -/
lemma flip_flip_shift {size size' : ℕ} {place : Place} (h : place.Within size) :
    (place.flip size).flip size' = place.shift (size' - size) := by
  simp only [Within] at h
  simp only [flip, shift, wrap, mk.injEq]
  omega

end Place

/-- `S_place_start`, `S_place_flip`. -/
def places : Places Place where
  start := Place.start
  flip := Place.flip
  Within := Place.Within
  start_le h := h.1
  start_flip := Place.start_flip
  flip_flip := Place.flip_flip
  within_flip := Place.within_flip

/-- The stream's `reach`, and the edit's `furthest`, the first `furthest_count` of them. -/
structure Log where
  reach : Zipper Place
  furthest : List ℕ

/-! ### The order of the log -/

/-- `qsort` by `S_reach_order`, which leaves open the order of notes that start at one place. -/
structure Sorting where
  sort : List Place → List Place
  perm : ∀ l, (sort l).Perm l
  inOrder : ∀ l, Merge.InOrder Place.start (sort l)

/-- The loop of `S_reach_sort` that goes on while the notes are in order of start; the first
argument bounds its turns. -/
def orderedTo (log : List Place) : ℕ → ℕ → ℕ
  | 0, front => front
  | fuel + 1, front =>
    if front < log.length ∧
        (log.getD (front - 1) default).start ≤ (log.getD front default).start then
      orderedTo log fuel (front + 1)
    else front

/-- `S_reach_sort`: whether storage could be had, the log, and the first note that moved. `room`
tells whether storage for the notes to merge in can be had. -/
def reachSort (sorting : Sorting) (room : Bool) (log : List Place) (known : ℕ) :
    Bool × List Place × ℕ :=
  let front := orderedTo log log.length (if 1 < known then min known log.length else 1)
  if log.length ≤ front then (true, log, log.length)
  else
    let rest := log.length - front
    let log := if 1 < rest then log.take front ++ sorting.sort (log.drop front) else log
    if room then
      (true, Merge.fromBack Place.start (log.drop front) log.length front rest log)
    else (false, log, log.length)

namespace Log

/-- `markdown_core_parser_note_reach`, with storage for the note. -/
def note (log : Log) (start stop : ℕ) : Log :=
  { log with
    reach := { log.reach with front := log.reach.front ++ [⟨wrap start, wrap stop⟩] } }

/-- `markdown_core_array_truncate` of the log. -/
def truncate (log : Log) (count : ℕ) : Log := { log with reach := log.reach.truncate count }

/-- `S_reach_leave`. -/
def leave (log : Log) (first : ℕ) : Log :=
  { log with
    furthest := if first < log.furthest.length then log.furthest.take first else log.furthest }

/-- `S_reach_move`, with storage for it. -/
def move (log : Log) (place size : ℕ) : Log :=
  let first := log.reach.frontFrom places place
  let left := if first < log.reach.front.length then log.leave first else log
  { left with reach := log.reach.move places place size }

/-- What `S_splice` does to the log: the back's notes before `old` of the old text go, and the
rest stand where they stood from the end, which is the new text's. -/
def splice (log : Log) (old : ℕ) (delta : ℤ) : Log :=
  { log with reach := (log.reach.cut places old).resize (log.reach.size + delta).toNat }

/-- A reading that took nothing back lets the back go. -/
def release (log : Log) : Log := { log with reach := { log.reach with back := [] } }

/-- `markdown_core_parser_sort_reach`: whether storage could be had, and the log. `ends` tells
whether storage for the furthest ends can be had. -/
def sortReach (sorting : Sorting) (room ends : Bool) (log : Log) : Bool × Log :=
  match reachSort sorting room log.reach.front log.furthest.length with
  | (false, front, _) => (false, { log with reach := { log.reach with front } })
  | (true, front, moved) =>
    if ends then
      let least := min log.furthest.length moved
      let first := min least front.length
      let stop := if first = 0 then 0 else log.furthest.getD (first - 1) 0
      (true,
        { reach := { log.reach with front }
          furthest := log.furthest.take first ++
            Maxima.ends Place.stop stop (front.drop first) })
    else (false, { log with reach := { log.reach with front } })

/-! ### The questions -/

/-- Whether a note is one of the close of a child: it starts where the child does, and ends from
the first of `ends` to the second, or at the third. -/
def closes (close : ℕ) (ends : ℕ × ℕ × ℕ) (place : Place) : Bool :=
  place.start = close ∧
    (ends.1 ≤ place.stop ∧ place.stop ≤ ends.2.1 ∨ place.stop = ends.2.2)

end Log

end MarkdownCore.Reach
