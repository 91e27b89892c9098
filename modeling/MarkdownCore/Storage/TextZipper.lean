import MarkdownCore.Library.Zipper
import Mathlib.Algebra.Order.Ring.Int

/-!
# The zipper's operations

`MARKDOWN_CORE_ZIPPER_OPS`: the operations of a zipper over a text, made from what the type of its
entries gives. The back is a stack whose top is the entry nearest the focus, with each place in it
measured from the text's end, and a search of either part goes by halves.
-/

namespace MarkdownCore.Storage

/-- What an entry's type gives: `flip`, `start` and `leave`. -/
structure Interface (α ω : Type*) where
  start : α → ℕ
  /-- Each place the entry holds made the end less it, what only a front entry holds dropped. -/
  flip : α → ℕ → α
  /-- Called before the front's entries from an index on leave it or move in it. -/
  leave : ω → ℕ → ω

/-- `MARKDOWN_CORE_ZIPPER`: the back's values stand from the entry furthest from the focus on. -/
structure TextZipper (α : Type*) where
  front : List α
  back : List α
  stop : ℕ
  deriving DecidableEq

namespace TextZipper

variable {α ω : Type*} (I : Interface α ω) (z : TextZipper α)

/-- `name##_count`. -/
def count : ℕ := z.front.length + z.back.length

/-- The entry the back stores `k` from the focus. -/
def stored (k : ℕ) : Option α := if k < z.back.length then z.back[z.back.length - 1 - k]? else none

/-- `name##_back_at`. -/
def backAt (k : ℕ) : Option α := (z.stored k).map (I.flip · z.stop)

/-- `name##_back_start`. -/
def backStart (k : ℕ) : Option ℕ := (z.stored k).map fun a => z.stop - I.start a

/-- `name##_at`. -/
def entryAt (index : ℕ) : Option α :=
  if index < z.front.length then z.front[index]? else z.backAt I (index - z.front.length)

/-- `name##_start`. -/
def startAt (index : ℕ) : Option ℕ :=
  if index < z.front.length then z.front[index]?.map I.start
  else z.backStart I (index - z.front.length)

/-- `name##_back_from`. -/
def backFrom (place : ℕ) : ℕ :=
  Bisect.bisect (fun k => (z.backStart I k).any (· < place)) z.back.length 0 z.back.length

/-- `name##_front_from`. -/
def frontFrom (place : ℕ) : ℕ :=
  Bisect.bisect (fun k => (z.front[k]?).any fun a => I.start a < place)
    z.front.length 0 z.front.length

/-- `name##_from`. -/
def entryFrom (place : ℕ) : ℕ :=
  if z.back.length ≠ 0 ∧ (z.backStart I 0).any (· < place) then
    z.front.length + z.backFrom I place
  else z.frontFrom I place

/-- `name##_truncate`. -/
def truncate (first : ℕ) (self : ω) : TextZipper α × ω :=
  if first < z.front.length then ({ z with front := z.front.take first }, I.leave self first)
  else (z, self)

/-- The front's entries from the last of `i` down to `first` pushed on the back. -/
def pushed (front : List α) (first size : ℕ) : ℕ → List α → List α
  | 0, back => back
  | i + 1, back =>
    if first ≤ i then
      pushed front first size i (back ++ (front[i]?).toList.map (I.flip · size))
    else back

/-- As many entries popped from the back, each put at the front's end. -/
def popped (size : ℕ) : ℕ → List α → List α → List α × List α
  | 0, front, back => (front, back)
  | taken + 1, front, back =>
    popped size taken (front ++ (back.getLast?).toList.map (I.flip · size)) back.dropLast

/-- `name##_move`, the room for it (`name##_ready`) had or not. -/
def move (place size : ℕ) (room : Bool) (self : ω) : Bool × TextZipper α × ω :=
  if room = false then (false, z, self)
  else
    let turned := { z with stop := size }
    let first := turned.frontFrom I place
    let taken := if turned.back.length ≠ 0 then turned.backFrom I place else 0
    let leaves : Bool := first < z.front.length
    let front := if leaves then z.front.take first else z.front
    let back := if leaves then pushed I z.front first size z.front.length z.back else z.back
    let parts := popped I size taken front back
    (true, ⟨parts.1, parts.2, size⟩, if leaves then I.leave self first else self)

/-- `name##_cut`. -/
def cut (place : ℕ) : ℕ × TextZipper α :=
  let gone := z.backFrom I place
  (gone, { z with back := z.back.take (z.back.length - gone) })

/-- What an edit does after its cut: the text's end moves by how much the edit grows the text. -/
def grow (delta : ℤ) : TextZipper α := { z with stop := (z.stop + delta).toNat }

/-- `name##_front_erase`. -/
def frontErase (index n : ℕ) (self : ω) : TextZipper α × ω :=
  ({ z with front := z.front.take index ++ z.front.drop (index + n) }, I.leave self index)

/-- `name##_front_insert`, the room for it had or not. -/
def frontInsert (index : ℕ) (entry : α) (room : Bool) (self : ω) : Bool × TextZipper α × ω :=
  if room = false then (false, z, self)
  else
    (true, { z with front := z.front.take index ++ entry :: z.front.drop index },
      if index < z.front.length then I.leave self index else self)

/-- `name##_back_remove`. -/
def backRemove (k : ℕ) : TextZipper α :=
  let at' := z.back.length - 1 - k
  { z with back := z.back.take at' ++ z.back.drop (at' + 1) }

/-- The back's entries from the focus on, in the text's terms. -/
def rest : List α := z.back.reverse.map (I.flip · z.stop)

/-- The entries, in the text's terms. -/
def entries : List α := z.front ++ z.rest I

end TextZipper

/-! ### The entries' types -/

/-- `markdown_core_input_line`. -/
structure InputLine where
  start : ℕ
  stop : ℕ
  facts : ℕ
  own : Bool
  deriving DecidableEq

/-- `S_line_flip`, `S_line_start`: a line in the back has no facts. -/
def linesInterface {ω : Type*} (leave : ω → ℕ → ω) : Interface InputLine ω where
  start := InputLine.start
  flip line size := ⟨size - line.start, size - line.stop, 0, line.own⟩
  leave := leave

/-- `S_place_flip`, `S_place_start` of the reach log: a place of the text, as start and end. -/
def reachInterface {ω : Type*} (leave : ω → ℕ → ω) : Interface (ℕ × ℕ) ω where
  start := Prod.fst
  flip place size := (size - place.1, size - place.2)
  leave := leave

/-- An entry whose one place is where it starts, what else it holds being the same in both parts:
`S_use_flip`, `listed_entry_flip`, `heading_flip`, `stem_flip` and `S_place_flip` of a roster. -/
def startsInterface (β : Type*) {ω : Type*} (leave : ω → ℕ → ω) : Interface (ℕ × β) ω where
  start := Prod.fst
  flip entry size := (size - entry.1, entry.2)
  leave := leave

end MarkdownCore.Storage
