import Mathlib.Algebra.Order.Ring.Nat
import MarkdownCore.Library.Zipper

/-!
# Arrays that move ahead of their growth

An array takes storage of twice its capacity once it is half full, and copies its elements there a
slice at a time as it grows on; when it is full it switches to that storage. Storage is a row of
cells, each with an element or with nothing written to it yet. An operation whose assertion fails,
or that reaches outside a row of cells, gives `none`.
-/

namespace MarkdownCore.Storage

/-- The width of an element in bytes. An element of `2 ^ 61` bytes stands in no address space. -/
structure Width where
  bytes : ℕ
  pos : 0 < bytes
  lt : bytes < 2 ^ 61

abbrev Cells (α : Type*) := List (Option α)

def sizeMax : ℕ := 2 ^ 64 - 1

/-- `MARKDOWN_CORE_AHEAD_SLICE_BYTES`. -/
def sliceBytes : ℕ := 2048

/-- `MARKDOWN_CORE_AHEAD_FIRST`. -/
def firstCapacity : ℕ := 8

/-- `markdown_core_ahead_slice`. -/
def aheadSlice (width : Width) : ℕ :=
  if width.bytes < sliceBytes then sliceBytes / width.bytes else 1

/-- `markdown_core_ahead_room`. -/
def aheadRoom (capacity count : ℕ) (width : Width) : ℕ :=
  let slice := aheadSlice width
  if capacity ≤ 2 * slice then capacity
  else if count ≤ capacity / 2 then capacity / 2
  else min (count - count % slice + slice - 1) capacity

/-- An array's storage, its room and the storage it moves to: `markdown_core_ahead` with the
`values` and the `room` its owner keeps. -/
structure Ahead (α : Type*) where
  values : Cells α
  room : ℕ
  capacity : ℕ
  next : Option (Cells α)
  moved : ℕ

/-- `MARKDOWN_CORE_ARRAY`. -/
structure Array (α : Type*) where
  ahead : Ahead α
  count : ℕ

section

variable {α : Type*} [DecidableEq α] (storage : ℕ → Bool) (width : Width)

/-- How many elements an allocation of `places` of them has room for, its bytes in 64 bits. -/
def placesOf (places : ℕ) : ℕ := places * width.bytes % 2 ^ 64 / width.bytes

/-- Fresh storage for `places` elements, when storage for its bytes can be had. -/
def take (places : ℕ) : Option (Cells α) :=
  if storage (places * width.bytes % 2 ^ 64) then
    some (List.replicate (placesOf width places) none)
  else none

/-- `markdown_core_realloc`, to storage for `places` elements. -/
def realloc (values : Cells α) (places : ℕ) : Option (Cells α) :=
  if storage (places * width.bytes % 2 ^ 64) then
    some (values.take (placesOf width places) ++
      List.replicate (placesOf width places - values.length) none)
  else none

/-- `memcpy` and `memmove`: `n` cells of `src` from `start` written over `dst` from `at'`. -/
def copyCells (dst : Cells α) (at' : ℕ) (src : Cells α) (start n : ℕ) : Option (Cells α) :=
  if at' + n ≤ dst.length ∧ start + n ≤ src.length then
    some (dst.take at' ++ (src.drop start).take n ++ dst.drop (at' + n))
  else none

/-- Elements written over cells from `at'` on. -/
def writeCells (dst : Cells α) (at' : ℕ) (elements : List α) : Option (Cells α) :=
  copyCells dst at' (elements.map some) 0 elements.length

namespace Ahead

/-- `markdown_core_ahead_copy`. -/
def copy (a : Ahead α) (held count : ℕ) : Option (Bool × Ahead α) :=
  if ¬ (a.moved ≤ held ∧ held ≤ count ∧ a.room < count ∧ count ≤ a.capacity) ∨
      ¬ (2 * aheadSlice width < a.capacity ∧ a.capacity / 2 < count) then none
  else
    let pace := 2 * (count - a.capacity / 2)
    let stop := min pace held
    if a.moved < stop ∧ aheadSlice width < held then
      let next := match a.next with
        | some next => some next
        | none =>
          if sizeMax / 2 / width.bytes < a.capacity then none
          else take storage width (2 * a.capacity)
      match next with
      | none => some (false, a)
      | some next =>
        (copyCells next a.moved a.values a.moved (stop - a.moved)).map fun next =>
          (true, { a with
            next := some next, moved := stop, room := aheadRoom a.capacity count width })
    else some (true, { a with room := aheadRoom a.capacity count width })

/-- `markdown_core_ahead_switch`. -/
def switch (a : Ahead α) (held count : ℕ) : Option (Bool × Ahead α) :=
  let larger := 2 * a.capacity
  match a.next with
  | none => none
  | some next =>
    if ¬ (a.moved ≤ held ∧ held ≤ a.capacity ∧ a.capacity < count ∧ count ≤ larger) ∨
        next.take a.moved ≠ a.values.take a.moved then none
    else
      (copyCells next a.moved a.values a.moved (held - a.moved)).map fun moved =>
        (true,
          { values := moved, room := aheadRoom larger count width, capacity := larger, next := none,
            moved := 0 })

/-- The doubling of a capacity up to a count. -/
def doubled (count : ℕ) : ℕ → ℕ → ℕ
  | 0, larger => larger
  | fuel + 1, larger => if larger < count then doubled count fuel (larger * 2) else larger

/-- `markdown_core_ahead_extend`, the storage from the allocator or, `pooled`, from a source. -/
def extend (a : Ahead α) (pooled : Bool) (held count : ℕ) : Option (Bool × Ahead α) :=
  if count ≤ a.capacity then a.copy storage width held count
  else if sizeMax / 2 / width.bytes < count then some (false, a)
  else
    let larger := doubled count 64
      (if a.capacity ≠ 0 then a.capacity else max count firstCapacity)
    if a.next.isSome ∧ larger = 2 * a.capacity then a.switch width held count
    else
      let moved := if pooled then
          (take storage width larger).map fun moved => copyCells moved 0 a.values 0 held
        else (realloc storage width a.values larger).map some
      match moved with
      | none => some (false, a)
      | some moved => moved.map fun moved =>
        (true,
          { values := moved, room := aheadRoom larger count width, capacity := larger, next := none,
            moved := 0 })

/-- `markdown_core_ahead_unsettle`. -/
def unsettle (a : Ahead α) (first : ℕ) : Ahead α := { a with moved := min a.moved first }

/-- The doubling of `markdown_core_array_fit`, and its storage. -/
def fit (a : Ahead α) (count : ℕ) : Ahead α :=
  let capacity := doubled count 64 firstCapacity
  if a.capacity ≤ capacity then a
  else
    match realloc storage width a.values capacity with
    | none => a
    | some moved =>
      { values := moved, room := aheadRoom capacity count width, capacity, next := none, moved := 0 }

end Ahead

namespace Array

/-- The array that is zeroed. -/
def empty : Array α := ⟨⟨[], 0, 0, none, 0⟩, 0⟩

/-- `markdown_core_array_reserve`. -/
def reserve (a : Array α) (total : ℕ) : Option (Bool × Array α) :=
  if total ≤ a.ahead.room then some (true, a)
  else
    (a.ahead.extend storage width false a.count total).map fun extended =>
      (decide (total ≤ extended.2.room), { a with ahead := extended.2 })

/-- An operation on an array that has room, or the array that has none. -/
def withRoom (a : Array α) (total : ℕ) (f : Array α → Option (Array α)) :
    Option (Bool × Array α) :=
  (a.reserve storage width total).bind fun reserved =>
    if reserved.1 then (f reserved.2).map fun a => (true, a) else some (false, reserved.2)

/-- Elements written over the array's cells from `at'` on, and counted up to `count`. -/
def store (a : Array α) (at' : ℕ) (elements : List α) (count : ℕ) : Option (Array α) :=
  (writeCells a.ahead.values at' elements).map fun values => ⟨{ a.ahead with values }, count⟩

/-- `markdown_core_array_append`. -/
def append (a : Array α) (elements : List α) : Option (Bool × Array α) :=
  a.withRoom storage width (a.count + elements.length) fun a =>
    a.store a.count elements (a.count + elements.length)

/-- `markdown_core_array_push`. -/
def push (a : Array α) (value : α) : Option (Bool × Array α) :=
  a.withRoom storage width (a.count + 1) fun a => a.store a.count [value] (a.count + 1)

/-- `markdown_core_array_write`, and a store there. -/
def write (a : Array α) (index : ℕ) (value : α) : Option (Array α) :=
  store { a with ahead := a.ahead.unsettle index } index [value] a.count

/-- `markdown_core_array_truncate`. -/
def truncate (a : Array α) (size : ℕ) : Array α := ⟨a.ahead.unsettle size, size⟩

/-- `markdown_core_array_shrink`. -/
def shrink (a : Array α) : Array α := { a with ahead := a.ahead.fit storage width a.count }

/-- Cells of the array moved from `start` to `at'`. -/
def moveCells (a : Array α) (at' start n : ℕ) : Option (Array α) :=
  (copyCells a.ahead.values at' a.ahead.values start n).map fun values =>
    { a with ahead := { a.ahead with values } }

/-- `session_replace`. -/
def replace (a : Array α) (first last : ℕ) (elements : List α) : Option (Bool × Array α) :=
  let rest := a.count - last
  let total := first + elements.length + rest
  a.withRoom storage width total fun a =>
    let a := { a with ahead := a.ahead.unsettle first }
    (if rest ≠ 0 ∧ elements.length ≠ last - first then
      a.moveCells (first + elements.length) last rest
    else some a).bind fun a => a.store first elements total

/-- `name##_front_erase`. -/
def frontErase (a : Array α) (index n : ℕ) : Option (Array α) :=
  (({ a with ahead := a.ahead.unsettle index } : Array α).moveCells index (index + n)
    (a.count - index - n)).map fun a => a.truncate (a.count - n)

/-- `name##_front_insert`. -/
def frontInsert (a : Array α) (index : ℕ) (entry : α) : Option (Bool × Array α) :=
  a.withRoom storage width (a.count + 1) fun a =>
    (if index < a.count then
      ({ a with ahead := a.ahead.unsettle index } : Array α).moveCells (index + 1) index
        (a.count - index)
    else some a).bind fun a => a.store index [entry] (a.count + 1)

end Array

end

end MarkdownCore.Storage
