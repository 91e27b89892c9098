import MarkdownCore.Library.StableSort

/-!
# The label sort

A definition is entered by its label. The label's first eight bytes order two labels whose first
eight differ, and its length or the bytes past the eighth the others. The entries' runs, which are
in order as they come, are merged two by two from one array into the other until one run holds
them all. A read or a write outside an array gives `none`.
-/

namespace MarkdownCore.Order

/-- `markdown_core_key_head`. -/
def keyHead (key : List UInt8) : ℕ :=
  let bytes := if key.length < 8 then key.length else 8
  let head := (key.take bytes).foldl (fun head byte => (head <<< 8 ||| byte.toNat) % 2 ^ 64) 0
  if bytes ≠ 0 then head <<< (8 * (8 - bytes)) % 2 ^ 64 else 0

/-- `label_entry`: its head is its label's. -/
structure LabelEntry (V : Type*) where
  head : ℕ
  key : List UInt8
  extra : ℕ
  value : V
  head_eq : head = keyHead key

/-- `label_entry_of`. -/
def labelEntryOf {V : Type*} (label : List UInt8) (node : V) (start : ℕ) : LabelEntry V :=
  ⟨keyHead label, label, start, node, rfl⟩

/-- `memcmp`, of as many bytes of each. -/
def memcmp : List UInt8 → List UInt8 → ℤ
  | a :: as, b :: bs => if a = b then memcmp as bs else (a.toNat : ℤ) - b.toNat
  | _, _ => 0

/-- Which of two lengths is greater, as a sign. -/
def lengthOrder (a b : ℕ) : ℤ := (if b < a then 1 else 0) - if a < b then 1 else 0

/-- `markdown_core_key_tie_order`. -/
def keyTieOrder (a b : List UInt8) : ℤ :=
  if a.length ≤ 8 ∨ b.length ≤ 8 then lengthOrder a.length b.length
  else
    let common := (if a.length < b.length then a.length else b.length) - 8
    let order := memcmp ((a.drop 8).take common) ((b.drop 8).take common)
    if order ≠ 0 then order else lengthOrder a.length b.length

/-- `markdown_core_key_before`, `label_before`. -/
def labelBefore {V : Type*} (a b : LabelEntry V) : Bool :=
  if a.head ≠ b.head then a.head < b.head else keyTieOrder a.key b.key < 0

section Runs

variable {α : Type*} (before : α → α → Bool)

/-- A write to an array. -/
def writeAt {β : Type*} (array : List β) (index : ℕ) (value : β) : Option (List β) :=
  if index < array.length then some (array.set index value) else none

/-- Whether a run ends at an end: the array's, or before an entry that is before the last. -/
def endsRun (entries : List α) (stop : ℕ) : Option Bool :=
  if stop = entries.length then some true
  else entries[stop]?.bind fun a => entries[stop - 1]?.map fun b => before a b

/-- The loop of `label_sort` that finds the runs. -/
def findRuns (entries : List α) : ℕ → ℕ → List ℕ → ℕ → Option (List ℕ × ℕ)
  | 0, _, ends, runs => some (ends, runs)
  | fuel + 1, stop, ends, runs =>
    (endsRun before entries stop).bind fun cut =>
      if cut then
        (writeAt ends runs stop).bind fun ends => findRuns entries fuel (stop + 1) ends (runs + 1)
      else findRuns entries fuel (stop + 1) ends runs

/-- The three loops that merge two runs: from both while both have entries, then what one has. -/
def mergeFrom (entries : List α) (middle high : ℕ) : ℕ → ℕ → ℕ → ℕ → List α → Option (List α)
  | 0, _, _, _, spare => some spare
  | fuel + 1, left, right, out, spare =>
    if left < middle ∧ right < high then
      entries[right]?.bind fun b => entries[left]?.bind fun a =>
        if before b a then
          (writeAt spare out b).bind (mergeFrom entries middle high fuel left (right + 1) (out + 1))
        else
          (writeAt spare out a).bind (mergeFrom entries middle high fuel (left + 1) right (out + 1))
    else if left < middle then
      entries[left]?.bind fun a =>
        (writeAt spare out a).bind (mergeFrom entries middle high fuel (left + 1) right (out + 1))
    else if right < high then
      entries[right]?.bind fun b =>
        (writeAt spare out b).bind (mergeFrom entries middle high fuel left (right + 1) (out + 1))
    else some spare

/-- The loop over the runs, two at a time: how many there are then, their ends, written where the
runs' own were, and the other array. -/
def mergeRuns (entries : List α) (runs : ℕ) :
    ℕ → ℕ → ℕ → ℕ → List ℕ → List α → Option (ℕ × List ℕ × List α)
  | 0, _, merged, _, ends, spare => some (merged, ends, spare)
  | fuel + 1, run, merged, low, ends, spare =>
    if run < runs then
      ends[run]?.bind fun middle =>
        (if run + 1 < runs then ends[run + 1]? else some middle).bind fun high =>
          (mergeFrom before entries middle high (high - low) low middle low spare).bind fun spare =>
            (writeAt ends merged high).bind fun ends =>
              mergeRuns entries runs fuel (run + 2) (merged + 1) high ends spare
    else some (merged, ends, spare)

/-- The loop of `label_sort` that merges, the two arrays changing places. -/
def mergeAll : ℕ → ℕ → List ℕ → List α → List α → Option (List α × List α)
  | 0, _, _, entries, spare => some (entries, spare)
  | fuel + 1, runs, ends, entries, spare =>
    if 1 < runs then
      (mergeRuns before entries runs runs 0 0 0 ends spare).bind fun pass =>
        mergeAll fuel pass.1 pass.2.1 pass.2.2 entries
    else some (entries, spare)

end Runs

/-- `label_sort`: the array that holds the entries sorted, and the other. The spare array and the
runs' ends hold anything. -/
def labelSort {V : Type*} (entries : List (LabelEntry V)) (spare : ℕ → LabelEntry V)
    (ends : ℕ → ℕ) : Option (List (LabelEntry V) × List (LabelEntry V)) :=
  let count := entries.length
  (findRuns labelBefore entries count 1 ((List.range count).map ends) 0).bind fun found =>
    mergeAll labelBefore count found.2 found.1 entries ((List.range count).map spare)

end MarkdownCore.Order
