import MarkdownCore.Library.Bisect

/-!
# A node as its reader reads it

`elements/parts.c`: the source that a node's runs hold joined as one text, in which each NUL byte
is the three bytes of U+FFFD, the places of the text in the source, and the source ranges of the
parts that a query answers.
-/

namespace MarkdownCore.Fields

open Bisect (bisect)

/-- `markdown_core_place`. -/
structure Place where
  start : ℕ
  stop : ℕ
  deriving DecidableEq, Repr

/-- `view`. -/
structure View where
  runs : List Place
  bases : List ℕ
  text : List UInt8
  size : ℕ
  nuls : List ℕ
  deriving DecidableEq, Repr

def View.run (r : View) (i : ℕ) : Place := r.runs.getD i ⟨0, 0⟩

def View.base (r : View) (i : ℕ) : ℕ := r.bases.getD i 0

/-- Where run `i` ends in the text: where the next one starts. -/
def View.top (r : View) (i : ℕ) : ℕ := if i + 1 < r.runs.length then r.base (i + 1) else r.size

/-! ### Joining -/

/-- The bytes of the source from one place to another. -/
def Place.bytes (run : Place) : List ℕ := List.range' run.start (run.stop - run.start)

/-- How the text reads a byte of the source. -/
def image (source : List UInt8) (at' : ℕ) : List UInt8 :=
  if source.getD at' 0 ≠ 0 then [source.getD at' 0] else [0xef, 0xbf, 0xbd]

/-- Where a run holds a NUL. -/
def nulsIn (source : List UInt8) (run : Place) : List ℕ :=
  run.bytes.filter fun at' => source.getD at' 0 = 0

/-- The first pass of `join`: where each run starts in the text, the NULs, and the text's size. -/
@[grind =] def measure (source : List UInt8) : List Place → ℕ → List ℕ × List ℕ × ℕ
  | [], size => ([], [], size)
  | run :: rest, size =>
    let nuls := nulsIn source run
    let more := measure source rest (size + 2 * nuls.length + (run.stop - run.start))
    (size :: more.1, nuls ++ more.2.1, more.2.2)

/-- Bytes written over others from a place on. -/
def writeAt (text : List UInt8) (base : ℕ) (bytes : List UInt8) : List UInt8 :=
  text.take base ++ bytes ++ text.drop (base + bytes.length)

/-- The second pass of `join`: each run's bytes written where it starts. -/
def writeRuns (source : List UInt8) : List Place → List ℕ → List UInt8 → List UInt8
  | run :: runs, base :: bases, text =>
    writeRuns source runs bases (writeAt text base (run.bytes.flatMap (image source)))
  | _, _, text => text

/-- `join`, with the storage it asks for: nothing where the source ends before the runs do. -/
def join (source : List UInt8) (runs : List Place) : Option View :=
  if (runs.getLast?.map Place.stop).getD 0 > source.length then none
  else
    let (bases, nuls, size) := measure source runs 0
    let text := writeRuns source runs bases (List.replicate (size + 1) 0)
    some ⟨runs, bases, text.set size 0x0a, size, nuls⟩

/-! ### Between the text and the source -/

/-- `nuls_before`: how many of the NULs lie before a byte of the source. -/
def View.nulsBefore (r : View) (at' : ℕ) : ℕ :=
  bisect (fun middle => r.nuls.getD middle 0 < at') r.nuls.length 0 r.nuls.length

/-- Where the source byte at `at'`, in run `i`, stands in the text. -/
def View.textAt (r : View) (i at' : ℕ) : ℕ :=
  let nuls := if r.nuls.length ≠ 0 then r.nulsBefore at' - r.nulsBefore (r.run i).start else 0
  r.base i + (at' - (r.run i).start) + 2 * nuls

/-- Where the text at `at'`, in run `i`, stands in the source: a place inside a NUL's U+FFFD
stands at the NUL, or past it when it is an end. -/
def View.sourceAt (r : View) (i at' : ℕ) (isEnd : Bool) : ℕ :=
  let run := r.run i
  if r.nuls.length = 0 then run.start + (at' - r.base i)
  else
    let first := r.nulsBefore run.start
    let high := r.nulsBefore run.stop
    let place := fun middle =>
      r.base i + (r.nuls.getD middle 0 - run.start) + 2 * (middle - first)
    let low := bisect (fun middle => place middle < at') (high - first) first high
    if low > first ∧ at' < place (low - 1) + 3 then
      if isEnd then r.nuls.getD (low - 1) 0 + 1 else r.nuls.getD (low - 1) 0
    else run.start + (at' - r.base i) - 2 * (low - first)

/-! ### The ranges of a query -/

/-- The loop of `add_place` over the runs from `i` on, of which there are `left`. -/
def View.placesFrom (r : View) (start stop : ℕ) : ℕ → ℕ → List Place
  | 0, _ => []
  | left + 1, i =>
    if r.base i < stop ∧ start < stop then
      if start ≥ r.top i then r.placesFrom start stop left (i + 1)
      else
        let from' := if start > r.base i then start else r.base i
        let to' := if stop < r.top i then stop else r.top i
        ⟨r.sourceAt i from' false, r.sourceAt i to' true⟩ ::
          r.placesFrom start stop left (i + 1)
    else []

/-- The places `add_place` adds for a range of the text. -/
def View.addPlace (r : View) (start stop : ℕ) : List Place :=
  let low := bisect (fun middle => r.top middle ≤ start) r.runs.length 0 r.runs.length
  r.placesFrom start stop (r.runs.length - low) low

/-- Every range's places, one range after the other. -/
def View.addPlaces (r : View) (parts : List Place) : List Place :=
  parts.flatMap fun part => r.addPlace part.start part.stop

end MarkdownCore.Fields
