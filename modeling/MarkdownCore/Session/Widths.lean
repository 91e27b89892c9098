import MarkdownCore.Library.Fenwick
import Mathlib.Data.UInt

/-!
# Where a block's children are

A session keeps, for a block's children counted in chunks, the bytes from where the child before
each chunk ends to where its last ends, and the chunks' widths summed in a tree. An edit makes
again only the chunks of the children it changed, or all from the first changed on.
-/

namespace MarkdownCore.Session

/-- `SESSION_CHUNK`. -/
def sessionChunk : ℕ := 64

/-- A child of a block: `extent`, and whether it is published (`source.runs`). -/
structure Child where
  lead : ℤ
  span : ℕ
  runs : Bool
  deriving DecidableEq

/-- The children of a block, counted in 32 bits. -/
structure Holder where
  children : List Child
  count_lt : children.length < 2 ^ 32

/-- `child_width`: from where the child before ends to where the child ends. -/
def childWidth (child : Child) : UInt32 := UInt32.ofInt (child.lead + child.span)

/-- `session_widths`, without the storage past what is kept. -/
structure Widths where
  chunks : ℕ → UInt32
  sums : ℕ → UInt32
  count : ℕ
  made : Bool
  bare : Bool

/-- Widths zeroed. -/
def Widths.zeroed : Widths := ⟨fun _ => 0, fun _ => 0, 0, false, false⟩

namespace Widths

/-- `widths_add`. -/
def add (w : Widths) (chunk : ℕ) (step : UInt32) : Widths :=
  { w with sums := Fenwick.up w.count step w.count (chunk + 1) w.sums }

/-- `widths_before`. -/
def before (w : Widths) (chunk : ℕ) : UInt32 := Fenwick.down w.sums chunk chunk 0

end Widths

/-- How many chunks so many children make. -/
def chunkCount (children : ℕ) : ℕ := (children + sessionChunk - 1) / sessionChunk

/-- The children of a chunk. -/
def chunkOf (children : List Child) (chunk : ℕ) : List Child :=
  (children.drop (chunk * sessionChunk)).take
    ((if (chunk + 1) * sessionChunk < children.length then (chunk + 1) * sessionChunk
      else children.length) - chunk * sessionChunk)

/-- The width of a chunk's children, and whether one is not published. -/
def measure (children : List Child) (bare : Bool) : UInt32 × Bool :=
  children.foldl (fun measured child => (measured.1 + childWidth child, measured.2 || !child.runs))
    (0, bare)

namespace Widths

/-- Chunks made again from `chunk` to the last of `last`. -/
def mendChunks (children : List Child) (whole : Bool) (last : ℕ) : ℕ → ℕ → Widths → Widths
  | 0, _, w => w
  | fuel + 1, chunk, w =>
    if chunk < chunkCount children.length ∧ chunk ≤ last / sessionChunk then
      let measured := measure (chunkOf children chunk) w.bare
      let summed := if whole then w else w.add chunk (measured.1 - w.chunks chunk)
      mendChunks children whole last fuel (chunk + 1)
        { summed with
          chunks := Function.update w.chunks chunk measured.1
          bare := measured.2 }
    else w

/-- The tree built again whole: its sums are the chunks' widths, each passed on to the one that
holds it. -/
def build (w : Widths) : Widths :=
  { w with
    sums := Fenwick.passOn w.count w.count 1 fun i =>
      if i = 0 then 0 else if i ≤ w.count then w.chunks (i - 1) else w.sums i }

/-- `widths_mend`, the storage for the chunks and for the sums had or not. -/
def mend (w : Widths) (children : List Child) (first last : ℕ) (chunksRoom sumsRoom : Bool) :
    Bool × Widths :=
  let count := chunkCount children.length
  if last ≥ children.length then
    if (count ≠ 0 ∧ chunksRoom = false) ∨ sumsRoom = false then (false, { w with made := false })
    else
      let resized := { w with count := count, bare := w.bare && decide (first ≠ 0) }
      let last := if children.length ≠ 0 then children.length - 1 else 0
      (true, (resized.mendChunks children true last count (first / sessionChunk)).build)
  else (true, w.mendChunks children false last count (first / sessionChunk))

/-- `SIZE_MAX`. -/
def sizeMax : ℕ := 2 ^ 64 - 1

/-- `widths_make`. -/
def make (w : Widths) (children : List Child) (chunksRoom sumsRoom : Bool) : Bool × Widths :=
  if w.made then (true, w)
  else
    let mended := w.mend children 0 sizeMax chunksRoom sumsRoom
    (mended.1, { mended.2 with made := mended.1 })

/-- `widths_start_at`. -/
def startAt (w : Widths) (children : List Child) (base : ℤ) (child : ℕ) : Option ℤ :=
  let first := child / sessionChunk * sessionChunk
  let at' := ((children.drop first).take (child - first)).foldl
    (fun total child => total + ((childWidth child).toNat : ℤ))
    (base + (w.before (child / sessionChunk)).toNat)
  children[child]?.map fun child => at' + child.lead

/-- Children passed while they end at or before an offset. -/
def passed (offset : ℕ) : List Child → ℕ → ℤ → ℕ
  | [], child, _ => child
  | next :: rest, child, total =>
    if total + (childWidth next).toNat ≤ (offset : ℤ) then
      passed offset rest (child + 1) (total + (childWidth next).toNat)
    else child

/-- `widths_child_at`. -/
def childAt (w : Widths) (children : List Child) (base : ℤ) (offset : ℕ) : ℕ :=
  let step := Fenwick.topStep w.count w.count 1
  let found := if w.count = 0 then (0, base)
    else Fenwick.descend w.count (fun i => (w.sums i).toNat) offset step step 0 base
  let child := if found.1 < w.count then found.1 * sessionChunk else children.length
  let child := passed offset (children.drop child) child found.2
  if child ≠ 0 then child - 1 else 0

end Widths

end MarkdownCore.Session
