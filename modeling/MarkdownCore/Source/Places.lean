import Mathlib.Algebra.Order.Ring.Nat
import Mathlib.Data.Int.Order.Basic
import MarkdownCore.Library.Bisect

/-!
# Content places and runs

An inline root's places list its source in order: a place of some content reads it from its source,
byte by byte where the source is as long as the content and as a whole otherwise, and a place of no
content is source of the root's own. A node of the root stands at a range of the content; its runs
are the source that was read for it, less what lies in no place. A read or a write outside its list
gives `none`.
-/

namespace MarkdownCore.Source

/-- `markdown_core_source_place`. -/
structure SourcePlace where
  start : ℕ
  stop : ℕ
  length : ℕ
deriving DecidableEq

/-- `content_place`. -/
structure ContentPlace where
  content : ℕ
  length : ℕ
  start : ℕ
  stop : ℕ
deriving DecidableEq, Inhabited

/-- `content_places_read`: each place with where its content begins, `content` for the first. -/
@[grind =] def contentPlaces (content : ℕ) : List SourcePlace → List ContentPlace
  | [] => []
  | place :: places =>
    ⟨content, place.length, place.start, place.stop⟩ ::
      contentPlaces (content + place.length) places

/-- `content_place_copied`. -/
def ContentPlace.copied (place : ContentPlace) : Bool := place.stop - place.start == place.length

/-- The last place at or before one that reads content, or the first. -/
def readBack (table : List ContentPlace) : ℕ → ℕ
  | 0 => 0
  | k + 1 => if (table.getD (k + 1) default).length = 0 then readBack table k else k + 1

/-- The last place that starts at or before `offset`, or the first. -/
def startsBefore (table : List ContentPlace) (offset : ℕ) : ℕ :=
  Bisect.stride (fun k => decide ((table.getD k default).content ≤ offset)) table.length 0
    table.length

/-- `content_place_at`. -/
def contentPlaceAt (table : List ContentPlace) (offset : ℕ) : ℕ :=
  readBack table (startsBefore table offset)

/-- `inline_span`, its places as indexes of the table. -/
structure InlineSpan where
  place : ℕ
  last : ℕ
  first : ℕ
  stop : ℕ

/-- The last of some places, the first of them at `k`, that starts before `stop` and reads content,
or `last`. -/
def lastRead (stop : ℕ) : List ContentPlace → ℕ → ℕ → ℕ
  | [], _, last => last
  | place :: places, k, last =>
    if place.content < stop then
      lastRead stop places (k + 1) (if place.length ≠ 0 then k else last)
    else last

/-- The source byte the content byte at `start` is read from. -/
def ContentPlace.first (place : ContentPlace) (start : ℕ) : ℕ :=
  if place.content + place.length ≤ start then place.stop
  else if place.copied then place.start + (start - place.content)
  else place.start

/-- Where the source the last content byte before `stop` is read from ends. -/
def ContentPlace.last (place : ContentPlace) (stop : ℕ) : ℕ :=
  if place.content + place.length ≤ stop - 1 ∨ place.copied = false then place.stop
  else place.start + (stop - place.content)

/-- `inline_span_of`. -/
def inlineSpan (table : List ContentPlace) (start stop : ℕ) : Option InlineSpan :=
  let k := contentPlaceAt table start
  table[k]?.bind fun place =>
    if start < stop then
      let last := lastRead stop (table.drop (k + 1)) (k + 1) k
      table[last]?.map fun reads => ⟨k, last, place.first start, reads.last stop⟩
    else some ⟨k, k, place.first start, place.first start⟩

/-! ### Runs -/

/-- `markdown_core_run`: where it starts, measured from the end of the one before. -/
structure SourceRun where
  lead : ℤ
  span : ℕ
deriving DecidableEq

/-- The source ranges of runs, the first measured from `anchor`. -/
@[grind =] def ranges (anchor : ℤ) : List SourceRun → List (ℤ × ℤ)
  | [] => []
  | run :: runs =>
    (anchor + run.lead, anchor + run.lead + run.span) :: ranges (anchor + run.lead + run.span) runs

/-- A list of runs as it is written, with how many it has storage for. -/
structure RunList where
  room : ℕ
  items : List SourceRun
deriving DecidableEq

def RunList.write (list : RunList) (run : SourceRun) : Option RunList :=
  if list.items.length < list.room then some { list with items := list.items ++ [run] } else none

/-- Where the pass over the places stands: the end of the run before, or the anchor, where the next
run starts, the end of the last, and the list it writes to, none for `NULL`. -/
structure Pass where
  count : ℕ
  before : ℕ
  start : ℕ
  last : ℕ
  runs : Option RunList

/-- A run from where the next starts to `stop`. -/
def Pass.emit (pass : Pass) (stop : ℕ) : Option Pass :=
  let run : SourceRun := ⟨(pass.start : ℤ) - pass.before, stop - pass.start⟩
  (match pass.runs with
    | none => some none
    | some list => (list.write run).map some).map fun runs =>
      { pass with count := pass.count + 1, before := stop, last := stop, runs }

/-- The places from the one the pass starts at. -/
def skipEnded (start : ℕ) : List ContentPlace → List ContentPlace
  | place :: next :: places =>
    if place.stop ≤ start then skipEnded start (next :: places) else place :: next :: places
  | places => places

/-- The gaps between the places, up to the one that reaches `stop`. -/
@[grind =] def passGaps (stop : ℕ) : List ContentPlace → Pass → Option Pass
  | place :: next :: places, pass =>
    if place.stop < stop then
      if next.start ≤ place.stop then passGaps stop (next :: places) pass
      else
        (if pass.start < place.stop then pass.emit place.stop else some pass).bind fun pass =>
          passGaps stop (next :: places)
            { pass with start := if pass.start < next.start then next.start else pass.start }
    else some pass
  | _, pass => some pass

/-- `inline_runs`: the source window, and the runs where there is a list for them. -/
def inlineRuns (table : List ContentPlace) (span : InlineSpan) (anchor : ℕ)
    (runs : Option RunList) : Option ((ℕ × ℕ) × Option RunList) :=
  let pass : Pass := ⟨0, anchor, span.first, span.first, runs⟩
  (if span.first < span.stop then
    passGaps span.stop (skipEnded span.first (table.drop span.place)) pass
  else some pass).bind fun pass =>
    (if pass.start < span.stop ∨ pass.count = 0 then
      pass.emit (if pass.start < span.stop then span.stop else pass.start)
    else some pass).map fun pass => ((span.first, pass.last), pass.runs)

/-- What `publish_inline_runs` gives of a content range: the window and the runs, in a list of as
many as it has room for. -/
def publishInlineRuns (places : List SourcePlace) (start stop anchor : ℕ) :
    Option ((ℕ × ℕ) × Option RunList) :=
  let table := contentPlaces 0 places
  (inlineSpan table start stop).bind fun span =>
    inlineRuns table span anchor (some ⟨span.last - span.place + 1, []⟩)

/-! ### What a place list says -/

/-- The places are in order, apart or touching, and one of some content has source. -/
structure Placed (places : List SourcePlace) : Prop where
  ordered : places.Pairwise (·.stop ≤ ·.start)
  start_le : ∀ place ∈ places, place.start ≤ place.stop
  reads : ∀ place ∈ places, 0 < place.length → place.start < place.stop

/-- How much content places read. -/
def contentLength (places : List SourcePlace) : ℕ := (places.map (·.length)).sum

/-- The source a content byte was read from: one byte of a place as long as its content, all of
any other. -/
def readFrom : List SourcePlace → ℕ → Option (ℕ × ℕ)
  | [], _ => none
  | place :: places, offset =>
    if offset < place.length then
      some (if place.stop - place.start = place.length then
        (place.start + offset, place.start + offset + 1) else (place.start, place.stop))
    else readFrom places (offset - place.length)

/-- Where the content ends in the source: the end of the last place that reads some, or of the
first. -/
def readEnd (places : List SourcePlace) : Option ℕ :=
  ((places.filter fun place => place.length ≠ 0).getLast?.or places.head?).map (·.stop)

/-- Where the content byte at `start` is read from, or where the content ends. -/
def readStart (places : List SourcePlace) (start : ℕ) : Option ℕ :=
  ((readFrom places start).map Prod.fst).or (readEnd places)

/-- Where the source of the last content byte before `stop` ends, or where a range of none starts. -/
def readStop (places : List SourcePlace) (start stop : ℕ) : Option ℕ :=
  if start < stop then (readFrom places (stop - 1)).map Prod.snd else readStart places start

/-- The source lies in some place. -/
def InPlaces (places : List SourcePlace) (x : ℕ) : Prop :=
  ∃ place ∈ places, place.start ≤ x ∧ x < place.stop

/-- The source of a content range, less the gaps: ranges in order, apart and of some source, or one
of none; their union; and the window from where the first starts to where the last ends. -/
structure RunsOf (places : List SourcePlace) (start stop : ℕ) (found : List (ℕ × ℕ))
    (window : ℕ × ℕ) : Prop where
  apart : found.Pairwise (·.2 < ·.1)
  filled : (∀ r ∈ found, r.1 < r.2) ∨ found.length = 1
  cover : ∃ first ends, readStart places start = some first ∧ readStop places start stop = some ends ∧
    ∀ x, (∃ r ∈ found, r.1 ≤ x ∧ x < r.2) ↔ first ≤ x ∧ x < ends ∧ InPlaces places x
  window_start : found.head?.map Prod.fst = some window.1
  window_stop : found.getLast?.map Prod.snd = some window.2

end MarkdownCore.Source
