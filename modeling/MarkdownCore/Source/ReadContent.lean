import MarkdownCore.Source.ContentMapRun
import MarkdownCore.Source.Places

/-!
# An inline root's content

As an inline root's content is read, the runs of its map become its content places, and the source
of its own lines that gives no content, or what lies between its content places where it has no
lines, places of length 0 between them. The read of a settled paragraph keeps what it read before
its last mark, and the next read of the paragraph, grown since, goes on from there.
-/

namespace MarkdownCore.Source

/-- `S_places_add_own`. -/
def addOwn (places : List SourcePlace) (start stop : ℕ) : List SourcePlace :=
  if stop ≤ start then places
  else
    match places.getLast? with
    | some previous =>
      if previous.length = 0 ∧ previous.stop = start then
        places.dropLast ++ [{ previous with stop }]
      else places ++ [⟨start, stop, 0⟩]
    | none => [⟨start, stop, 0⟩]

/-- Where a read stands: the places read, the lines left, none with no lines, where the content read
ends in the source, and the offset the next run begins at. -/
structure ReadState where
  places : List SourcePlace
  lines : Option (List SourcePlace)
  source : ℕ
  offset : ℕ

/-- What a settled paragraph's read keeps (`S_keep_read`): where it stood before its last mark, and
the mark's number in the map. -/
structure KeptRead where
  places : List SourcePlace
  mark : ℕ
  offset : ℕ
  source : ℕ

/-- The own source of the lines that end before `start`, from `source` on, and the lines left. -/
def ownLines (places : List SourcePlace) (source start : ℕ) :
    List SourcePlace → List SourcePlace × List SourcePlace
  | [] => (places, [])
  | line :: lines =>
    if line.stop ≤ start then
      ownLines (addOwn places (max source line.start) line.stop) source start lines
    else (places, line :: lines)

/-- The own source before a slice that starts a place at `start`. -/
def ownBefore (s : ReadState) (start : ℕ) : ReadState :=
  match s.lines with
  | some lines =>
    let after := ownLines s.places s.source start lines
    match after.2 with
    | line :: rest =>
      { s with
        places := if line.start ≤ start then addOwn after.1 (max s.source line.start) start
          else after.1
        lines := some (line :: rest) }
    | [] => { s with places := after.1, lines := some [] }
  | none => if s.places.isEmpty then s else { s with places := addOwn s.places s.source start }

/-- A slice of the content read from the source from `start` to `stop`. -/
def putSlice (s : ReadState) (start stop size : ℕ) : ReadState :=
  let previous := s.places.getLast?.filter fun previous => decide (previous.length ≠ 0)
  let joined := previous.filter fun previous =>
    decide ((previous.stop = start ∧ stop - start = size ∧
      previous.stop - previous.start = previous.length) ∨ start < previous.stop)
  match joined with
  | some previous =>
    { s with
      places := s.places.dropLast ++
        [{ previous with stop := max stop previous.stop, length := previous.length + size }]
      source := max stop previous.stop }
  | none =>
    let s := ownBefore s start
    { s with places := s.places ++ [⟨start, stop, size⟩], source := stop }

/-- The slice of a mark up to `last`. -/
def readSlice (s : ReadState) (mark : Mark) (last : ℕ) : ReadState :=
  let start := (mark.place s.offset false).toNat
  let stop := start + (((last : ℤ) - s.offset - 1) * mark.step + mark.width).toNat
  { putSlice s start stop (last - s.offset) with offset := last }

/-- Where the slice of a mark ends, in a read that ends at `stop`. -/
def sliceEnd (marks : List Mark) (stop : ℕ) : ℕ :=
  match marks with
  | next :: _ => if next.offset < stop then next.offset else stop
  | [] => stop

/-- The loop over the marks, the first of them number `k` of the map. A read that `keeps` where it
stands does as its last mark comes. -/
@[grind =] def readMarks (stop : ℕ) (keeps : Bool) : List Mark → ℕ → ReadState → Option KeptRead →
    ReadState × Option KeptRead
  | [], _, s, kept => (s, kept)
  | mark :: marks, k, s, kept =>
    if s.offset < stop then
      let last := sliceEnd marks stop
      let kept := if keeps ∧ last = stop then some ⟨s.places, k, s.offset, s.source⟩ else kept
      readMarks stop keeps marks (k + 1) (readSlice s mark last) kept
    else (s, kept)

/-- What was kept is of a mark the map has. -/
def KeptRead.stands (kept : KeptRead) (map : ContentMap) : Bool :=
  decide (kept.mark < map.marks.length ∧
    (map.marks.getD kept.mark default).offset = kept.offset)

/-- The mark a read starts at, and where it stands before it. -/
def startRead (map : ContentMap) (lines : Option (List SourcePlace)) :
    Option KeptRead → ℕ × ReadState
  | some kept => (kept.mark, ⟨kept.places, lines, kept.source, kept.offset⟩)
  | none => (markAt map.marks map.origin, ⟨[], lines, 0, map.origin⟩)

/-- The places once the lines left are read. -/
def ReadState.finish (s : ReadState) : List SourcePlace :=
  match s.lines with
  | some left => left.foldl
      (fun places line => addOwn places (max s.source line.start) line.stop) s.places
  | none => s.places

/-- `S_read_content`, of a map of marks: the root's places, none where there is nothing to read, and
what the settled paragraph keeps. `kept` is what it kept before; `settles` says that it keeps. -/
def readContent (map : ContentMap) (lines : Option (List SourcePlace)) (length : ℕ) (settles : Bool)
    (kept : Option KeptRead) : Option (List SourcePlace) × Option KeptRead :=
  if length = 0 ∨ map.marks = [] then (none, kept)
  else
    let keeps := settles && lines.isNone
    let start := startRead map lines ((if keeps then kept else none).filter (·.stands map))
    let read := readMarks (map.origin + length) keeps (map.marks.drop start.1) start.1 start.2 kept
    (some read.1.finish, read.2)

/-! ### What a read says -/

/-- The place that reads a content byte. -/
@[grind =] def placeOf : List SourcePlace → ℕ → Option SourcePlace
  | [], _ => none
  | place :: places, k => if k < place.length then some place else placeOf places (k - place.length)

/-- The content byte `k` lies in a place of the source from `start` to `stop`. -/
def Within (places : List SourcePlace) (k start stop : ℕ) : Prop :=
  ∃ place, placeOf places k = some place ∧ place.start ≤ start ∧ stop ≤ place.stop

/-- A map reads its bytes in the order of the source. -/
structure ContentMap.Reads (map : ContentMap) : Prop extends map.Ok where
  width_pos : ∀ mark ∈ map.marks, 0 < mark.width
  step_nonneg : ∀ mark ∈ map.marks, 0 ≤ mark.step
  source_nonneg : ∀ mark ∈ map.marks, 0 ≤ mark.source
  ordered : map.marks.IsChain fun mark next => mark.place (next.offset - 1) false ≤ next.source

/-- A map grown since a read that ended at `stop`: the marks before are the same. -/
structure Grown (map map' : ContentMap) (stop : ℕ) : Prop where
  origin_eq : map'.origin = map.origin
  same : ∀ (i : ℕ) (mark : Mark), mark.offset < stop → (map.marks[i]? = some mark ↔ map'.marks[i]? = some mark)

/-- A read of a settled paragraph: its map then, its lines and how much of its content is read. -/
structure ContentRead where
  map : ContentMap
  lines : Option (List SourcePlace)
  length : ℕ

def ContentRead.stop (r : ContentRead) : ℕ := r.map.origin + r.length

/-- The reads of a paragraph as its content grows, each going on from what the one before kept. -/
def readAll : Option KeptRead → List ContentRead → List (Option (List SourcePlace))
  | _, [] => []
  | kept, r :: reads =>
    let read := readContent r.map r.lines r.length true kept
    read.1 :: readAll read.2 reads

/-- The content grows from each read to the next. -/
def Growing (reads : List ContentRead) : Prop :=
  reads.IsChain fun r next => r.length ≤ next.length ∧ Grown r.map next.map r.stop

/-- Lines in order of the source. -/
structure OwnLines (lines : List SourcePlace) : Prop where
  ordered : lines.Pairwise (·.stop ≤ ·.start)
  start_le : ∀ line ∈ lines, line.start ≤ line.stop

/-- The root's own source lies in the places: that of its lines, or all between its content where it
has none. -/
def OwnLies (places : List SourcePlace) : Option (List SourcePlace) → Prop
  | some lines => ∀ x, InPlaces lines x → InPlaces places x
  | none => ∀ first ∈ places.head?, ∀ last ∈ places.getLast?, ∀ x, first.start ≤ x → x < last.stop →
    InPlaces places x

/-- The places of a content: in order and complete, each byte in the place of its source. -/
structure ReadsContent (map : ContentMap) (lines : Option (List SourcePlace)) (length : ℕ)
    (places : List SourcePlace) : Prop where
  placed : Placed places
  length_eq : contentLength places = length
  bytes : ∀ k < length, ∃ line start line' stop, map.contentPlace k false = some (line, start) ∧
    map.contentPlace k true = some (line', stop) ∧ 0 ≤ start ∧ start < stop ∧
    Within places k start.toNat stop.toNat
  own : OwnLies places lines

end MarkdownCore.Source
