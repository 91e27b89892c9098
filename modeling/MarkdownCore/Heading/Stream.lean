import MarkdownCore.Heading.Document

/-!
# A streaming parse

A commit reads on and completes what settled; a mark keeps the state of the parse for a reading that
may be put back there; a snapshot reads the text so far to an end, shows a document, and puts the
parse back. `Stream` is the parse, `History` what its text holds at each moment, whatever the names.
-/

namespace MarkdownCore

open Naming

/-- What a reading adds before it completes: the labels it declares, with their kinds and where they
start, and where the headings it closes start. Once complete, every heading but a pending one is
parsed, to its projection. -/
structure Reading where
  declared : List (RosterKind × Name × ℕ)
  closed : List ℕ
  pending : Option ℕ := none
  project : ℕ → Projection

namespace Reading

/-- The reading ends with its text, where no block is pending. -/
def ended (reading : Reading) : Reading := { reading with pending := none }

def settled (reading : Reading) (start : ℕ) : Bool := reading.pending ≠ some start

/-- The labels of the anchors declared. -/
def anchors (reading : Reading) : List Name :=
  (reading.declared.filter fun (kind, label, _) => kind = .anchor && label ≠ []).map (·.2.1)

end Reading

/-- What the finalize does for a root whose lookups found nothing before: the anchors its completion
reserved are withdrawn, its labels declared anew, and a heading parsed again. -/
inductive Miss where
  | withdraw (label : Name) (start : ℕ)
  | declare (kind : RosterKind) (label : Name) (start : ℕ)
  | reparse (heading : ℕ) (projection : Projection)

/-- The steps of a streaming parse between two commits, a snapshot one of them. -/
inductive Step where
  | commit (reading : Reading)
  | mark
  | putBack (mark : ℕ)
  | release (mark : ℕ)
  | snapshot (reading : Reading)

/-! ### The parse -/

/-- The roster and the headings of a parse, and the marks it can be put back to, the oldest
first. -/
structure Stream where
  roster : Roster := { records := [] }
  headings : HeadingState := {}
  marks : List Kept := []

namespace Stream

def declareAll (roster : Roster) (declared : List (RosterKind × Name × ℕ)) : Roster :=
  declared.foldl (fun roster (kind, label, start) => roster.declare kind label start) roster

/-- A reading and its completion. -/
def read (stream : Stream) (reading : Reading) : Stream :=
  { stream with
    roster := declareAll stream.roster reading.declared
    headings := (reading.closed.foldl HeadingState.closeHeading stream.headings).headingsPrepare
      reading.settled reading.project }

/-- What a mark made now keeps. -/
def kept (stream : Stream) : Kept :=
  { records := stream.roster.records.length, count := stream.headings.count,
    parsed := stream.headings.parsed }

/-- The parse put back to a mark, which stays. -/
def putBackTo (stream : Stream) (kept : Kept) : Stream :=
  { stream with
    roster := stream.roster.rollback kept.records, headings := stream.headings.putBack kept }

/-- The earliest mark the reading can be put back to: the oldest, else the snapshot's own. -/
def firstKept (stream : Stream) : Kept := stream.marks.headD stream.kept

/-- The snapshot's document: the text so far read to an end, and its headings named. -/
def document (stream : Stream) (reading : Reading) : Stream :=
  let tail := stream.read reading.ended
  { tail with headings := tail.headings.headingsFinish tail.roster (some stream.firstKept) }

/-- A snapshot, undone. -/
def snapshot (stream : Stream) (reading : Reading) : Stream :=
  (stream.document reading).putBackTo stream.kept

def step (stream : Stream) : Step → Stream
  | .commit reading => stream.read reading
  | .mark => { stream with marks := stream.marks ++ [stream.kept] }
  | .putBack mark =>
    match stream.marks[mark]? with
    | none => stream
    | some kept => { stream.putBackTo kept with marks := stream.marks.take (mark + 1) }
  | .release mark => { stream with marks := stream.marks.eraseIdx mark }
  | .snapshot reading => stream.snapshot reading

def completeMiss (stream : Stream) : Miss → Stream
  | .withdraw label start => { stream with roster := stream.roster.withdraw .anchor label start }
  | .declare kind label start => { stream with roster := stream.roster.declare kind label start }
  | .reparse heading projection =>
    { stream with headings := stream.headings.reparseInlines heading projection }

/-- The finalize: the last reading, the roots completed again, and every heading named. -/
def flush (stream : Stream) (reading : Reading) (misses : List Miss) : Stream :=
  let stream := misses.foldl completeMiss (stream.read reading.ended)
  { stream with headings := stream.headings.headingsFinish stream.roster none }

end Stream

/-! ### What the text holds -/

/-- The anchors the text reserves, and its headings in source order: where each starts, and what it
projects to once it is parsed. -/
structure Outline where
  reserved : List Name := []
  headings : List (ℕ × Option Projection) := []

namespace Outline

/-- A heading that settled is parsed. -/
def parseHeading (reading : Reading) : ℕ × Option Projection → ℕ × Option Projection
  | (start, some projection) => (start, some projection)
  | (start, none) => (start, if reading.settled start then some (reading.project start) else none)

def read (outline : Outline) (reading : Reading) : Outline where
  reserved := outline.reserved ++ reading.anchors
  headings := (outline.headings ++ (sourceOrder reading.closed).map (·, none)).map
    (parseHeading reading)

/-- The reading goes on from what the text holds: its headings are new, they start past those there
are, and no heading starts past a pending one. -/
structure Follows (outline : Outline) (reading : Reading) : Prop where
  nodup : reading.closed.Nodup
  past : ∀ heading ∈ outline.headings, ∀ start ∈ reading.closed, heading.1 < start
  pending : ∀ pending, reading.pending = some pending →
    (∀ heading ∈ outline.headings, heading.1 ≤ pending) ∧ ∀ start ∈ reading.closed, start ≤ pending

def completeMiss (outline : Outline) : Miss → Outline
  | .withdraw label _ => { outline with reserved := outline.reserved.erase label }
  | .declare kind label _ =>
    if kind = .anchor ∧ label ≠ [] then { outline with reserved := outline.reserved ++ [label] }
    else outline
  | .reparse heading projection =>
    { outline with
      headings := outline.headings.modify heading fun (start, _) => (start, some projection) }

/-- What each heading asks to be named from. -/
def bases (outline : Outline) : List (Option Name) :=
  outline.headings.map fun (_, projection) =>
    projection.bind fun projection => if projection.authored then none else some projection.base

/-- The names one greedy pass over the anchors and then the headings gives. -/
def names (outline : Outline) : List (Option Name) :=
  greedy anchors outline.reserved.toFinset outline.bases

end Outline

/-- What the text holds, and what it held at each mark. -/
structure History where
  outline : Outline := {}
  marks : List Outline := []

namespace History

/-- A snapshot leaves what the text holds. -/
def step (history : History) : Step → History
  | .commit reading => { history with outline := history.outline.read reading }
  | .mark => { history with marks := history.marks ++ [history.outline] }
  | .putBack mark =>
    match history.marks[mark]? with
    | none => history
    | some outline => { outline, marks := history.marks.take (mark + 1) }
  | .release mark => { history with marks := history.marks.eraseIdx mark }
  | .snapshot _ => history

/-- A reading of the step goes on from what the text holds. -/
def allows (history : History) : Step → Prop
  | .commit reading => history.outline.Follows reading
  | .snapshot reading => history.outline.Follows reading.ended
  | _ => True

def Allows (history : History) : List Step → Prop
  | [] => True
  | step :: steps => history.allows step ∧ (history.step step).Allows steps

end History

end MarkdownCore
