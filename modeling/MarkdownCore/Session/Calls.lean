import MarkdownCore.Lsp.Session
import MarkdownCore.Uses.Refresh

/-!
# The session's calls

A session takes text until it is flushed, and edits from then on. A call goes through its steps in
the source's order and returns at the first that refuses or fails. What the calls use of the block
parse stands in `Parse`, whose state decides what it reads and which of its steps fail for storage;
what the session itself asks storage for stands in `Granted`.
-/

namespace MarkdownCore.Calls

open Text (Input Replaced Decisions TextUnit columnOffset)
open Lsp (sourceCapacity replace lineOf)
open Declarations (Key)

/-- `markdown_core_status`, as the session's calls answer it. -/
inductive Status where
  | ok
  | allocationFailed
  | outOfBounds
  | sessionFlushed
  | sessionStreaming
  deriving DecidableEq, Repr

/-- The rest point an edit reads from: before a child of the root, or below the child before it at
a path, at the start of an input line. -/
structure RestPoint where
  child : ℕ
  line : ℕ
  path : List ℕ
  deriving DecidableEq, Repr

/-- A rest point stands before the edited line, or at the document's start. -/
def RestPoint.Before (rest : RestPoint) (edited : ℕ) : Prop := rest.line = 0 ∨ rest.line < edited

/-- The functions of a parse that a session calls, by the parse's state, its published roots and
what a context query answers. -/
structure Parse (P T K : Type*) where
  /-- `markdown_core_parser_start`, `markdown_core_parser_edits`. -/
  start : P
  /-- `markdown_core_parser_commit`. -/
  commit : P → List UInt8 → Bool → P × Bool
  /-- `markdown_core_parser_complete`. -/
  complete : P → P × Bool
  /-- `markdown_core_parser_snapshot`. -/
  snapshot : P → List UInt8 → P × Option T
  /-- `markdown_core_parser_flush`. -/
  flush : P → P × Option T
  /-- The root's `child_count`. -/
  childCount : T → ℕ
  /-- `session_rest`: the rest point before an edited line, unless the reach cannot be sorted. -/
  rest : P → T → List UInt8 → (edited : ℕ) → P × Option {rest : RestPoint // rest.Before edited}
  /-- `markdown_core_parser_reopen`. -/
  reopen : P → T → RestPoint → Replaced → List UInt8 → Bool → P × Bool
  /-- The lines a reading scans and takes back. -/
  decisions : P → Decisions
  /-- `markdown_core_parser_resumed`. -/
  resumed : P → ℕ
  /-- `markdown_core_parser_compact`. -/
  compact : P → P
  /-- `markdown_core_parser_altered_labels`. -/
  alteredLabels : P → ℕ → P × Option (List Key)
  /-- `markdown_core_parser_uses_of`: places in the spans. -/
  usesOf : P → List Key → (spans : List (ℕ × ℕ)) →
    P × Option {places : List ℕ // ∀ place ∈ places, ∃ span ∈ spans, place < span.2}
  /-- `markdown_core_context_locate`, which may look with the parse. -/
  look : P → Option T → List UInt8 → Text.Cursor → P × Except Status K

/-- What storage allows a call: the text's, the edits', the widths' at first and after a reading,
and a window's. -/
structure Granted where
  text : Bool
  edits : Bool
  widths : Bool
  mended : Bool
  window : Bool
  deriving DecidableEq, Repr

/-- `session_edits`: whether the widths are made, the bytes the last edit read again, and the most
text held since the whole text was last read. -/
structure Edits where
  made : Bool
  rereadFrom : ℕ
  rereadTo : ℕ
  peak : ℕ
  deriving DecidableEq, Repr

/-- `markdown_core_session`: its text, the committed parse with its lines, the document's root, the
unit its columns count, the context located, and what its edits keep. -/
structure Session (P T K : Type*) where
  text : List UInt8
  committed : P
  input : Input
  root : Option T
  unit : TextUnit
  context : Option K
  flushed : Bool
  edits : Option Edits

variable {P T K : Type*}

namespace Session

/-- What only an edit keeps: zeroed storage at the first. -/
def kept (s : Session P T K) : Edits := s.edits.getD ⟨false, 0, 0, 0⟩

/-- `session_forget`. -/
def forget (s : Session P T K) : Session P T K := { s with context := none }

/-- `session_take`. -/
def take (s : Session P T K) (granted : Granted) (text : List UInt8) : Status × Session P T K :=
  if sourceCapacity - s.text.length < text.length then (.allocationFailed, s)
  else if text ≠ [] ∧ granted.text = false then (.allocationFailed, s)
  else (.ok, { s with text := s.text ++ text })

/-- `session_publish`. -/
def publish (s : Session P T K) : Option T → Status × Session P T K
  | none => (.allocationFailed, s)
  | some root => (.ok, { s with root := some root })

/-- `session_offset`. -/
def offset (s : Session P T K) (position : Text.Cursor) : Option ℕ :=
  if 1 ≤ position.line ∧ 1 ≤ position.column then
    (s.input.lineSpan (position.line - 1)).bind fun span =>
      columnOffset s.text span.1 span.2 position.column s.unit true
  else none

/-- Where an input line starts. -/
def lineStart (s : Session P T K) (line : ℕ) : ℕ := ((s.input.lineSpan line).map Prod.fst).getD 0

end Session

namespace Parse

variable (parse : Parse P T K) (granted : Granted)

/-- `session_snapshot`. -/
def sessionSnapshot (s : Session P T K) : Status × Session P T K :=
  let commit := parse.commit s.committed s.text false
  if commit.2 = false then (.allocationFailed, { s with committed := commit.1 })
  else
    let complete := parse.complete commit.1
    if complete.2 = false then (.allocationFailed, { s with committed := complete.1 })
    else
      let snapshot := parse.snapshot complete.1 s.text
      { s with committed := snapshot.1 }.publish snapshot.2

/-- `session_flush`: a commit that fails fails the parse, which the flush then publishes as
nothing. -/
def sessionFlush (s : Session P T K) : Status × Session P T K :=
  let commit := parse.commit s.committed s.text true
  let flush := parse.flush commit.1
  (if flush.2.isSome then .ok else .allocationFailed,
    { s with committed := flush.1, flushed := true, root := flush.2 })

/-- `markdown_core_session_new`: no session unless the text's snapshot is had. -/
def new (unit : TextUnit) (text : List UInt8) : Option (Session P T K) :=
  let fresh : Session P T K :=
    ⟨[], parse.start, Input.read (parse.decisions parse.start) [], none, unit, none, false, none⟩
  let took := fresh.take granted text
  if took.1 = .ok then
    let made := parse.sessionSnapshot took.2
    if made.1 = .ok then some made.2 else none
  else none

/-- `markdown_core_session_append`. -/
def append (s : Session P T K) (text : List UInt8) : Status × Session P T K :=
  if s.flushed then (.sessionFlushed, s)
  else
    let took := s.forget.take granted text
    if took.1 = .ok then parse.sessionSnapshot took.2 else took

/-- `markdown_core_session_flush`, with the line table the reading leaves. -/
def flushSession (s : Session P T K) : Status × Session P T K :=
  if s.flushed then (.sessionFlushed, s)
  else
    let done := parse.sessionFlush s.forget
    (done.1, { done.2 with input := Input.read (parse.decisions done.2.committed) done.2.text })

/-- `session_rest`. -/
def sessionRest (s : Session P T K) (root : T) (edited : ℕ) :
    Session P T K × Option {rest : RestPoint // rest.Before edited} :=
  let rest := parse.rest s.committed root s.text edited
  ({ s with committed := rest.1 }, rest.2)

/-- `session_reread`: the flushed parse put back at a rest point reads the text and is flushed
again. The document goes first, and only a reading that succeeds publishes one. -/
def reread (s : Session P T K) (root : T) (rest : RestPoint) (replaced : Replaced) (whole : Bool) :
    Status × Session P T K :=
  let reopen := parse.reopen s.committed root rest replaced s.text whole
  if reopen.2 = false then (.allocationFailed, { s with committed := reopen.1, root := none })
  else
    let done := parse.sessionFlush { s with committed := reopen.1, root := none }
    let resumed := parse.resumed done.2.committed
    (done.1, { done.2 with
      input := s.input.reread (parse.decisions done.2.committed) rest.line replaced s.text whole
      edits := some { s.kept with
        made := s.kept.made && done.2.root.isSome && granted.mended
        rereadFrom := s.lineStart rest.line
        rereadTo := if resumed = 0 then s.text.length else resumed } })

/-- `session_refresh`, one of its readings: an edit of nothing. -/
def refreshTurn (s : Session P T K) (inside past : ℕ) : Option (Session P T K × ℕ × ℕ) :=
  s.root.bind fun root =>
    let rest := parse.sessionRest s root (lineOf s.input inside)
    rest.2.bind fun point =>
      let read := parse.reread granted rest.1 root point.1 ⟨inside, inside, 0, past⟩ false
      if read.1 = .ok then some (read.2, read.2.kept.rereadFrom, read.2.kept.rereadTo) else none

/-- `session_refresh`. A reading that fails leaves a parse nothing reads on from. -/
def sessionRefresh (s : Session P T K) (altered : List Key) (spans : List (ℕ × ℕ)) :
    Status × Session P T K :=
  let uses := parse.usesOf s.committed altered spans
  let s := { s with committed := uses.1 }
  match uses.2.bind fun places =>
    Uses.refresh (parse.refreshTurn granted) s s.kept.rereadFrom s.kept.rereadTo places.1 with
  | none => (.allocationFailed, s)
  | some r =>
    (.ok, { r.session with
      edits := some { r.session.kept with rereadFrom := r.rereadFrom, rereadTo := r.rereadTo } })

/-- The definitions an edit altered: the children it kept that look up one of them are read again,
or the document goes. -/
def lookAgain (s : Session P T K) (start : ℕ) : Status × Session P T K :=
  let resumed := parse.resumed s.committed
  let altered := parse.alteredLabels s.committed start
  let s := { s with committed := altered.1 }
  match altered.2 with
  | none => (.allocationFailed, { s with root := none })
  | some [] => (.ok, s)
  | some (label :: labels) =>
    let spans := (0, start) :: if resumed = 0 then [] else [(resumed, s.text.length)]
    let done := parse.sessionRefresh granted s (label :: labels) spans
    if done.1 = .ok then done else (done.1, { done.2 with root := none })

/-- An edit from where its text is replaced: the whole text is read into storage of its own once it
is less than half of the most held, and otherwise the text from the rest point. -/
def readEdit (s : Session P T K) (root : T) (rest : RestPoint) (first last : ℕ)
    (text : List UInt8) : Status × Session P T K :=
  let start := s.lineStart rest.line
  let replaced : Replaced := ⟨first, last, text.length, 0⟩
  let s := { s with text := replace s.text first last text }
  if s.text.length < s.kept.peak / 2 then
    let read := parse.reread granted s root ⟨0, 0, []⟩ replaced true
    (read.1, { read.2 with
      committed :=
        if read.1 = .ok then parse.compact read.2.committed else read.2.committed
      edits := some { read.2.kept with peak := s.text.length } })
  else
    let read := parse.reread granted s root rest replaced false
    if read.1 = .ok ∧ (rest.child ≠ 0 ∨ parse.resumed read.2.committed ≠ 0) then
      parse.lookAgain granted read.2 start
    else read

/-- An edit between two offsets, from the storage only edits keep to the text's. -/
def editBetween (s : Session P T K) (root : T) (line first last : ℕ) (text : List UInt8) :
    Status × Session P T K :=
  if s.edits = none ∧ granted.edits = false then (.allocationFailed, s)
  else if s.kept.made = false ∧ granted.widths = false then
    (.allocationFailed, { s with edits := some s.kept })
  else
    let s := { s with edits := some { s.kept with made := true } }.forget
    let rest := parse.sessionRest s root line
    match rest.2 with
    | none => (.allocationFailed, rest.1)
    | some point =>
      let s := { rest.1 with
        edits := some { rest.1.kept with peak := max rest.1.kept.peak rest.1.text.length } }
      if granted.text = false then (.allocationFailed, s)
      else parse.readEdit granted s root point.1 first last text

/-- `markdown_core_session_edit`. -/
def edit (s : Session P T K) (start stop : Text.Cursor) (text : List UInt8) :
    Status × Session P T K :=
  if s.flushed = false then (.sessionStreaming, s)
  else
    match s.root with
    | none => (.allocationFailed, s)
    | some root =>
      match s.offset start, s.offset stop with
      | some first, some last =>
        if last < first then (.outOfBounds, s)
        else if sourceCapacity - (s.text.length - (last - first)) < text.length then
          (.allocationFailed, s)
        else parse.editBetween granted s root (start.line - 1) first last text
      | _, _ => (.outOfBounds, s)

/-- `markdown_core_context_locate`, of the session's context: the one it had stays when it fails. -/
def contextLocate (s : Session P T K) (position : Text.Cursor) : Status × Session P T K :=
  let look := parse.look s.committed s.root s.text position
  match look.2 with
  | .error status => (status, { s with committed := look.1 })
  | .ok context => (.ok, { s with committed := look.1, context := some context })

/-- `markdown_core_session_locate`: a flushed session with a document looks from the rest point of
the cursor's line. -/
def locate (s : Session P T K) (position : Text.Cursor) : Status × Session P T K :=
  match (if s.flushed then s.root else none) with
  | none => parse.contextLocate s position
  | some root =>
    if parse.childCount root = 0 ∨ position.line < 1 ∨ s.input.lineSpan (position.line - 1) = none
    then parse.contextLocate s position
    else if s.edits = none ∧ granted.edits = false then (.allocationFailed, s)
    else if s.kept.made = false ∧ granted.widths = false then
      (.allocationFailed, { s with edits := some s.kept })
    else
      let s := { s with edits := some { s.kept with made := true } }
      let rest := parse.sessionRest s root (position.line - 1)
      if rest.2 = none ∨ granted.window = false then (.allocationFailed, rest.1)
      else parse.contextLocate rest.1 position

end Parse

/-- A call of a session, and what storage allows it. -/
inductive Call where
  | append (text : List UInt8)
  | flush
  | edit (start stop : Text.Cursor) (text : List UInt8)
  | locate (position : Text.Cursor)

/-- A call's answer and the session it leaves. -/
def Parse.call (parse : Parse P T K) (s : Session P T K) (granted : Granted) :
    Call → Status × Session P T K
  | .append text => parse.append granted s text
  | .flush => parse.flushSession s
  | .edit start stop text => parse.edit granted s start stop text
  | .locate position => parse.locate granted s position

/-- The session a run of calls leaves. -/
def Parse.run (parse : Parse P T K) (s : Session P T K) (calls : List (Granted × Call)) :
    Session P T K :=
  calls.foldl (fun s call => (parse.call s call.1 call.2).2) s

end MarkdownCore.Calls
