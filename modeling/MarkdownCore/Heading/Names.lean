import Mathlib.Data.List.AList
import MarkdownCore.Heading.Suffix

/-!
# The committed names

A heading's anchor is the first name of its sequence that no explicit anchor reserves and no
heading before it was given. The names taken are one index; a pass over the roster's records and
then the headings writes it, and a snapshot writes an overlay over it.
-/

namespace MarkdownCore

/-! ### The roster's log -/

/-- The lookup spaces of the roster. -/
inductive RosterKind where
  | reference
  | footnote
  | specimen
  | anchor
  deriving DecidableEq, Repr

/-- A record of the roster's log. It declares its label, or withdraws the declaration at place
`before` of the log, after which `live` declarations of the label stand. -/
structure Record where
  kind : RosterKind
  label : Name
  start : ℕ
  live : ℕ := 0
  before : Option ℕ := none
  withdrawn : Bool := false
  back : Bool := false
  gone : Bool := false
  deriving DecidableEq, Repr

namespace Record

def withdraws (record : Record) : Bool := record.before.isSome

/-- Whether the declaration stands: no withdrawal withdrew it and no edit replaced its text. -/
def stands (record : Record) : Bool := !record.withdraws && !record.withdrawn && !record.gone

end Record

/-- The log, and whether its back is hidden from lookups. -/
structure Roster where
  records : List Record
  hidden : Bool := false
  deriving DecidableEq, Repr

namespace Roster

/-- Whether the declaration stands and a lookup sees it. -/
def seen (roster : Roster) (record : Record) : Bool :=
  record.stands && !(record.back && roster.hidden)

def declare (roster : Roster) (kind : RosterKind) (label : Name) (start : ℕ) : Roster :=
  if label = [] then roster
  else { roster with records := roster.records ++ [{ kind, label, start }] }

/-- Where the record at place `i` of the log starts. -/
def startAt (roster : Roster) (i : ℕ) : ℕ := roster.records[i]?.elim 0 (·.start)

/-- The declarations of the label that stand, as places of the log, in the order of where they
start. -/
def keyList (roster : Roster) (kind : RosterKind) (label : Name) : List ℕ :=
  ((List.range roster.records.length).filter fun i => roster.records[i]?.any fun record =>
    record.kind = kind && record.label = label && record.stands).mergeSort
      fun i j => roster.startAt i ≤ roster.startAt j

/-- The declaration a withdrawal at `start` withdraws: the last that starts there, or the label's
last when none does. -/
def withdrawnBy (roster : Roster) (kind : RosterKind) (label : Name) (start : ℕ) : Option ℕ :=
  let list := roster.keyList kind label
  match (list.filter fun i => roster.startAt i ≤ start).getLast? with
  | some i => if roster.startAt i = start then some i else list.getLast?
  | none => list.getLast?

def withdraw (roster : Roster) (kind : RosterKind) (label : Name) (start : ℕ) : Roster :=
  match roster.withdrawnBy kind label start with
  | none => roster
  | some i =>
    let live := (roster.keyList kind label).length - 1
    { roster with
      records := roster.records.modify i (fun record => { record with withdrawn := true }) ++
        [{ kind, label, start, live, before := some i }] }

/-- The log's last record popped; a declaration it withdrew stands again. -/
def pop (records : List Record) : List Record :=
  match records.getLast? with
  | some { before := some i, .. } =>
    records.dropLast.modify i fun record => { record with withdrawn := false }
  | _ => records.dropLast

/-- Every record after the first `count` popped, last first. -/
def rollback (roster : Roster) (count : ℕ) : Roster :=
  { roster with records := pop^[roster.records.length - count] roster.records }

/-- The labels of the anchors that stand and are seen. -/
def reserved (roster : Roster) : List Name :=
  (roster.records.filter fun record => record.kind = .anchor && roster.seen record).map (·.label)

end Roster

/-- A reading of the anchors' records in log order: where the next one is looked for, and how many
are left. -/
structure Cursor where
  position : ℕ
  left : ℕ
  deriving DecidableEq, Repr

/-- The cursor's next record before position `last` of the log, or none, with the cursor at `last`,
when none is left before it. `records` are the log's from the cursor on. -/
def nextBefore (last : ℕ) : List Record → Cursor → Option Record × Cursor
  | [], cursor => (none, { cursor with position := max cursor.position last })
  | record :: records, cursor =>
    if cursor.left ≠ 0 ∧ cursor.position < last then
      let position := cursor.position + 1
      if record.kind = .anchor then (some record, { position, left := cursor.left - 1 })
      else nextBefore last records { cursor with position }
    else (none, { cursor with position := max cursor.position last })

/-! ### The headings and the index of names -/

/-- `section`, the base of a heading whose inlines project to nothing. -/
def sectionName : Name := [115, 101, 99, 116, 105, 111, 110]

/-- What a heading's inlines project to, and whether its attributes write its anchor. -/
structure Projection where
  base : Name
  base_ne : base ≠ [] := by exact List.cons_ne_nil _ _
  authored : Bool := false
  deriving DecidableEq, Repr

/-- What no inlines project to. -/
def Projection.empty : Projection := { base := sectionName }

/-- A heading's entry, with what the headings read and write of its node: whether its inlines are
parsed, what they project to, and the anchor computed for it. `name` is the anchor the headings
computed, of which the first `baseSize` bytes are the base, none when it has none or its inlines
were made again since. -/
structure Heading extends Projection where
  start : ℕ
  parsed : Bool := false
  anchor : Option Name := none
  name : Option Name := none
  baseSize : ℕ := 0
  holdsName : Bool := false
  renamed : Bool := false
  deriving DecidableEq, Repr

/-- What the index holds of a name: the suffix a heading projecting to it tries next, and who takes
it, zero for an explicit anchor, a heading's place plus one otherwise. -/
structure Slot where
  value : ℕ
  extra : ℕ
  deriving DecidableEq, Repr

/-- An index of slots by name. -/
abbrev KeyIndex := AList fun _ : Name => Slot

/-- A pass over the names: the headings and those renamed, how many of them are committed, the
index it writes, and the committed names beneath it when that is an overlay. -/
structure NamePass where
  headings : List Heading
  renamed : List ℕ
  named : ℕ
  index : KeyIndex
  beneath : Option KeyIndex
  fresh : Bool

namespace NamePass

/-- The pass with another index. -/
def withIndex (pass : NamePass) (index : KeyIndex) : NamePass := { pass with index }

/-- The overlay's entry for `name`, which first takes the committed entry of a name it has none
for. -/
def overlayEntry (pass : NamePass) (committed : KeyIndex) (name : Name) : NamePass :=
  match pass.index.lookup name, committed.lookup name with
  | none, some slot => pass.withIndex (pass.index.insert name slot)
  | _, _ => pass

/-- The entry for `name`, in the index the pass writes from now on when it is occupied. -/
def nameEntry (pass : NamePass) (name : Name) : NamePass :=
  match pass.beneath with
  | some committed => pass.overlayEntry committed name
  | none => pass

/-- How many entries the pass can find occupied: a search along a sequence tries one more. -/
def occupied (pass : NamePass) : ℕ :=
  pass.index.keys.length + pass.beneath.elim 0 (·.keys.length)

def modify (pass : NamePass) (i : ℕ) (f : Heading → Heading) : NamePass :=
  { pass with headings := pass.headings.modify i f }

/-- Whether heading `i` is a committed one beneath an overlay. -/
def committed (pass : NamePass) (i : ℕ) : Bool := pass.beneath.isSome && i < pass.named

def renameCommitted (pass : NamePass) (i : ℕ) : NamePass :=
  match pass.headings[i]? with
  | none => pass
  | some heading =>
    if heading.renamed then pass
    else { pass.modify i (fun heading => { heading with renamed := true }) with
      renamed := pass.renamed ++ [i] }

end NamePass

namespace Heading

/-- The node shows `name`, where node and entry part: the bytes it showed before go, and those of a
committed name stay with the entry. -/
def showApart (heading : Heading) (name : Name) : Heading :=
  if heading.holdsName then { heading with anchor := some name }
  else if heading.name = some name then heading
  else { heading with anchor := some name, holdsName := heading.anchor.isSome }

/-- The node shows `name`, unless it shows the name of the entry and that is it. -/
def showName (heading : Heading) (name : Name) : Heading :=
  if heading.name = some name then heading else { heading with anchor := some name }

def keepName (heading : Heading) (name : Name) (baseSize : ℕ) : Heading :=
  { heading with name := some name, baseSize }

/-- The base of the name the entry keeps, or what the heading's inlines project to. -/
def namedFrom (heading : Heading) : Name :=
  match heading.name with
  | some name => name.take heading.baseSize
  | none => heading.base

/-- A committed heading the last snapshot renamed shows its committed name again. -/
def restoreName (heading : Heading) : Heading :=
  { heading with anchor := heading.name, holdsName := false }

/-- The committed name shown again, unless the snapshot under way renamed the heading. -/
def restoreUnrenamed (heading : Heading) : Heading :=
  if heading.holdsName && !heading.renamed then heading.restoreName else heading

/-- The mark of the snapshot under way cleared. -/
def clearRenamed (heading : Heading) : Heading := { heading with renamed := false }

/-- The name the entry holds let go: it names what its node shows. -/
def letGoName (heading : Heading) : Heading :=
  if heading.holdsName then { heading with name := heading.anchor, holdsName := false }
  else heading

end Heading

namespace NamePass

/-- Heading `i` takes the name where its node and its entry part: an overlay names a committed
heading, whose entry keeps its committed name, or the node shows the name a snapshot gave it. -/
def giveNameApart (pass : NamePass) (i : ℕ) (baseSize : ℕ) (name : Name) : NamePass :=
  let pass := pass.modify i (·.showApart name)
  if pass.committed i then pass.renameCommitted i
  else pass.modify i fun heading => { heading.keepName name baseSize with holdsName := false }

/-- Heading `i`, whose node and entry agree, takes the name. -/
def handName (pass : NamePass) (i : ℕ) (baseSize : ℕ) (name : Name) : NamePass :=
  pass.modify i fun heading => (heading.showName name).keepName name baseSize

/-- The entry of `name`, vacant or held by a later heading, names heading `i`'s. That later
heading, as its place plus one, or zero. -/
def claimName (pass : NamePass) (i : ℕ) (name : Name) : NamePass × ℕ :=
  match pass.index.lookup name with
  | some slot =>
    (pass.withIndex (pass.index.insert name { slot with extra := i + 1 }), slot.extra)
  | none => (pass.withIndex (pass.index.insert name { value := 1, extra := i + 1 }), 0)

/-- The suffix the entry of `base` keeps, which it advances. -/
def advance (pass : NamePass) (base : Name) : ℕ × NamePass :=
  match pass.index.lookup base with
  | some slot =>
    (slot.value, pass.withIndex (pass.index.insert base { slot with value := slot.value + 1 }))
  | none => (0, pass)

/-- The search of `takeLast`: from the candidate `name`, whose entry it found, to the first vacant
one. -/
def takeLastSearch : ℕ → NamePass → Name → Name → NamePass × Name
  | 0, pass, _, name => (pass, name)
  | fuel + 1, pass, base, name =>
    match pass.index.lookup name with
    | none => (pass, name)
    | some _ =>
      let (suffix, pass) := pass.advance base
      let name := appendAnchorSuffix base suffix
      takeLastSearch fuel (pass.nameEntry name) base name

/-- Heading `i`, after every heading the pass named, takes the first name of its sequence that is
vacant: its base, then the base with the suffix the base's entry keeps. -/
def takeLast (pass : NamePass) (i : ℕ) (base : Name) : NamePass :=
  let (pass, name) := takeLastSearch (pass.occupied + 2) (pass.nameEntry base) base base
  ((pass.handName i base.length name).claimName i name).1

/-- The search of `displace`: the first name past suffix `suffix` that is vacant or that a heading
after `i` holds. -/
def displaceSearch : ℕ → NamePass → ℕ → Name → ℕ → NamePass × Name
  | 0, pass, _, base, suffix => (pass, appendAnchorSuffix base suffix)
  | fuel + 1, pass, i, base, suffix =>
    let name := appendAnchorSuffix base (suffix + 1)
    let pass := pass.nameEntry name
    match pass.index.lookup name with
    | none => (pass, name)
    | some slot =>
      if slot.extra = 0 ∨ slot.extra ≤ i + 1 then displaceSearch fuel pass i base (suffix + 1)
      else (pass, name)

/-- Heading `i`, displaced from `name`, takes the first name past it in its sequence that is vacant
or that a later heading holds. That heading, as its place plus one, or zero, and the name. -/
def displaceStep (pass : NamePass) (i : ℕ) (heading : Heading) (name : Name) :
    (NamePass × ℕ) × Name :=
  let (pass, name) := displaceSearch (pass.occupied + 1) pass i (name.take heading.baseSize)
    (nameSuffix name heading.baseSize)
  let pass :=
    if heading.holdsName || pass.committed i then pass.giveNameApart i heading.baseSize name
    else pass.handName i heading.baseSize name
  (pass.claimName i name, name)

/-- Heading `i` displaced from `name`, and so on for each heading displaced in turn, each later than
the last. -/
def displace : ℕ → NamePass → ℕ → Name → NamePass
  | 0, pass, _, _ => pass
  | fuel + 1, pass, i, name =>
    match pass.headings[i]? with
    | none => pass
    | some heading =>
      match pass.displaceStep i heading name with
      | ((pass, 0), _) => pass
      | ((pass, holder + 1), name) => displace fuel pass holder name

/-- The record's name reserved: a vacant name becomes the record's, and one a heading holds is
taken from it, which goes on along its sequence. -/
def readRecord (roster : Roster) (pass : NamePass) (record : Record) : NamePass :=
  if pass.fresh && !roster.seen record then pass
  else if record.withdraws then
    if record.live = 0 then pass.withIndex (pass.index.erase record.label) else pass
  else
    let pass := pass.nameEntry record.label
    match pass.index.lookup record.label with
    | none => pass.withIndex (pass.index.insert record.label { value := 1, extra := 0 })
    | some slot =>
      match slot.extra with
      | 0 => pass
      | holder + 1 =>
        displace pass.headings.length
          (pass.withIndex (pass.index.insert record.label { slot with extra := 0 }))
          holder record.label

/-- The cursor's records before position `last` of the log, reserved in log order. -/
def readRecords (roster : Roster) (last : ℕ) : ℕ → NamePass → Cursor → NamePass × Cursor
  | 0, pass, cursor => (pass, cursor)
  | fuel + 1, pass, cursor =>
    match nextBefore last (roster.records.drop cursor.position) cursor with
    | (none, cursor) => (pass, cursor)
    | (some record, cursor) => readRecords roster last fuel (pass.readRecord roster record) cursor

/-- Heading `i` named, unless it authors its anchor. -/
def nameHeading (pass : NamePass) (i : ℕ) : NamePass :=
  match pass.headings[i]? with
  | none => pass
  | some heading =>
    if heading.authored then pass else pass.takeLast i heading.namedFrom

/-- The headings from `first` to `last` named, each after every heading the pass named before. -/
def nameHeadings (pass : NamePass) (first last : ℕ) : NamePass :=
  (List.range' first (last - first)).foldl nameHeading pass

end NamePass

/-! ### The headings of one parse -/

/-- What a commit or a mark keeps of the parse: the roster's length, and the headings closed and
parsed. -/
structure Kept where
  records : ℕ
  count : ℕ
  parsed : ℕ
  deriving DecidableEq, Repr

/-- The heading element's parse record: the headings closed, of which the first `count` are the
reading's and the first `parsed` of those are parsed and in source order; the committed names; where
the reading of the roster's records stands and how many it read; how many headings are named; and
the committed headings that show another name. -/
structure HeadingState where
  count : ℕ := 0
  parsed : ℕ := 0
  headings : List Heading := []
  taken : KeyIndex := ∅
  recordsAt : ℕ := 0
  recordsRead : ℕ := 0
  named : ℕ := 0
  renamed : List ℕ := []

namespace HeadingState

/-- A reading put back to a mark left the entries past its count. -/
def sync (state : HeadingState) : HeadingState :=
  { state with headings := state.headings.take state.count }

/-- A heading that starts at `start` closes. -/
def closeHeading (state : HeadingState) (start : ℕ) : HeadingState :=
  let state := state.sync
  { state with headings := state.headings ++ [{ toProjection := .empty, start }], count := state.count + 1 }

/-- The inline content of every heading that settled since the last completion is parsed, those not
yet parsed put in source order first. -/
def headingsPrepare (state : HeadingState) (settled : ℕ → Bool) (project : ℕ → Projection) :
    HeadingState :=
  let state := state.sync
  let entries := (state.headings.drop state.parsed).mergeSort fun a b => a.start ≤ b.start
  let entries := entries.map fun heading =>
    if heading.parsed || !settled heading.start then heading
    else { toProjection := project heading.start, start := heading.start, parsed := true }
  { state with
    headings := state.headings.take state.parsed ++ entries
    parsed := state.parsed + (entries.takeWhile (·.parsed)).length }

/-- Heading `i` parsed again: the anchor the headings computed for it stays while its attributes
write none, and its entry forgets its name. -/
def reparseInlines (state : HeadingState) (i : ℕ) (projection : Projection) : HeadingState :=
  { state with
    headings := state.headings.modify i fun heading =>
      { heading with
        toProjection := projection
        anchor := if projection.authored then none else heading.anchor
        name := none, holdsName := false } }

/-- The reading put back to a mark: the headings the mark found, and those it found not parsed as
it found them. -/
def putBack (state : HeadingState) (kept : Kept) : HeadingState :=
  { state with
    count := kept.count
    parsed := kept.parsed
    headings := state.headings.take kept.parsed ++
      ((state.headings.take kept.count).drop kept.parsed).map fun heading =>
        { heading with parsed := false, anchor := none } }

/-- The committed names let go, for a pass that starts empty: an entry that holds its committed name
names what its node shows. -/
def namesReset (state : HeadingState) : HeadingState :=
  { state with
    headings := state.renamed.foldl (fun headings i => headings.modify i Heading.letGoName)
      state.headings
    renamed := [], taken := ∅, recordsAt := 0, recordsRead := 0, named := 0 }

/-- The committed names with an overlay over them, in which no name is taken yet. -/
def overlayPass (state : HeadingState) : NamePass :=
  { headings := state.headings, renamed := state.renamed, named := state.named, index := ∅,
    beneath := some state.taken, fresh := false }

/-- The snapshot's tail, its records and then its headings, named in the overlay. -/
def nameTail (state : HeadingState) (roster : Roster) (cursor : Cursor) : NamePass :=
  (state.overlayPass.readRecords roster roster.records.length (cursor.left + 1) cursor).1.nameHeadings
    state.named state.count

/-- The snapshot's tail named over the committed names; then each committed heading the last
snapshot renamed and this one did not shows its committed name again. -/
def nameSnapshot (state : HeadingState) (roster : Roster) (cursor : Cursor) : HeadingState :=
  let pass := state.nameTail roster cursor
  let headings := state.renamed.foldl (fun headings i =>
    headings.modify i Heading.restoreUnrenamed) pass.headings
  let renamed := pass.renamed.drop state.renamed.length
  { state with
    headings := renamed.foldl (fun headings i => headings.modify i Heading.clearRenamed) headings
    renamed }

/-- How many headings from `first` to `last` there are before the first that does not author its
anchor. -/
def authoredFrom (state : HeadingState) (first last : ℕ) : ℕ :=
  (((state.headings.take last).drop first).takeWhile (·.authored)).length

/-- The committed names moved on: the records before `records` of the log reserved, then the
headings before `committed` named. The cursor left goes on to the snapshot's records. -/
def nameCommitted (state : HeadingState) (roster : Roster) (fresh : Bool) (records committed : ℕ) :
    HeadingState × Cursor :=
  let total := roster.records.countP (·.kind = .anchor)
  let cursor : Cursor := { position := state.recordsAt, left := total - state.recordsRead }
  let pass : NamePass :=
    { headings := state.headings, renamed := state.renamed, named := state.named,
      index := state.taken, beneath := none, fresh }
  let (pass, cursor) := pass.readRecords roster records (cursor.left + 1) cursor
  let pass := pass.nameHeadings state.named committed
  ({ state with
      headings := pass.headings, taken := pass.index, recordsAt := cursor.position,
      recordsRead := total - cursor.left, named := committed }, cursor)

/-- Until some heading asks for a name, those that author their anchors count as named. -/
def skipAuthored (state : HeadingState) (committed : ℕ) : HeadingState :=
  if state.taken.keys = [] then
    { state with named := state.named + state.authoredFrom state.named committed }
  else state

/-- Whether no name is taken and no heading asks for one. -/
def asksNone (state : HeadingState) : Bool :=
  state.taken.keys = [] && state.named + state.authoredFrom state.named state.count = state.count

/-- Each heading's anchor. A snapshot, which `kept` is some for, moves the committed names on and
names the rest over them; the finalize names everything from an empty index. Until some heading asks
for a name, no record is read. -/
def headingsFinish (state : HeadingState) (roster : Roster) (kept : Option Kept) : HeadingState :=
  let state := state.sync
  let committed := kept.elim state.count (·.parsed)
  let records := kept.elim roster.records.length (·.records)
  let state := if kept.isSome then state else state.namesReset
  let state := state.skipAuthored committed
  if state.asksNone then state
  else
    let (state, cursor) := state.nameCommitted roster kept.isNone records committed
    if kept.isSome then state.nameSnapshot roster cursor else state

/-- The anchors the headings compute for the document to show, in order: none for a heading that
authors its own. -/
def shown (state : HeadingState) : List (Option Name) :=
  (state.headings.take state.count).map fun heading =>
    if heading.authored then none else heading.anchor

/-- What each heading asks to be named from, in order. -/
def bases (state : HeadingState) : List (Option Name) :=
  (state.headings.take state.count).map fun heading =>
    if heading.authored then none else some heading.base

end HeadingState

end MarkdownCore
