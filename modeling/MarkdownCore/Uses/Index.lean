import Mathlib.Data.List.Destutter
import Mathlib.Data.List.Sort
import Mathlib.Logic.Function.Basic
import MarkdownCore.Library.Zipper
import MarkdownCore.Roster.Roster

/-!
# The uses' index

An inline root's lookups are its uses: each use is of a label, as written, and stands where the root
starts, in the front of a zipper or, measured from the text's end, in its back. The index, made at
the first lookup of the uses of altered labels, holds a note of each use under the name the roster
keys its label by, the notes of one name linked. What it answers is where the noted uses of some
names start that start in some spans.

Storage is had whenever it is asked for.
-/

namespace MarkdownCore.Uses

open Declarations (Kind Label Key)

/-- Where a use's label is: among the labels as written, or in the index, whose note of the use is
named. -/
inductive UseLabel where
  | written (label size : ℕ)
  | noted (id : ℕ)
deriving DecidableEq

/-- `markdown_core_use`. -/
structure Use where
  start : ℕ
  label : UseLabel
  kind : Kind
deriving DecidableEq

/-- `S_use_flip`, `S_use_start`. -/
def places : Places Use where
  start use := use.start
  flip use size := { use with start := size - use.start }
  Within size use := use.start ≤ size
  start_le h := h
  start_flip _ := rfl
  flip_flip {n use} h := by
    cases use
    simp only [Use.mk.injEq, and_true]
    exact Nat.sub_sub_self h
  within_flip _ := Nat.sub_le _ _

/-- `markdown_core_use_name`. -/
structure UseName where
  first : Option ℕ
  count : ℕ
deriving DecidableEq

/-- `markdown_core_use_note`; one let go has no name. -/
structure UseNote where
  name : Option Key
  start : ℕ
  next : Option ℕ
  prior : Option ℕ
  back : Bool
deriving DecidableEq, Inhabited

/-- The uses of `markdown_core_edit` and their index. The names are the key index's map. -/
structure UseIndex where
  uses : Zipper Use
  labels : List UInt8
  live : ℕ
  usesFrom : ℕ
  names : Key → Option UseName
  notes : ℕ → UseNote
  noteCount : ℕ
  spare : Option ℕ
  indexed : Bool

/-- An edit that noted nothing yet. -/
def empty (size : ℕ) : UseIndex :=
  { uses := ⟨[], [], size⟩
    labels := []
    live := 0
    usesFrom := 0
    names := fun _ => none
    notes := fun _ => default
    noteCount := 0
    spare := none
    indexed := false }

/-- The note before another of its name. -/
def setPrior (notes : ℕ → UseNote) (id : ℕ) : Option ℕ → ℕ → UseNote
  | some first => Function.update notes first { notes first with prior := some id }
  | none => notes

namespace UseIndex

/-- The uses before the focus, or those past it. -/
def part (e : UseIndex) (back : Bool) : List Use := if back then e.uses.back else e.uses.front

def setPart (e : UseIndex) (back : Bool) (uses : List Use) : UseIndex :=
  { e with uses := if back then { e.uses with back := uses } else { e.uses with front := uses } }

/-- `S_use`. -/
def use (e : UseIndex) (start : ℕ) (kind : Kind) (label : Label) : UseIndex :=
  { e with
    uses := { e.uses with
      front := e.uses.front ++ [⟨start, .written e.labels.length label.length, kind⟩] }
    labels := e.labels ++ label
    live := e.live + label.length }

variable (normalize : Label → Label)

/-- `S_use_name` of a use whose label is `size` bytes at `label`. -/
def useName (e : UseIndex) (kind : Kind) (label size : ℕ) : Key :=
  let bytes := (e.labels.drop label).take size
  (kind, if kind = .specimen then bytes else normalize bytes)

/-- `S_use_note`: the index with a note of a use, and the note's number. -/
def note (e : UseIndex) (name : Key) (start size : ℕ) (back : Bool) : UseIndex × ℕ :=
  let held := (e.names name).getD ⟨none, 0⟩
  let id := e.spare.getD e.noteCount
  let noted := Function.update e.notes id ⟨some name, start, held.first, none, back⟩
  ({ e with
      noteCount := if e.spare.isNone then e.noteCount + 1 else e.noteCount
      spare := e.spare.bind fun spare => (e.notes spare).next
      notes := setPrior noted id held.first
      names := Function.update e.names name (some ⟨some id, held.count + 1⟩)
      live := e.live - size }, id)

/-- The use at `i` of a part put in the index, unless the index holds it. -/
def noteAt (back : Bool) (e : UseIndex) (i : ℕ) : UseIndex :=
  match (e.part back)[i]? with
  | some ⟨start, .written label size, kind⟩ =>
    let noted := e.note (e.useName normalize kind label size) start size back
    noted.1.setPart back ((e.part back).set i ⟨start, .noted noted.2, kind⟩)
  | _ => e

/-- `S_uses_index`. -/
def makeIndex (e : UseIndex) : UseIndex :=
  let front := (List.range e.uses.front.length).foldl (noteAt normalize false) e
  let both := (List.range front.uses.back.length).foldl (noteAt normalize true) front
  { both with indexed := true }

/-- The notes from one on, by their links. The first argument bounds them. -/
def noteIds (e : UseIndex) : ℕ → Option ℕ → List ℕ
  | 0, _ => []
  | _, none => []
  | fuel + 1, some id => id :: e.noteIds fuel (e.notes id).next

/-- Where the root of a note's use starts. -/
def noteStart (e : UseIndex) (id : ℕ) : ℕ :=
  if (e.notes id).back then e.uses.size - (e.notes id).start else (e.notes id).start

end UseIndex

/-- `S_spans_hold`. -/
def spansHold (spans : List (ℕ × ℕ)) (place : ℕ) : Bool :=
  let low := Bisect.bisect (fun i => decide ((spans.getD i default).2 ≤ place)) spans.length 0
    spans.length
  decide (low < spans.length) && decide ((spans.getD low default).1 ≤ place)

/-- Where the uses of a name start. -/
def UseIndex.startsOf (e : UseIndex) (name : Key) : List ℕ :=
  match e.names name with
  | none => []
  | some held => (e.noteIds e.noteCount held.first).map e.noteStart

/-- `markdown_core_parser_uses_of`: the index, made if it was not, and one past where each use of an
altered label starts that starts in a span. -/
def usesOf (normalize : Label → Label) (e : UseIndex) (altered : List Key)
    (spans : List (ℕ × ℕ)) : UseIndex × List ℕ :=
  if altered = [] then (e, [])
  else
    let e := if e.indexed then e else e.makeIndex normalize
    let found := altered.flatMap fun name => (e.startsOf name).filter (spansHold spans)
    (e, ((found.map (· + 1)).insertionSort (· ≤ ·)).destutter (· ≠ ·))

/-! ### What the index holds -/

/-- The notes linked from one, in order. -/
def Linked (notes : ℕ → UseNote) : Option ℕ → List ℕ → Prop
  | first, [] => first = none
  | first, id :: ids => first = some id ∧ Linked notes (notes id).next ids

namespace UseIndex

/-- The index holds one note of each use that names one, under the use's name and where the use
starts, and the notes of one name are those linked from it. -/
structure Ok (e : UseIndex) : Prop where
  linked : ∀ name, ∃ ids, Linked e.notes ((e.names name).bind UseName.first) ids ∧ ids.Nodup ∧
    ∀ id, id ∈ ids ↔ id < e.noteCount ∧ (e.notes id).name = some name
  spared : ∃ ids, Linked e.notes e.spare ids ∧ ids.Nodup ∧
    ∀ id ∈ ids, id < e.noteCount ∧ (e.notes id).name = none
  noted : ∀ back, ∀ use ∈ e.part back, ∀ id, use.label = .noted id →
    id < e.noteCount ∧ (e.notes id).name.isSome = true ∧ (e.notes id).start = use.start ∧
      (e.notes id).back = back
  owned : ∀ id < e.noteCount, (e.notes id).name.isSome = true →
    ∃ use ∈ e.part (e.notes id).back, use.label = .noted id
  written : ∀ back, ∀ use ∈ e.part back, ∀ label size, use.label = .written label size →
    label + size ≤ e.labels.length
  usesFrom_le : e.usesFrom ≤ e.uses.front.length
  /-- Once made, the index holds every use but those a reading noted since. -/
  held : e.indexed = true → ∀ (back : Bool) (i : ℕ) (use : Use), (e.part back)[i]? = some use →
    back = true ∨ i < e.usesFrom → ∃ id, use.label = .noted id

/-- The name of a use, which the index holds once its label is gone. -/
def nameOf (normalize : Label → Label) (e : UseIndex) (use : Use) : Option Key :=
  match use.label with
  | .written label size => some (e.useName normalize use.kind label size)
  | .noted id => (e.notes id).name

/-- Each use's name and where its root starts. -/
def entries (normalize : Label → Label) (e : UseIndex) : List (Option Key × ℕ) :=
  e.uses.front.map (fun use => (e.nameOf normalize use, use.start)) ++
    e.uses.back.map fun use => (e.nameOf normalize use, e.uses.size - use.start)

end UseIndex

/-- Spans in order, each ending no earlier than it starts. -/
def OrderedSpans (spans : List (ℕ × ℕ)) : Prop :=
  (∀ span ∈ spans, span.1 ≤ span.2) ∧ spans.Pairwise fun a b => a.2 ≤ b.1

end MarkdownCore.Uses
