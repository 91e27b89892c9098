import Mathlib.Logic.Function.Basic
import MarkdownCore.Library.Links
import MarkdownCore.Library.Zipper

/-!
# The roster

What a parse declares, as one log in the order the parse made it, an index of each key's
declarations in the order of where they start, and, once an edit reads the parse again, each kind's
declarations in that order about the edit. A record is its position in the log. Storage is had
whenever it is asked for.
-/

namespace MarkdownCore.Declarations

/-- `markdown_core_roster_kind`. -/
inductive Kind where
  | reference
  | footnote
  | specimen
  | anchor
deriving DecidableEq

abbrev Label := List UInt8

/-- A kind's byte, then a label. -/
abbrev Key := Kind × Label

/-- `markdown_core_roster_record`. -/
structure Record where
  /-- In a key's list, the declaration before and the one after it, the first's `before` the last;
  and, in the first, where a search of the list begins. A withdrawal's `before` is the declaration
  it withdrew. -/
  before : Option ℕ
  after : Option ℕ
  hint : Option ℕ
  start : ℕ
  live : ℕ
  key : Key
  withdraws : Bool
  linked : Bool
  withdrawn : Bool
  back : Bool
  gone : Bool
deriving DecidableEq

/-- `markdown_core_roster_place`. -/
structure Place where
  start : ℕ
  record : ℕ
deriving DecidableEq

/-- `S_place_flip`, `S_place_start`. -/
def places : Places Place where
  start place := place.start
  flip place size := { place with start := size - place.start }
  Within size place := place.start ≤ size
  start_le h := h
  start_flip _ := rfl
  flip_flip {n place} h := by
    cases place
    simp only [Place.mk.injEq, and_true]
    exact Nat.sub_sub_self h
  within_flip _ := Nat.sub_le _ _

/-- `markdown_core_roster_space`. -/
structure Space where
  records : ℕ
  indexed : ℕ
  cursor : ℕ
  places : Zipper Place

/-- `markdown_core_roster`. The index is the key index's map, a key's first declaration and how many
its list holds; `lost` is a list of keys. -/
structure Roster where
  records : ℕ → Record
  count : ℕ
  spaces : Kind → Space
  index : Key → Option (ℕ × ℕ)
  placed : Bool
  hidden : Bool
  bytes : ℕ
  dead : ℕ
  lost : List Key

/-- `markdown_core_roster_mark`. -/
structure Mark where
  count : ℕ
  bytes : ℕ
  dead : ℕ

/-- The record of fresh storage. -/
def Record.zero : Record where
  before := none
  after := none
  hint := none
  start := 0
  live := 0
  key := (.reference, [])
  withdraws := false
  linked := false
  withdrawn := false
  back := false
  gone := false

/-- `markdown_core_roster_stands`. -/
def Record.stands (record : Record) : Bool :=
  !record.withdraws && !record.withdrawn && !record.gone

/-- `S_record_size`, of a label. -/
def recordSize (label : Label) : ℕ := (48 + label.length + 2 + 15) / 16 * 16

/-- `S_precedes`. -/
def precedes (left right : Record) : Bool :=
  if left.back ≠ right.back then !left.back
  else if left.back then left.start > right.start
  else left.start < right.start

namespace Roster

/-- `markdown_core_roster_init`. -/
def init : Roster where
  records _ := .zero
  count := 0
  spaces _ := ⟨0, 0, 0, ⟨[], [], 0⟩⟩
  index _ := none
  placed := false
  hidden := false
  bytes := 0
  dead := 0
  lost := []

variable (r : Roster)

/-! ### What the functions write -/

def modify (id : ℕ) (f : Record → Record) : Roster :=
  { r with records := Function.update r.records id (f (r.records id)) }

def modifySpace (kind : Kind) (f : Space → Space) : Roster :=
  { r with spaces := Function.update r.spaces kind (f (r.spaces kind)) }

def setIndex (key : Key) (slot : Option (ℕ × ℕ)) : Roster :=
  { r with index := Function.update r.index key slot }

/-! ### A key's list -/

/-- `S_prior`. -/
def prior (first at_ : ℕ) : Option ℕ := if at_ = first then none else (r.records at_).before

/-- The search of a list from its hint, on while a test holds or back until it does. -/
def search (first : ℕ) (p : ℕ → Bool) : Option ℕ :=
  ((r.records first).hint.or (r.records first).before).bind fun at_ =>
    if p at_ then some (Links.forward (fun id => (r.records id).after) p (r.count + 1) at_)
    else Links.backward (r.prior first) p (r.count + 1) (some at_)

/-- A declaration that its key's list is to hold. -/
def hold (id : ℕ) : Roster :=
  r.modify id fun record => { record with linked := true, after := none }

/-- A declaration alone in its key's list, in a slot new to the index. -/
def linkAlone (id : ℕ) (key : Key) : Roster :=
  (r.modify id fun record => { record with before := some id, hint := some id }).setIndex key
    (some (id, 1))

/-- A declaration joins its key's list before the first. -/
def linkFirst (id first count : ℕ) (key : Key) : Roster :=
  let last := (r.records first).before
  let r := r.modify id fun record =>
    { record with after := some first, before := last, hint := some id }
  let r := r.modify first fun record => { record with before := some id, hint := none }
  r.setIndex key (some (id, count + 1))

/-- A declaration joins its key's list after another. -/
def linkAfter (id first count : ℕ) (key : Key) (at_ : ℕ) : Roster :=
  let after := (r.records at_).after
  let r := r.modify id fun record => { record with before := some at_, after, hint := none }
  let r := r.modify (after.getD first) fun record => { record with before := some id }
  let r := r.modify at_ fun record => { record with after := some id }
  let r := r.modify first fun record => { record with hint := some id }
  r.setIndex key (some (first, count + 1))

/-- `S_link`, in the slot of the record's key. -/
def link (id : ℕ) : Roster :=
  let key := (r.records id).key
  let r := r.hold id
  match r.index key with
  | none => r.linkAlone id key
  | some (first, count) =>
    match r.search first fun at_ => !precedes (r.records id) (r.records at_) with
    | none => r.linkFirst id first count key
    | some at_ => r.linkAfter id first count key at_

/-- A list's first declaration leaves it. -/
def unlinkFirst (id count : ℕ) (key : Key) (hint : Option ℕ) : Roster :=
  match (r.records id).after with
  | none => r
  | some next =>
    (r.modify next fun record => { record with before := (r.records id).before, hint }).setIndex key
      (some (next, count - 1))

/-- A list's declaration after another leaves it. -/
def unlinkAfter (id first count : ℕ) (key : Key) (prior hint : Option ℕ) : Roster :=
  let after := (r.records id).after
  let r := r.modify first fun record => { record with hint }
  match prior with
  | none => r
  | some prior =>
    ((r.modify prior fun record => { record with after }).modify (after.getD first) fun record =>
      { record with before := some prior }).setIndex key (some (first, count - 1))

/-- `S_unlink`. -/
def unlink (id : ℕ) : Roster :=
  let key := (r.records id).key
  match r.index key with
  | none => r
  | some (first, count) =>
    let r := r.modify id fun record => { record with linked := false }
    if count - 1 = 0 then r.setIndex key none
    else
      let prior := r.prior first id
      let hint := prior.or (r.records id).after
      if id = first then r.unlinkFirst id count key hint
      else r.unlinkAfter id first count key prior hint

/-! ### Records -/

/-- `markdown_core_roster_start`. -/
def start (id : ℕ) : ℕ :=
  let record := r.records id
  if record.back then (r.spaces record.key.1).places.size - record.start else record.start

/-- `S_append`. -/
def append (kind : Kind) (label : Label) (start : ℕ) (withdraws : Bool) : Roster :=
  { r.modifySpace kind fun space => { space with records := space.records + 1 } with
    records := Function.update r.records r.count
      { Record.zero with key := (kind, label), start, withdraws }
    count := r.count + 1
    bytes := r.bytes + recordSize label }

/-- `S_front_after`. -/
def frontAfter (z : Zipper Place) (start : ℕ) : ℕ := z.frontFrom places (start + 1)

/-- `markdown_core_roster_declare`. -/
def declare (kind : Kind) (label : Label) (start : ℕ) : Roster :=
  if label = [] then r
  else if !r.placed then r.append kind label start false
  else
    (r.append kind label start false).modifySpace kind fun space =>
      { space with places := space.places.insert (frontAfter space.places start) ⟨start, r.count⟩ }

/-- One turn of the loop of `S_index_space`. -/
def takeRecord (kind : Kind) : Roster :=
  let id := (r.spaces kind).cursor
  let r := r.modifySpace kind fun space => { space with cursor := space.cursor + 1 }
  if (r.records id).key.1 ≠ kind then r
  else
    let r := r.modifySpace kind fun space => { space with indexed := space.indexed + 1 }
    if (r.records id).stands then r.link id else r

/-- The loop of `S_index_space`. -/
def takeRecords (kind : Kind) : ℕ → Roster → Roster
  | 0, r => r
  | fuel + 1, r =>
    if (r.spaces kind).indexed < (r.spaces kind).records then takeRecords kind fuel (r.takeRecord kind)
    else r

/-- `S_index_space`. -/
def indexSpace (kind : Kind) : Roster :=
  (takeRecords kind r.count r).modifySpace kind fun space => { space with cursor := r.count }

/-! ### Lookups -/

/-- The end of `S_first`. -/
def first (key : Key) : Option ℕ :=
  (r.index key).bind fun slot =>
    if (r.records slot.1).back && r.hidden then none else some slot.1

/-- `markdown_core_roster_find`. -/
def find (kind : Kind) (label : Label) : Roster × Option ℕ :=
  if label = [] ∨ (r.spaces kind).records = 0 then (r, none)
  else
    let r := r.indexSpace kind
    (r, r.first (kind, label))

/-- `MAX_LINK_LABEL_LENGTH`. -/
def maxLabel : ℕ := 1000

/-- `markdown_core_roster_find_label`, by the normal form of labels. -/
def findLabel (normalize : Label → Label) (kind : Kind) (label : Label) : Roster × Option ℕ :=
  if label = [] ∨ maxLabel < label.length ∨ (r.spaces kind).records = 0 then (r, none)
  else if normalize label = [] then (r, none)
  else
    let r := r.indexSpace kind
    (r, r.first (kind, normalize label))

/-! ### Withdrawals -/

/-- The declaration a withdrawal withdraws: the last that starts where it does, or the key's last. -/
def withdrawn (first start : ℕ) : Option ℕ :=
  ((r.search first fun at_ => r.start at_ ≤ start).filter fun at_ => r.start at_ = start).or
    (r.records first).before

/-- `markdown_core_roster_withdraw`; nothing is answered where its assertion fails. -/
def withdraw (kind : Kind) (label : Label) (start : ℕ) : Option Roster :=
  let r := r.indexSpace kind
  (r.index (kind, label)).bind fun slot =>
    (r.withdrawn slot.1 start).map fun withdrawn =>
      let id := r.count
      let r := (r.append kind label start true).modify id fun record =>
        { record with before := some withdrawn, live := slot.2 - 1 }
      let r := (r.unlink withdrawn).modify withdrawn fun record => { record with withdrawn := true }
      let dead := recordSize label + recordSize (r.records withdrawn).key.2
      { r with dead := r.dead + dead }.modifySpace kind fun space =>
        { space with indexed := space.indexed + 1, cursor := r.count }

/-! ### Rollback -/

/-- `markdown_core_roster_mark_now`. -/
def markNow : Mark := ⟨r.count, r.bytes, r.dead⟩

/-- Where the front holds the place of a record that starts at or past a place. -/
def placeOf (z : Zipper Place) (start id : ℕ) : ℕ :=
  let at_ := z.frontFrom places start
  at_ + (z.front.drop at_).findIdx fun place => place.record = id

/-- `S_unplace`. -/
def unplace (id : ℕ) : Roster :=
  r.modifySpace (r.records id).key.1 fun space =>
    { space with places := space.places.erase (placeOf space.places (r.records id).start id) }

/-- One turn of the loop of `markdown_core_roster_rollback`. -/
def popRecord : Roster :=
  let id := r.count - 1
  let record := r.records id
  let r := { r with count := id }.modifySpace record.key.1 fun space =>
    { space with
      records := space.records - 1
      indexed := if id < space.cursor then space.indexed - 1 else space.indexed }
  if record.withdraws then
    match record.before with
    | none => r
    | some withdrawn =>
      (r.modify withdrawn fun record => { record with withdrawn := false }).link withdrawn
  else
    let r := if record.linked then r.unlink id else r
    if r.placed then r.unplace id else r

/-- The loop of `markdown_core_roster_rollback`. -/
def popRecords : ℕ → Roster → Roster
  | 0, r => r
  | n + 1, r => popRecords n r.popRecord

/-- `markdown_core_roster_rollback`. -/
def rollback (mark : Mark) : Roster :=
  let r := popRecords (r.count - mark.count) r
  { r with
    spaces := fun kind => { r.spaces kind with cursor := min (r.spaces kind).cursor r.count }
    bytes := mark.bytes
    dead := mark.dead }

end Roster

end MarkdownCore.Declarations
