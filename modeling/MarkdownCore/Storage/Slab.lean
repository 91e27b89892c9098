import Mathlib.Algebra.Order.Ring.Nat
import Mathlib.Data.List.Nodup
import Mathlib.Data.List.Perm.Basic
import Mathlib.Logic.Function.Basic

/-!
# Slots cut from slabs

Slots of one size and storage of varied sizes, cut from the slabs of one pool or taken from the
allocator one by one. A slot's header names the slab it came from; a slab counts what holds it and
is freed with its last hold. Released slots are linked through their first bytes. Reading a block
that is not there, or past its end, gives `none`.
-/

namespace MarkdownCore.Slab

/-- An address: a block of the allocator's, and how far into it. -/
structure Place where
  block : ℕ
  offset : ℕ
deriving DecidableEq

/-- A block of the allocator's; a slab's begins with its hold count. -/
structure Block where
  bytes : ℕ
  holds : ℕ

/-- A slot's header: the slab it came from, or `none` for a slot of its own, and its size class.
The header of a slot of the pool's one size has no class: 0. -/
structure Header where
  slab : Option ℕ
  sizeClass : ℕ

/-- `sizeof(markdown_core_slab)`. -/
def slabHead : ℕ := 16

/-- `sizeof(markdown_core_slot_header)` and `sizeof(markdown_core_bytes_header)`. -/
def slotHeader : ℕ := 16

/-- `MARKDOWN_CORE_BYTES_CLASS`. -/
def classBytes : ℕ := 16

/-- `MARKDOWN_CORE_BYTES_CLASSES`. -/
def classes : ℕ := 32

/-- `MARKDOWN_CORE_SLOT_STRIDE`. -/
def slotStride (bytes : ℕ) : ℕ :=
  slotHeader + (bytes + slotHeader - 1) / slotHeader * slotHeader

/-- The constants a pool's code passes to every call. An object has room for the link a released
one holds, and a slab for any slot. -/
structure Sizes where
  bytes : ℕ
  slabBytes : ℕ
  link_le : 8 ≤ bytes
  slab_lt : slabBytes < 2 ^ 64
  slot_fits : slabHead + slotStride bytes ≤ slabBytes
  class_fits : slabHead + (slotHeader + classes * classBytes) ≤ slabBytes

/-- What the allocator has given, and has back. -/
structure Allocator where
  blocks : ℕ → Option Block
  fresh : ℕ
  freed : List ℕ

/-- A slot that was cut or allocated, with the bytes of storage it has. -/
structure Slot where
  place : Place
  room : ℕ

/-- The slabs, where the next slot is cut from the current one, and the headers written. `slabs`
and `slots`, what was ever made and cut, are for counting only. -/
structure Cutting where
  slabs : List ℕ
  current : Option ℕ
  cut : ℕ
  stop : ℕ
  header : Place → Header
  slots : List Slot

/-- Storage a caller has: of a size it asked for, or of the pool's one size. -/
structure Storage where
  place : Place
  sized : Bool
  asked : ℕ

/-- A slab pool with its bytes pool, and the storage callers have. The slab pool's released slots
are listed from `released 0`, and those of size class `c` of the bytes pool from `released c`. -/
structure Pools where
  alloc : Allocator
  cutting : Cutting
  link : Place → Option Place
  released : ℕ → Option Place
  live : List Storage

namespace Allocator

/-- `markdown_core_realloc` of fresh storage, when it can be had. -/
def take (a : Allocator) (had : Bool) (bytes : ℕ) : Option (ℕ × Allocator) :=
  if had then
    some (a.fresh, { a with
      blocks := Function.update a.blocks a.fresh (some ⟨bytes, 0⟩), fresh := a.fresh + 1 })
  else none

/-- `markdown_core_free`. -/
def free (a : Allocator) (block : ℕ) : Option Allocator :=
  (a.blocks block).map fun _ =>
    { a with blocks := Function.update a.blocks block none, freed := block :: a.freed }

/-- A hold count written. -/
def setHolds (a : Allocator) (slab holds : ℕ) : Option Allocator :=
  (a.blocks slab).map fun block =>
    { a with blocks := Function.update a.blocks slab (some { block with holds }) }

/-- `markdown_core_slab_drop`; a count of none has no hold to drop. -/
def drop (a : Allocator) : Option ℕ → Option Allocator
  | none => some a
  | some slab =>
    (a.blocks slab).bind fun block =>
      match block.holds with
      | 0 => none
      | 1 => a.free slab
      | holds + 2 => a.setHolds slab (holds + 1)

end Allocator

namespace Pools

/-- Both pools zeroed, and nothing taken. -/
def empty : Pools where
  alloc := ⟨fun _ => none, 0, []⟩
  cutting := ⟨[], none, 0, 0, fun _ => ⟨none, 0⟩, []⟩
  link := fun _ => none
  released := fun _ => none
  live := []

variable (sizes : Sizes)

/-- `markdown_core_slab_pool_grow`: whether there is a slab to take from then. -/
def grow (s : Pools) (had : Bool) : Option (Bool × Pools) :=
  match s.alloc.take had sizes.slabBytes with
  | none => some (false, s)
  | some (slab, alloc) =>
    (alloc.setHolds slab 1).bind fun alloc =>
      (alloc.drop s.cutting.current).map fun alloc =>
        (true, { s with
          alloc
          cutting := { s.cutting with
            slabs := slab :: s.cutting.slabs, current := some slab, cut := slabHead,
            stop := sizes.slabBytes } })

/-- `markdown_core_slab_room`. -/
def room (s : Pools) (stride : ℕ) : Bool := stride ≤ s.cutting.stop - s.cutting.cut

/-- `markdown_core_slab_next`: a slot cut from the current slab, of a class and with storage for
some bytes, and the place of its storage. -/
def next (s : Pools) (stride sizeClass bytes : ℕ) : Option (Place × Pools) :=
  s.cutting.current.bind fun slab =>
    (s.alloc.blocks slab).bind fun block =>
      if block.bytes < s.cutting.cut + stride then none
      else
        let place : Place := ⟨slab, s.cutting.cut + slotHeader⟩
        (s.alloc.setHolds slab (block.holds + 1)).map fun alloc =>
          (place, { s with
            alloc
            cutting := { s.cutting with
              cut := s.cutting.cut + stride
              header := Function.update s.cutting.header place ⟨some slab, sizeClass⟩
              slots := ⟨place, bytes⟩ :: s.cutting.slots } })

/-- A slot of its own from the allocator. -/
def own (s : Pools) (had : Bool) (bytes sizeClass : ℕ) : Option Place × Pools :=
  match s.alloc.take had ((slotHeader + bytes) % 2 ^ 64) with
  | none => (none, s)
  | some (block, alloc) =>
    let place : Place := ⟨block, slotHeader⟩
    (some place, { s with
      alloc
      cutting := { s.cutting with
        header := Function.update s.cutting.header place ⟨none, sizeClass⟩
        slots := ⟨place, bytes⟩ :: s.cutting.slots } })

/-- A header read, where there is a block to read. -/
def headerAt (s : Pools) (place : Place) : Option Header :=
  (s.alloc.blocks place.block).map fun _ => s.cutting.header place

/-- The link a released slot holds. -/
def linkAt (s : Pools) (place : Place) : Option (Option Place) :=
  (s.alloc.blocks place.block).map fun _ => s.link place

/-- A slot of a list's, or one cut from the current slab or from a new one. -/
def pooled (s : Pools) (had : Bool) (list stride bytes : ℕ) : Option (Option Place × Pools) :=
  match s.released list with
  | some place =>
    (s.linkAt place).map fun link =>
      (some place, { s with released := Function.update s.released list link })
  | none =>
    (if s.room stride then some (true, s) else s.grow sizes had).bind fun ready =>
      if ready.1 then
        (ready.2.next stride list bytes).map fun cut => (some cut.1, cut.2)
      else some (none, ready.2)

/-- `markdown_core_slab_take`. -/
def slabTake (s : Pools) (pool had : Bool) : Option (Option Place × Pools) :=
  if pool = false then some (s.own had sizes.bytes 0)
  else s.pooled sizes had 0 (slotStride sizes.bytes) sizes.bytes

/-- The size class of some bytes, the rounding up in 64 bits. -/
def sizeClass (bytes : BitVec 64) : ℕ := ((bytes + 16 - 1) / 16).toNat

/-- `markdown_core_bytes_own`. -/
def bytesOwn (s : Pools) (had : Bool) (bytes : BitVec 64) : Option Place × Pools :=
  s.own had (sizeClass bytes * classBytes) (sizeClass bytes)

/-- `markdown_core_bytes_take`, or with no pool `markdown_core_bytes_own`. -/
def bytesTake (s : Pools) (pool had : Bool) (bytes : BitVec 64) : Option (Option Place × Pools) :=
  if pool = false ∨ sizeClass bytes = 0 ∨ classes < sizeClass bytes then
    some (s.bytesOwn had bytes)
  else
    s.pooled sizes had (sizeClass bytes) (slotHeader + sizeClass bytes * classBytes)
      (sizeClass bytes * classBytes)

/-- `markdown_core_bytes_size`. -/
def bytesSize (s : Pools) (place : Place) : ℕ := (s.cutting.header place).sizeClass * classBytes

/-- `markdown_core_slab_release` and `markdown_core_bytes_release`, of storage whose released
slots are listed at `list`. -/
def release (s : Pools) (pool : Bool) (list : ℕ) (place : Place) : Option Pools :=
  (s.headerAt place).bind fun header =>
    match header.slab with
    | none =>
      if place.offset = slotHeader then
        (s.alloc.free place.block).map fun alloc => { s with alloc }
      else none
    | some slab =>
      if pool then
        some { s with
          link := Function.update s.link place (s.released list)
          released := Function.update s.released list (some place) }
      else (s.alloc.drop (some slab)).map fun alloc => { s with alloc }

/-- The slots of one list dropped, one after another. -/
def drain (list : ℕ) : ℕ → Pools → Option Pools
  | fuel, s =>
    match s.released list with
    | none => some s
    | some place =>
      match fuel with
      | 0 => none
      | fuel + 1 =>
        (s.linkAt place).bind fun link =>
          (s.headerAt place).bind fun header =>
            (s.alloc.drop header.slab).bind fun alloc =>
              drain list fuel
                { s with alloc, released := Function.update s.released list link }

/-- `markdown_core_slab_pool_dispose`. -/
def slabPoolDispose (s : Pools) : Option Pools :=
  (drain 0 s.cutting.slots.length s).bind fun s =>
    (s.alloc.drop s.cutting.current).map fun alloc =>
      { s with alloc, cutting := { s.cutting with current := none, cut := 0, stop := 0 } }

/-- `markdown_core_bytes_pool_dispose`. -/
def bytesPoolDispose (s : Pools) : Option Pools :=
  (List.range classes).foldlM (fun s i => drain (i + 1) s.cutting.slots.length s) s

end Pools

/-- What callers do: take storage, with a pool or without, when what it asks the allocator for can
be had or not; write over the first bytes of storage they have; give it back, with the pool or
without; dispose of a pool. -/
inductive Call where
  | takeSlot (pool had : Bool)
  | takeBytes (pool had : Bool) (bytes : BitVec 64)
  | write (place : Place) (link : Option Place)
  | release (place : Place) (pool : Bool)
  | disposeSlabs
  | disposeBytes

namespace Pools

variable (sizes : Sizes)

/-- Storage taken is the caller's. -/
def lent (sized : Bool) (asked : ℕ) (taken : Option Place × Pools) : Pools :=
  match taken.1 with
  | none => taken.2
  | some place => { taken.2 with live := ⟨place, sized, asked⟩ :: taken.2.live }

/-- One call. Storage no caller has is not written or given back. -/
def step (s : Pools) : Call → Option Pools
  | .takeSlot pool had => (s.slabTake sizes pool had).map (lent false sizes.bytes)
  | .takeBytes pool had bytes => (s.bytesTake sizes pool had bytes).map (lent true bytes.toNat)
  | .write place link =>
    some (if s.live.any (·.place = place) then
      { s with link := Function.update s.link place link } else s)
  | .release place pool =>
    match s.live.find? (·.place = place) with
    | none => some s
    | some storage =>
      let list := if storage.sized then (s.cutting.header place).sizeClass else 0
      (s.release pool list place).map fun s =>
        { s with live := s.live.eraseP (·.place = place) }
  | .disposeSlabs => s.slabPoolDispose
  | .disposeBytes => s.bytesPoolDispose

def run (calls : List Call) (s : Pools) : Option Pools := calls.foldlM (step sizes) s

/-! ### What a state holds -/

/-- The slots of a list. -/
def listed (s : Pools) : ℕ → Option Place → List Place
  | _, none => []
  | 0, some _ => []
  | fuel + 1, some place => place :: s.listed fuel (s.link place)

/-- The slots on the pools' released lists. -/
def onLists (s : Pools) : List Place :=
  (List.range (classes + 1)).flatMap fun list =>
    s.listed s.cutting.slots.length (s.released list)

/-- The bytes storage takes up, those asked for and those of its class. -/
def extent (s : Pools) (storage : Storage) : ℕ :=
  if storage.sized then max storage.asked (s.bytesSize storage.place) else storage.asked

/-- Two storages, each behind its header, that share no byte. -/
def Apart (s : Pools) (a b : Storage) : Prop :=
  a.place.block ≠ b.place.block ∨
    a.place.offset + s.extent a + slotHeader ≤ b.place.offset ∨
    b.place.offset + s.extent b + slotHeader ≤ a.place.offset

/-- Storage has the bytes that were asked for, within its block and by its class. -/
def Has (s : Pools) (storage : Storage) : Prop :=
  ∃ block, s.alloc.blocks storage.place.block = some block ∧
    storage.place.offset + storage.asked ≤ block.bytes ∧
    (storage.sized = true → storage.asked ≤ s.bytesSize storage.place)

end Pools

end MarkdownCore.Slab
