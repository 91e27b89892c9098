import MarkdownCore.Inline.Opaque
import MarkdownCore.Storage.Ahead

/-!
# The string buffer

`core/buffer.c`: a byte list that owns no storage at first, moves whole as it grows, and from two
slices on can grow ahead of its appends. Sizes are signed, of 32 bits, and each sum of them is
checked to be one; each write is checked against the cells that the buffer owns. An operation that
fails a check gives `none`.
-/

namespace MarkdownCore.Storage

open Inline (isWhitespace ispunct)

/-! ### Sizes -/

/-- `bufsize_t`. -/
abbrev Bufsize := { n : ℤ // -2147483648 ≤ n ∧ n ≤ 2147483647 }

/-- What a computation of sizes gives, in their range. -/
def sized (n : ℤ) : Option ℤ := if -2147483648 ≤ n ∧ n ≤ 2147483647 then some n else none

/-- `MARKDOWN_CORE_STRBUF_LIMIT`. -/
def byteLimit : ℤ := 2147483647 / 2

/-- An element of one byte. -/
def oneByte : Width := ⟨1, Nat.one_pos, by decide⟩

/-- The bytes at a pointer. -/
def bytesAt (memory : ℕ → UInt8) (len : ℤ) : List UInt8 := (List.range len.toNat).map memory

/-! ### The buffer -/

/-- Where a buffer's bytes stand: nowhere but at the shared sentinel, in storage that moves whole,
or in storage that grows ahead. -/
inductive Place
  | sentinel
  | plain (cells : Cells UInt8)
  | ahead (a : Ahead UInt8)

/-- The cells that the buffer owns. -/
def Place.cells : Place → Cells UInt8
  | .sentinel => []
  | .plain cells => cells
  | .ahead a => a.values

/-- The field `asize`: the capacity, or the room of storage that grows ahead. -/
def Place.asize : Place → ℕ
  | .sentinel => 0
  | .plain cells => cells.length
  | .ahead a => a.room

/-- The places of the storage, which are more than its room where it grows ahead. -/
def Place.capacity : Place → ℕ
  | .sentinel => 0
  | .plain cells => cells.length
  | .ahead a => a.capacity

def Place.growsAhead : Place → Bool
  | .ahead _ => true
  | _ => false

/-- The storage with other bytes in its cells. -/
def Place.withCells (cells : Cells UInt8) : Place → Place
  | .sentinel => .sentinel
  | .plain _ => .plain cells
  | .ahead a => .ahead { a with values := cells }

/-- The buffer's cells written to. -/
def Place.update (f : Cells UInt8 → Option (Cells UInt8)) (place : Place) : Option Place :=
  (f place.cells).map fun cells => place.withCells cells

/-- `markdown_core_strbuf`. -/
structure Strbuf where
  place : Place
  size : ℕ
  oom : Bool

namespace Strbuf

/-- `MARKDOWN_CORE_BUF_INIT`. -/
def empty : Strbuf := ⟨.sentinel, 0, false⟩

def asize (buf : Strbuf) : ℕ := buf.place.asize

/-- The bytes of the content. -/
def content (buf : Strbuf) : List UInt8 := (buf.place.cells.take buf.size).filterMap id

/-- A byte read. The sentinel is one zero byte. -/
def read (buf : Strbuf) (i : ℕ) : Option UInt8 :=
  match buf.place with
  | .sentinel => ([0] : List UInt8)[i]?
  | place => place.cells[i]?.join

/-- Bytes written over those from `at'` on. -/
def write (buf : Strbuf) (at' : ℕ) (bytes : List UInt8) : Option Strbuf :=
  (buf.place.update fun cells => writeCells cells at' bytes).map fun place => { buf with place }

/-- The terminator, at the end of the content. -/
def terminate (buf : Strbuf) : Option Strbuf := buf.write buf.size [0]

def poison (buf : Strbuf) : Strbuf := { buf with oom := true }

/-- `markdown_core_strbuf_unsettle`. -/
@[grind =] def unsettle (buf : Strbuf) (first : ℕ) : Strbuf :=
  match buf.place with
  | .ahead a => { buf with place := .ahead (a.unsettle first) }
  | _ => buf

/-- Bytes and a terminator after the content. -/
def append (buf : Strbuf) (bytes : List UInt8) : Option Strbuf := do
  let buf ← buf.write buf.size bytes
  let size ← sized (buf.size + bytes.length)
  terminate { buf with size := size.toNat }

section

variable (storage : ℕ → Bool)

/-- `MARKDOWN_CORE_STRBUF_HEADER`. -/
def headerBytes : ℕ := 24

/-- The allocator, for storage with a header before it. -/
def headed (bytes : ℕ) : Bool := storage (headerBytes + bytes)

/-- The storage of a buffer that moves whole to so many places: from the allocator, which extends
storage in place where it can, or, where the buffer grew ahead, in storage of its own. -/
def moveWhole (buf : Strbuf) (places : ℕ) : Option (Option (Cells UInt8)) :=
  match buf.place with
  | .ahead a => (take storage oneByte places).map fun moved => copyCells moved 0 a.values 0 buf.size
  | place => (realloc storage oneByte place.cells places).map some

/-- The size that a growth asks for: half as much again as its target, in whole words, and never
past the limit and its terminator. -/
def newSize (target : ℤ) : Option ℕ := do
  let size ← sized (target + target / 2)
  let size ← sized (size + 1)
  let size ← sized (size + 7)
  let size := size / 8 * 8
  some (if size > byteLimit + 1 then byteLimit + 1 else size).toNat

/-- The buffer in the storage that it moved to, or poisoned where there was none. -/
def movedTo (buf : Strbuf) : Option (Option (Cells UInt8)) → Option Strbuf
  | none => some buf.poison
  | some moved => moved.bind fun cells => terminate { buf with place := .plain cells }

/-- `markdown_core_strbuf_grow`. -/
def grow (buf : Strbuf) (target : ℤ) : Option Strbuf :=
  if target ≤ 0 then some buf.poison
  else if buf.oom ∨ target < buf.asize then some buf
  else if target > byteLimit then some buf.poison
  else
    (newSize target).bind fun places => buf.movedTo (buf.moveWhole storage places)

/-- `S_strbuf_grow_by`. -/
def growBy (buf : Strbuf) (add : ℤ) : Option Strbuf :=
  if add < 0 ∨ add > byteLimit - buf.size then some buf.poison
  else do
    let target ← sized (buf.size + add)
    if target ≥ buf.asize then buf.grow storage target else some buf

/-- `markdown_core_strbuf_init`. -/
def init (initialSize : ℤ) : Option Strbuf :=
  if initialSize > 0 then empty.grow storage initialSize else some empty

/-- `markdown_core_strbuf_put_grown`. -/
def putGrown (buf : Strbuf) (memory : ℕ → UInt8) (len : ℤ) : Option Strbuf := do
  let buf ← buf.growBy storage len
  if buf.oom then some buf else buf.append (bytesAt memory len)

/-- `markdown_core_strbuf_put`. -/
def put (buf : Strbuf) (memory : ℕ → UInt8) (len : ℤ) : Option Strbuf :=
  if len ≤ 0 then some buf
  else if len < (buf.asize : ℤ) - buf.size ∧ ¬ buf.oom then buf.append (bytesAt memory len)
  else buf.putGrown storage memory len

/-- `markdown_core_strbuf_putc`. -/
def putc (buf : Strbuf) (c : ℤ) : Option Strbuf := do
  let byte := UInt8.ofNat (c % 256).toNat
  let size ← sized (buf.size + 1)
  if size < buf.asize ∧ ¬ buf.oom then buf.append [byte]
  else buf.putGrown storage (fun _ => byte) 1

/-- The storage ahead of a buffer that grows by an append: how it grows, or, where it starts to grow
ahead, what it moves to whole once more. -/
def extendAhead (buf : Strbuf) (total larger : ℕ) : Option (Bool × Ahead UInt8) :=
  match buf.place with
  | .ahead a => a.extend (headed storage) oneByte true buf.size total
  | place =>
    match take (headed storage) oneByte larger with
    | none => some (false, ⟨[], 0, 0, none, 0⟩)
    | some moved => (copyCells moved 0 place.cells 0 buf.size).map fun values =>
      (true, ⟨values, aheadRoom larger total oneByte, larger, none, 0⟩)

/-- `markdown_core_strbuf_put_ahead_grown`. -/
def putAheadGrown (buf : Strbuf) (memory : ℕ → UInt8) (len : ℤ) : Option Strbuf :=
  if ¬ buf.place.growsAhead ∧ buf.asize ≤ 2 * aheadSlice oneByte then
    buf.putGrown storage memory len
  else if len ≤ 0 ∨ buf.oom then some buf
  else if len > byteLimit - buf.size then some buf.poison
  else
    let total := buf.size + len.toNat + 1
    let larger := Ahead.doubled total 64 buf.place.capacity
    if (larger : ℤ) > byteLimit + 1 then buf.putGrown storage memory len
    else
      (buf.extendAhead storage total larger).bind fun moved =>
        if moved.1 then append { buf with place := .ahead moved.2 } (bytesAt memory len)
        else some buf.poison

/-- `markdown_core_strbuf_put_ahead`. -/
def putAhead (buf : Strbuf) (memory : ℕ → UInt8) (len : ℤ) : Option Strbuf :=
  if len ≤ 0 then some buf
  else if len < (buf.asize : ℤ) - buf.size ∧ ¬ buf.oom then buf.append (bytesAt memory len)
  else buf.putAheadGrown storage memory len

end

/-- `markdown_core_strbuf_clear`. -/
def clear (buf : Strbuf) : Option Strbuf :=
  let buf := { unsettle { buf with size := 0 } 0 with oom := false }
  if buf.asize > 0 then buf.write 0 [0] else some buf

/-- What a buffer is set to: nothing, the bytes at the buffer's own pointer, or other bytes. -/
inductive Data
  | null
  | own
  | other (memory : ℕ → UInt8)

/-- `markdown_core_strbuf_set`. -/
def set (storage : ℕ → Bool) (buf : Strbuf) (data : Data) (len : ℤ) : Option Strbuf :=
  if len ≤ 0 then buf.clear
  else
    match data with
    | .null => buf.clear
    | .own => terminate { buf.unsettle len.toNat with size := len.toNat }
    | .other memory =>
      (if len ≥ buf.asize then buf.grow storage len else some buf).bind fun buf =>
        if buf.oom ∨ len ≥ buf.asize then some buf
        else (buf.write 0 (bytesAt memory len)).bind fun buf =>
          terminate { buf.unsettle 0 with size := len.toNat }

/-- `markdown_core_strbuf_truncate`. -/
def truncate (buf : Strbuf) (len : ℤ) : Option Strbuf :=
  let len := (if len < 0 then 0 else len).toNat
  if len < buf.size then terminate (unsettle { buf with size := len } len) else some buf

/-- `markdown_core_strbuf_drop`. -/
def drop (buf : Strbuf) (n : ℤ) : Option Strbuf :=
  if n > 0 then
    let n := (if n > buf.size then (buf.size : ℤ) else n).toNat
    let buf := unsettle { buf with size := buf.size - n } 0
    (if buf.size ≠ 0 then
      (buf.place.update fun cells => copyCells cells 0 cells n buf.size).map fun place =>
        { buf with place }
    else some buf).bind terminate
  else some buf

/-- The loop of `markdown_core_strbuf_rtrim`: the size of what is left. -/
def rtrimFrom (buf : Strbuf) : ℕ → Option ℕ
  | 0 => some 0
  | size + 1 => (buf.read size).bind fun byte =>
    if ¬ isWhitespace byte then some (size + 1) else buf.rtrimFrom size

/-- `markdown_core_strbuf_rtrim`. -/
def rtrim (buf : Strbuf) : Option Strbuf :=
  if buf.size = 0 then some buf
  else (buf.rtrimFrom buf.size).bind fun size =>
    terminate (unsettle { buf with size } size)

/-- The loop of `markdown_core_strbuf_trim`: how many turns it makes, of as many as are left. -/
def trimFrom (buf : Strbuf) : ℕ → ℕ → Option ℕ
  | 0, i => some i
  | left + 1, i => (buf.read i).bind fun byte =>
    if isWhitespace byte then buf.trimFrom left (i + 1) else some i

/-- `markdown_core_strbuf_trim`. -/
def trim (buf : Strbuf) : Option Strbuf :=
  if buf.size = 0 then some buf
  else (buf.trimFrom buf.size 0).bind fun i => (buf.drop i).bind rtrim

/-- Where the byte stands that an escape at a position gives: past its backslash. -/
def escapedAt (buf : Strbuf) (r : ℕ) : Option ℕ :=
  (buf.read r).bind fun byte =>
    if byte = 0x5c then (buf.read (r + 1)).map fun next => if ispunct next then r + 1 else r
    else some r

/-- The loop of `markdown_core_strbuf_unescape`: where it writes next, and the buffer. As many
turns as bytes are enough. -/
def unescapeFrom : ℕ → Strbuf → ℕ → ℕ → Option (ℕ × Strbuf)
  | 0, buf, _, w => some (w, buf)
  | fuel + 1, buf, r, w =>
    if r < buf.size then do
      let r ← buf.escapedAt r
      let byte ← buf.read r
      let buf ← buf.write w [byte]
      unescapeFrom fuel buf (r + 1) (w + 1)
    else some (w, buf)

/-- `markdown_core_strbuf_unescape`. -/
def unescape (buf : Strbuf) : Option Strbuf :=
  let buf := buf.unsettle 0
  (unescapeFrom buf.size buf 0 0).bind fun unescaped => unescaped.2.truncate unescaped.1

/-- `markdown_core_strbuf_detach`: the bytes handed over, or `NULL`, and the buffer. -/
def detach (storage : ℕ → Bool) (buf : Strbuf) : Option (Option (List UInt8) × Strbuf) :=
  if buf.oom then some (none, empty)
  else
    match buf.place with
    | .sentinel => some (if storage 1 then some [0] else none, buf)
    | .plain cells => some (some ((cells.take (buf.size + 1)).filterMap id), empty)
    | .ahead a =>
      match take storage oneByte (buf.size + 1) with
      | none => some (none, empty)
      | some own => (copyCells own 0 a.values 0 (buf.size + 1)).map fun own =>
        (some (own.filterMap id), empty)

end Strbuf

/-! ### The calls -/

/-- The operations on a buffer, with the arguments of each. -/
inductive StrbufOp
  | init (initialSize : Bufsize)
  | grow (target : Bufsize)
  | put (memory : ℕ → UInt8) (len : Bufsize)
  | putAhead (memory : ℕ → UInt8) (len : Bufsize)
  | putc (c : Bufsize)
  | set (data : Strbuf.Data) (len : Bufsize)
  | truncate (len : Bufsize)
  | drop (n : Bufsize)
  | trim
  | rtrim
  | unescape
  | clear
  | detach

/-- An operation, with the storage to be had while it runs. -/
structure StrbufCall where
  storage : ℕ → Bool
  op : StrbufOp

/-- An operation carried out. -/
def StrbufCall.apply (call : StrbufCall) (buf : Strbuf) : Option Strbuf :=
  match call.op with
  | .init initialSize => Strbuf.init call.storage initialSize
  | .grow target => buf.grow call.storage target
  | .put memory len => buf.put call.storage memory len
  | .putAhead memory len => buf.putAhead call.storage memory len
  | .putc c => buf.putc call.storage c
  | .set data len => buf.set call.storage data len
  | .truncate len => buf.truncate len
  | .drop n => buf.drop n
  | .trim => buf.trim
  | .rtrim => buf.rtrim
  | .unescape => buf.unescape
  | .clear => buf.clear
  | .detach => (buf.detach call.storage).map Prod.snd

/-- Operations carried out one after another. -/
def StrbufCall.run : List StrbufCall → Strbuf → Option Strbuf
  | [], buf => some buf
  | call :: rest, buf => (call.apply buf).bind (run rest)

end MarkdownCore.Storage
