import MarkdownCore.Autolink.Domain

/-!
# Projections through a write cursor

`core/utf8.c`: a literal is turned into its image one character at a time, through a cursor over
storage that is reserved when the room left may not hold the next character's image. The normal
form of a label and the projection of an anchor are written so.
-/

namespace MarkdownCore.Text

open Inline (isWhitespace)
open Autolink (decode)

/-! ### Buffers -/

/-- `MARKDOWN_CORE_STRBUF_LIMIT`. -/
def strbufLimit : ℕ := 2147483647 / 2

/-- `markdown_core_strbuf`: its content, the bytes it has storage for, and whether it is
poisoned. -/
structure Strbuf where
  content : List UInt8
  asize : ℕ
  oom : Bool
  deriving DecidableEq, Repr

/-- `markdown_core_strbuf_grow`. Storage of a size is had where it is `granted`. -/
def Strbuf.grow (granted : ℕ → Bool) (buf : Strbuf) (target : ℕ) : Strbuf :=
  if target = 0 then { buf with oom := true }
  else if buf.oom ∨ target < buf.asize then buf
  else if target > strbufLimit then { buf with oom := true }
  else
    let newSize := (target + target / 2 + 1 + 7) / 8 * 8
    let newSize := if newSize > strbufLimit + 1 then strbufLimit + 1 else newSize
    if granted newSize then { buf with asize := newSize } else { buf with oom := true }

/-! ### The cursor -/

/-- A local cursor: the buffer, what stands in its storage before the cursor, and where the room
ends. -/
structure ImageCursor where
  buf : Strbuf
  out : List UInt8
  stop : ℕ
  deriving DecidableEq, Repr

/-- A write past the room. -/
inductive Fault
  | overrun
  deriving DecidableEq, Repr

/-- The bytes at the cursor written, and the cursor moved past them. -/
def ImageCursor.write (c : ImageCursor) (bytes : List UInt8) : Except Fault ImageCursor :=
  if c.out.length + bytes.length ≤ c.stop ∧ c.stop < c.buf.asize then
    .ok { c with out := c.out ++ bytes }
  else .error .overrun

/-- A space written where one is pending. -/
def ImageCursor.writeSpace (c : ImageCursor) (space : Bool) : Except Fault ImageCursor :=
  if space then c.write [0x20] else .ok c

/-- `S_finish_image`. -/
def finishImage (buf : Strbuf) (out : List UInt8) : Strbuf :=
  if buf.asize ≠ 0 then { buf with content := out } else buf

/-- `S_reserve_image`: the cursor in the grown buffer, or the poisoned buffer. -/
def reserveImage (granted : ℕ → Bool) (c : ImageCursor) (need bound : ℕ) :
    Except Strbuf ImageCursor :=
  let buf := finishImage c.buf c.out
  let room := strbufLimit - buf.content.length
  if need > room then .error { buf with oom := true }
  else
    let buf := buf.grow granted (buf.content.length + if bound < room then bound else room)
    if buf.oom then .error buf else .ok ⟨buf, buf.content, buf.asize - 1⟩

/-- The check before a character's image: short of `most` bytes of room, the image's exact length
is asked for. -/
def ensureRoom (granted : ℕ → Bool) (most : ℕ) (c : ImageCursor) (width bound : ℕ) :
    Except Strbuf ImageCursor :=
  if c.stop - c.out.length < most then
    if c.stop - c.out.length < width then reserveImage granted c width bound else .ok c
  else .ok c

/-- Bytes moved over others. -/
def moveOver (room : List UInt8) (pos : ℕ) (bytes : List UInt8) : List UInt8 :=
  room.take pos ++ bytes ++ room.drop (pos + bytes.length)

/-- `S_copy_image`: what its two moves leave of the bytes that stood there. -/
def copyImage (image : List UInt8) : List UInt8 :=
  let n := image.length
  let room := List.replicate n 0
  if n ≥ 4 then moveOver (moveOver room 0 (image.take 4)) (n - 4) (image.drop (n - 4))
  else if n ≥ 2 then moveOver (moveOver room 0 (image.take 2)) (n - 2) (image.drop (n - 2))
  else image.take 1

/-! ### The normal form of a label -/

/-- `CF_MAX`. -/
def cfMax : ℕ := 2 ^ 17

/-- A byte in lower case. -/
def lowered (b : UInt8) : UInt8 := if 0x41 ≤ b ∧ b ≤ 0x5a then b + 0x20 else b

section
variable (fold : ℕ → Option (List UInt8)) (granted : ℕ → Bool)

/-- The fold of the character that begins a text. -/
def foldEntry (str : List UInt8) : Option (List UInt8) :=
  if (decode str 0).1 > 1 ∧ (decode str 0).2 < cfMax then fold (decode str 0).2 else none

/-- How many bytes the next character is written in, with the space before it. -/
def labelWidth (space : Bool) (str : List UInt8) : ℕ :=
  space.toNat + ((foldEntry fold str).map List.length).getD (decode str 0).1

/-- The bound asked for at a character, which is to hold the rest of the label. -/
def labelBound (space : Bool) (str : List UInt8) : ℕ :=
  labelWidth fold space str + 3 * (str.length - (decode str 0).1)

/-- The character that begins a text, as it is written. -/
def labelImage (str : List UInt8) : List UInt8 :=
  if (decode str 0).1 = 1 then [lowered (str.headD 0)]
  else copyImage ((foldEntry fold str).getD (str.take (decode str 0).1))

/-- The loop of `markdown_core_utf8proc_normalize_label`. -/
def normalizeFrom (first : ℕ) : ℕ → ImageCursor → Bool → List UInt8 → Except Fault Strbuf
  | _, c, _, [] => .ok (finishImage c.buf c.out)
  | 0, c, _, _ => .ok (finishImage c.buf c.out)
  | fuel + 1, c, space, head :: tail =>
    let str := head :: tail
    let charLen := (decode str 0).1
    if charLen = 1 ∧ isWhitespace head then
      normalizeFrom first fuel c (c.out.length > first) (str.drop charLen)
    else
      match ensureRoom granted 7 c (labelWidth fold space str) (labelBound fold space str) with
      | .error buf => .ok buf
      | .ok c => do
        let c ← c.writeSpace space
        let c ← c.write (labelImage fold str)
        normalizeFrom first fuel c false (str.drop charLen)

/-- `markdown_core_utf8proc_normalize_label`: as many turns as bytes are enough. -/
def normalizeLabel (dest : Strbuf) (str : List UInt8) : Except Fault Strbuf :=
  normalizeFrom fold granted dest.content.length str.length
    ⟨dest, dest.content, dest.content.length⟩ false str

end

/-! ### The projection of an anchor -/

/-- `S_scalar_width`. -/
def scalarWidth (uc : ℕ) : ℕ :=
  if uc < 0x80 then 1 else if uc < 0x800 then 2 else if uc < 0x10000 then 3 else 4

/-- `S_encode_scalar`, with the scalar's width. -/
def encodeScalar (uc : ℕ) : List UInt8 :=
  match scalarWidth uc with
  | 1 => [UInt8.ofNat uc]
  | 2 => [UInt8.ofNat (0xc0 + uc / 64), UInt8.ofNat (0x80 + uc % 64)]
  | 3 => [UInt8.ofNat (0xe0 + uc / 4096), UInt8.ofNat (0x80 + uc / 64 % 64),
      UInt8.ofNat (0x80 + uc % 64)]
  | _ => [UInt8.ofNat (0xf0 + uc / 262144), UInt8.ofNat (0x80 + uc / 4096 % 64),
      UInt8.ofNat (0x80 + uc / 64 % 64), UInt8.ofNat (0x80 + uc % 64)]

section
variable (project : ℕ → ℕ) (granted : ℕ → Bool)

/-- `anchor_scalar`: the image of a scalar, `0` where it is removed. -/
def anchorScalar (uc : ℕ) : ℕ := if uc ≥ 0x110000 then 0 else project uc

/-- The loop of `markdown_core_utf8proc_anchor`. -/
def anchorFrom : ℕ → ImageCursor → List UInt8 → Except Fault Strbuf
  | _, c, [] => .ok (finishImage c.buf c.out)
  | 0, c, _ => .ok (finishImage c.buf c.out)
  | fuel + 1, c, head :: tail =>
    let str := head :: tail
    let rest := str.drop (decode str 0).1
    let scalar := anchorScalar project (decode str 0).2
    if scalar = 0 then anchorFrom fuel c rest
    else
      let width := scalarWidth scalar
      match ensureRoom granted 4 c width (width + 2 * rest.length) with
      | .error buf => .ok buf
      | .ok c => do
        let c ← c.write (encodeScalar scalar)
        anchorFrom fuel c rest

/-- `markdown_core_utf8proc_anchor`. -/
def anchor (dest : Strbuf) (str : List UInt8) : Except Fault Strbuf :=
  anchorFrom project granted str.length ⟨dest, dest.content, dest.content.length⟩ str

end

end MarkdownCore.Text
