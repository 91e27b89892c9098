import MarkdownCore.Order.Labels
import MarkdownCore.Storage.Ahead

/-!
# The order of entries by key

Entries are ordered by 64-bit keys, a byte of the keys at a time from the lowest, each pass laying
the entries and their keys out in the other arrays by that byte. A pass over a byte no key has
otherwise than the first is left out, and the entries go back to their own array if the last pass
did not leave them there. A read or a write outside an array gives `none`.
-/

namespace MarkdownCore.Order

open Storage (sizeMax)

variable {α : Type*}

/-- A key's byte at a shift. -/
def byteOf (key : BitVec 64) (shift : ℕ) : ℕ := (key >>> shift &&& 255#64).toNat

/-- The loop over the keys after the first: the bits in which some key differs from the first, and
whether the keys are in order. -/
def scanKeys (first : BitVec 64) :
    BitVec 64 → BitVec 64 → Bool → List (BitVec 64) → BitVec 64 × Bool
  | _, differing, ordered, [] => (differing, ordered)
  | last, differing, ordered, key :: keys =>
    scanKeys first key (differing ||| (key ^^^ first)) (ordered && decide (last ≤ key)) keys

/-- How many keys have each byte. -/
def countBytes (shift : ℕ) (keys : List (BitVec 64)) : List ℕ :=
  keys.foldl (fun offsets key => offsets.modify (byteOf key shift) (· + 1)) (List.replicate 256 0)

/-- The counts turned into where the entries of each byte begin. -/
def startsFrom : ℕ → List ℕ → List ℕ
  | _, [] => []
  | offset, length :: offsets => offset :: startsFrom (offset + length) offsets

/-- The loop that writes each key and its entry where its byte's next goes. -/
def scatter (shift : ℕ) : List (BitVec 64) → List α → List ℕ → List (BitVec 64) → List α →
    Option (List (BitVec 64) × List α)
  | key :: keys, entry :: source, offsets, keyTarget, target =>
    offsets[byteOf key shift]?.bind fun destination =>
      (writeAt keyTarget destination key).bind fun keyTarget =>
        (writeAt target destination entry).bind fun target =>
          scatter shift keys source (offsets.modify (byteOf key shift) (· + 1)) keyTarget target
  | _, _, _, keyTarget, target => some (keyTarget, target)

/-- The passes over the bytes at some shifts, the arrays changing places after each. -/
def radixPasses (differing : BitVec 64) : List ℕ → List (BitVec 64) → List α → List (BitVec 64) →
    List α → Option (List α)
  | [], _, source, _, _ => some source
  | shift :: shifts, keys, source, keyTarget, target =>
    if differing >>> shift &&& 255#64 = 0#64 then
      radixPasses differing shifts keys source keyTarget target
    else
      (scatter shift keys source (startsFrom 0 (countBytes shift keys)) keyTarget target).bind
        fun laid => radixPasses differing shifts laid.1 laid.2 keys source

/-- The shifts of a key's bytes, the lowest first. -/
def shifts : List ℕ := (List.range 8).map (8 * ·)

/-- `markdown_core_order_source_entries`: whether it succeeds, and what the entries' array holds.
Storage for the keys and for the entries is had where it is granted, and holds anything. -/
def orderSourceEntries (key : α → BitVec 64) (stride : ℕ) (keysGranted entriesGranted : Bool)
    (keyRoom : ℕ → BitVec 64) (entryRoom : ℕ → α) (entries : List α) : Option (Bool × List α) :=
  let count := entries.length
  if count < 2 then some (true, entries)
  else if stride = 0 ∨ sizeMax / stride < count ∨ sizeMax / 16 < count then some (false, entries)
  else if keysGranted = false then some (false, entries)
  else
    let keys := entries.map key
    let scan := scanKeys (keys.headD 0) (keys.headD 0) 0 true keys.tail
    if scan.2 then some (true, entries)
    else if entriesGranted = false then some (false, entries)
    else
      (radixPasses scan.1 shifts keys entries ((List.range count).map keyRoom)
        ((List.range count).map entryRoom)).map fun sorted => (true, sorted)

end MarkdownCore.Order
