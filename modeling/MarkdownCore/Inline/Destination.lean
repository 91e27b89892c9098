import Mathlib.Computability.StateTransition
import MarkdownCore.Attributes.Read

/-!
# The end of a link destination

A destination is bare or in angle brackets. The parser looks for its end in a loop that refuses
what it cannot take; what the completion engine offers at a cursor asks for the end of the field the
cursor is in, the path up to the `#` of a fragment or the fragment up to the destination's end, in
a loop of its own.
-/

namespace MarkdownCore.Inline

open Attributes (Span slice)
open StateTransition

/-- `destination_excludes`: a control or a space. -/
def destinationExcludes (c : UInt8) : Bool := c ≤ 0x20 || c = 0x7f

/-- `markdown_core_is_line_end`. -/
def isLineEnd (c : UInt8) : Bool := c = 0x0a || c = 0x0d

/-- A backslash and the punctuation it escapes. -/
def escapes (data : List UInt8) (i : ℕ) : Bool :=
  byteAt data i = 0x5c && decide (i + 1 < data.length) && ispunct (byteAt data (i + 1))

/-! ### The parser -/

section

variable (data : List UInt8)

/-- The loop of `manual_scan_link_url_2`: where it breaks off, or none where it refuses. -/
def scanBareFrom (offset : ℕ) : ℕ → ℕ → ℕ → Option ℕ
  | 0, i, _ => some i
  | steps + 1, i, depth =>
    if data.length ≤ i then some i
    else if escapes data i then scanBareFrom offset steps (i + 2) depth
    else if byteAt data i = 0x28 then
      if 32 < depth + 1 then none else scanBareFrom offset steps (i + 1) (depth + 1)
    else if byteAt data i = 0x29 then
      if depth = 0 then some i else scanBareFrom offset steps (i + 1) (depth - 1)
    else if destinationExcludes (byteAt data i) then
      if i = offset then none else some i
    else scanBareFrom offset steps (i + 1) depth

/-- `manual_scan_link_url_2`: the bytes it takes and the destination. -/
def scanBare (offset : ℕ) : Option (ℕ × Span) :=
  match scanBareFrom data offset data.length offset 0 with
  | none => none
  | some i => if data.length ≤ i then none else some (i - offset, ⟨offset, i⟩)

/-- The loop over a destination in angle brackets: the position behind the `>`, or the end of the
text, or none where it refuses. -/
def scanAngledFrom : ℕ → ℕ → Option ℕ
  | 0, i => some i
  | steps + 1, i =>
    if data.length ≤ i then some i
    else if byteAt data i = 0x3e then some (i + 1)
    else if escapes data i then scanAngledFrom steps (i + 2)
    else if isLineEnd (byteAt data i) || byteAt data i = 0x3c then none
    else scanAngledFrom steps (i + 1)

/-- `markdown_core_inline_manual_scan_link_url`. -/
def manualScanLinkUrl (offset : ℕ) : Option (ℕ × Span) :=
  if offset < data.length ∧ byteAt data offset = 0x3c then
    match scanAngledFrom data data.length (offset + 1) with
    | none => none
    | some i =>
      if data.length ≤ i then none
      else some (i - offset, ⟨offset + 1, offset + 1 + (i - 2 - offset)⟩)
  else scanBare data offset

end

/-! ### The fields at a cursor -/

section

variable (data : List UInt8)

/-- A digit of a numeric character reference. -/
def referenceDigit (hex : Bool) (c : UInt8) : Bool :=
  isdigit c || (hex && decide (0x61 ≤ c ||| 0x20) && decide (c ||| 0x20 ≤ 0x66))

/-- `numeric_reference`: the length of the reference past its `#`, `0` for none, or none when
the data ends while it may still be one. -/
def numericReference (hash : ℕ) : Option ℕ :=
  let hex := byteAt data (hash + 1) = 0x78 || byteAt data (hash + 1) = 0x58
  let digits := hash + 1 + hex.toNat
  let most := if hex then 6 else 7
  let i := digits + min most (width (referenceDigit hex) data digits)
  if data.length ≤ i then none
  else if digits < i ∧ byteAt data i = 0x3b then some (i + 1 - hash)
  else some 0

/-- What ends a destination at the depth of its parentheses. -/
def endsDestination (angled : Bool) (depth : ℕ) (c : UInt8) : Bool :=
  if angled then c = 0x3e || c = 0x3c || isLineEnd c
  else (c ≠ 0 && destinationExcludes c) || (c = 0x29 && depth = 0) || (c = 0x28 && depth = 32)

/-- The loop of `field_end`. `amp` is where it last read a `&`. -/
def fieldFrom (angled fragment : Bool) : ℕ → ℕ → ℤ → ℕ → ℕ
  | 0, i, _, _ => i
  | steps + 1, i, amp, depth =>
    if data.length ≤ i then i
    else
      let c := byteAt data i
      if escapes data i then
        -- References are decoded before escapes, so an escaped `&` still begins one.
        fieldFrom angled fragment steps (if byteAt data (i + 1) = 0x26 then i + 1 else i + 2) amp
          depth
      else
        let reference :=
          if c = 0x23 ∧ fragment = false ∧ amp = (i : ℤ) - 1 then
            (numericReference data i).getD 0
          else 0
        if 0 < reference then fieldFrom angled fragment steps (i + reference) amp depth
        else
          let amp := if c = 0x26 then (i : ℤ) else amp
          if (fragment = false ∧ c = 0x23 ∧ depth = 0) ∨ endsDestination angled depth c then i
          else
            let depth := if angled = false ∧ c = 0x28 then depth + 1 else depth
            let depth := if angled = false ∧ c = 0x29 then depth - 1 else depth
            fieldFrom angled fragment steps (i + 1) amp depth

/-- `field_end`. -/
def fieldEnd (angled fragment : Bool) : ℕ :=
  fieldFrom data angled fragment data.length 0 (-1) 0

end

/-! ### What a destination is -/

section

variable (data : List UInt8)

/-- The parentheses open behind a byte. -/
def nested (angled : Bool) (depth : ℕ) (c : UInt8) : ℕ :=
  if angled then depth
  else if c = 0x28 then depth + 1
  else if c = 0x29 then depth - 1
  else depth

/-- One unit of a destination, with the number of parentheses open: an escape, a parenthesis that
nests, or another byte. In angle brackets a parenthesis is a byte like another. None where no unit
stands. -/
def unit (angled : Bool) : ℕ × ℕ → Option (ℕ × ℕ)
  | (pos, depth) =>
    if data.length ≤ pos then none
    else if escapes data pos then some (pos + 2, depth)
    else if endsDestination angled depth (byteAt data pos) then none
    else some (pos + 1, nested angled depth (byteAt data pos))

/-- A numeric character reference from its `#` to behind its `;`: one to seven digits, or `x` and
one to six hexadecimal ones. -/
def NumberAt (hash stop : ℕ) : Prop :=
  ∃ (hex : Bool) (count : ℕ),
    byteAt data hash = 0x23 ∧
    (hex = true ↔ byteAt data (hash + 1) = 0x78 ∨ byteAt data (hash + 1) = 0x58) ∧
    1 ≤ count ∧ count ≤ (if hex then 6 else 7) ∧
    (∀ k < count, referenceDigit hex (byteAt data (hash + 1 + hex.toNat + k)) = true) ∧
    byteAt data (hash + 1 + hex.toNat + count) = 0x3b ∧
    stop = hash + 1 + hex.toNat + count + 1

/-- A `#` that starts a numeric character reference: behind a `&` of the destination. -/
def StartsReference (hash : ℕ) : Prop :=
  0 < hash ∧ byteAt data (hash - 1) = 0x26 ∧ ∃ stop, NumberAt data hash stop

/-- A `#` that starts a fragment: a unit of the destination outside parentheses, and no
reference's. -/
def Splits (angled : Bool) (pos : ℕ) : Prop :=
  Reaches (unit data angled) (0, 0) (pos, 0) ∧ byteAt data pos = 0x23 ∧
    ¬ StartsReference data pos

/-- Where the path of a destination that ends at `stop` does: at the first `#` that starts a
fragment, or with the destination. -/
def PathEnds (angled : Bool) (stop pos : ℕ) : Prop :=
  pos ≤ stop ∧ (pos < stop → Splits data angled pos) ∧
    ∀ hash < pos, ¬ Splits data angled hash

end

end MarkdownCore.Inline
