import MarkdownCore.Inline.Opaque
import MarkdownCore.Autolink.Domain
import MarkdownCore.Text.Columns
import MarkdownCore.Table.Row

/-!
# List markers

`elements/list.c`: the readers of a numeral, and the scan of a list's marker, which finds a
numeral's end by the class of its first byte and only then reads it.
-/

namespace MarkdownCore.Marker

open Inline (byteAt width isdigit isWhitespace)
open Autolink (isalpha)
open Table (isSpaceOrTab)
open Text (isLineEnd)

/-! ### Machine integers -/

/-- Why a reading ends without a value: it refuses, or an `int` overflows. -/
inductive Stop
  | refused
  | overflowed
  deriving DecidableEq, Repr

/-- The result of an operation of `int`, which overflows past 32 bits. -/
def int (n : ℤ) : Except Stop ℤ :=
  if -2147483648 ≤ n ∧ n ≤ 2147483647 then .ok n else .error .overflowed

/-! ### The readers -/

inductive VariantKind
  | decimal
  | alpha
  | roman
  | default
  deriving DecidableEq, Repr

structure Variant where
  kind : VariantKind
  lowercased : Bool
  deriving DecidableEq, Repr

/-- A term of the Roman readers: its upper-case spelling, its value, and whether it may
follow itself. -/
structure Term where
  text : List UInt8
  value : ℤ
  repeats : Bool
  deriving DecidableEq, Repr

def terms : List Term :=
  [⟨[77], 1000, true⟩, ⟨[67, 77], 900, false⟩, ⟨[68], 500, false⟩, ⟨[67, 68], 400, false⟩,
    ⟨[67], 100, true⟩, ⟨[88, 67], 90, false⟩, ⟨[76], 50, false⟩, ⟨[88, 76], 40, false⟩,
    ⟨[88], 10, true⟩, ⟨[73, 88], 9, false⟩, ⟨[86], 5, false⟩, ⟨[73, 86], 4, false⟩,
    ⟨[73], 1, true⟩]

/-- The term's spelling in a case, which is an offset from the upper one. -/
def Term.spelled (offset : UInt8) (term : Term) : List UInt8 := term.text.map (· + offset)

/-- What lies between the two cases of a letter. -/
def caseOffset (lowercased : Bool) : UInt8 := if lowercased then 32 else 0

/-- The loop over one term: the bytes it leaves, and the number with what it took. Each turn
passes a byte at least, so as many turns as there are bytes are enough. -/
def takeTerm (offset : UInt8) (term : Term) :
    ℕ → List UInt8 → ℤ → Except Stop (List UInt8 × ℤ)
  | 0, bytes, number => .ok (bytes, number)
  | left + 1, bytes, number =>
    if (term.spelled offset).isPrefixOf bytes then
      if number > 999999999 - term.value then .error .refused
      else do
        let number ← int (number + term.value)
        if term.repeats then takeTerm offset term left (bytes.drop term.text.length) number
        else .ok (bytes.drop term.text.length, number)
    else .ok (bytes, number)

/-- The loop over the terms. -/
def takeTerms (offset : UInt8) :
    List Term → List UInt8 → ℤ → Except Stop (List UInt8 × ℤ)
  | [], bytes, number => .ok (bytes, number)
  | term :: rest, bytes, number => do
    let (bytes, number) ← takeTerm offset term bytes.length bytes number
    takeTerms offset rest bytes number

/-- The loop over the digits. -/
def takeDigits : List UInt8 → ℤ → Except Stop ℤ
  | [], number => .ok number
  | byte :: rest, number =>
    if !isdigit byte then .error .refused
    else do
      let scaled ← int (number * 10)
      let added ← int (scaled + byte.toNat)
      let number ← int (added - 48)
      takeDigits rest number

/-- `ordered_numeral`, of the bytes between its two positions. -/
def numeral (bytes : List UInt8) (variant : Variant) : Except Stop ℤ :=
  if bytes = [0x23] then .ok 1
  else match variant.kind with
    | .default => .error .refused
    | .alpha =>
      let first : ℤ := if variant.lowercased then 97 else 65
      match bytes with
      | [byte] =>
        if (byte.toNat : ℤ) < first ∨ (byte.toNat : ℤ) > first + 25 then .error .refused
        else do
          let above ← int (byte.toNat - first)
          int (above + 1)
      | _ => .error .refused
    | .decimal =>
      if bytes.length > 9 then .error .refused
      else do
        let number ← takeDigits bytes 0
        if bytes.length > 0 then .ok number else .error .refused
    | .roman => do
      let (rest, number) ← takeTerms (caseOffset variant.lowercased) terms bytes 0
      if rest ≠ [] then .error .refused
      else if bytes.length > 0 then .ok number else .error .refused

def orderedNumeral (input : List UInt8) (begin end' : ℕ) (variant : Variant) : Except Stop ℤ :=
  numeral ((input.take end').drop begin) variant

/-! ### The marker -/

inductive DelimiterKind
  | period
  | parenthesis
  | default
  deriving DecidableEq, Repr

structure Delimiter where
  kind : DelimiterKind
  closed : Bool
  deriving DecidableEq, Repr

/-- The facts of a list that its items share. -/
inductive ListFacts
  | bullet (bulletChar : UInt8)
  | ordered (variant : Variant) (delimiter : Delimiter)
  deriving DecidableEq, Repr

/-- The variant an ordered list commits its items to. -/
def ListFacts.variant : ListFacts → Option Variant
  | .bullet _ => none
  | .ordered variant _ => some variant

/-- Whether an ordered list's delimiter is the one of automatic markers. -/
def ListFacts.isDefault : ListFacts → Bool
  | .bullet _ => false
  | .ordered _ delimiter => delimiter.kind = .default

structure MarkerData where
  facts : ListFacts
  start : ℤ
  deriving DecidableEq, Repr

/-- `roman_letter`: one of `MDCLXVI`. -/
def romanLetter (c : UInt8) : Bool :=
  c ≠ 0 && [0x4d, 0x44, 0x43, 0x4c, 0x58, 0x56, 0x49].contains c

/-- The scan of a numeral by the class its first byte names: where it stops. -/
def classScan (line : List UInt8) (begin : ℕ) : ℕ :=
  let c := byteAt line begin
  if c = 0x23 then begin + 1
  else if isdigit c then begin + min (width isdigit line begin) 10
  else if isalpha c then
    let offset : UInt8 := if c ≥ 0x61 then 32 else 0
    if romanLetter (c - offset) then
      begin + 1 + width (fun b => romanLetter (b - offset)) line (begin + 1)
    else begin + 1
  else begin

/-- The variant the first byte of a numeral names. -/
def namedVariant (c : UInt8) (begin end' : ℕ) : Variant :=
  ⟨if c = 0x23 then .default
    else if isdigit c then .decimal
    else if end' = begin + 1 ∧ c ≠ 0x69 ∧ c ≠ 0x49 then .alpha
    else .roman,
    0x61 ≤ c && c ≤ 0x7a⟩

/-- The blanks behind a capital and its period, up to two columns of them: where they end, and
the column. -/
def capitalGap (line : List UInt8) (initial : ℕ) : ℕ → ℕ → ℕ → ℕ × ℕ
  | 0, at', column => (at', column)
  | left + 1, at', column =>
    if isSpaceOrTab (byteAt line at') then
      let column := column + if byteAt line at' = 0x09 then 4 - column % 4 else 1
      if column - initial ≥ 2 then (at' + 1, column)
      else capitalGap line initial left (at' + 1) column
    else (at', column)

/-- What every marker is asked at its end: whitespace, and something behind it where it
interrupts a paragraph. -/
def endMarker (line : List UInt8) (startpos pos : ℕ) (interrupts : Bool) (data : MarkerData) :
    Except Stop (ℕ × MarkerData) :=
  if !isWhitespace (byteAt line pos) then .error .refused
  else if interrupts ∧ isLineEnd (byteAt line (pos + width isSpaceOrTab line pos)) then
    .error .refused
  else .ok (pos - startpos, data)

/-- Whether a delimiter may follow a numeral. -/
def delimits (closed : Bool) (delim : UInt8) : Bool :=
  !(delim ≠ 0x29 && (closed || delim ≠ 0x2e))

/-- The numeral read in the variant of the list before, or in the one its first byte names. -/
def readNumeral (line : List UInt8) (begin end' : ℕ) (committed : Option ListFacts) :
    Except Stop (Variant × ℤ) :=
  let own := do
    let variant := namedVariant (byteAt line begin) begin end'
    .ok (variant, ← orderedNumeral line begin end' variant)
  match committed.bind ListFacts.variant with
  | none => own
  | some variant =>
    match orderedNumeral line begin end' variant with
    | .ok start => .ok (variant, start)
    | .error .refused => own
    | .error .overflowed => .error .overflowed

/-- The ordered marker whose numeral ends at `end'`: what `parse_list_marker` does from there. -/
def numeralMarker (line : List UInt8) (startpos begin end' : ℕ) (closed : Bool)
    (committed : Option ListFacts) (firstColumn : ℕ) (interrupts inside : Bool) :
    Except Stop (ℕ × MarkerData) :=
  let c := byteAt line begin
  let delim := byteAt line end'
  let pos := end' + 1
  if end' = begin then .error .refused
  else if !delimits closed delim then .error .refused
  else do
    let (variant, start) ← readNumeral line begin end' committed
    let kind : DelimiterKind :=
      if c = 0x23 ∧ delim = 0x2e ∧ committed.all ListFacts.isDefault then .default
      else if delim = 0x2e then .period else .parenthesis
    let data : MarkerData := ⟨.ordered variant ⟨kind, closed⟩, start⟩
    if interrupts ∧ start ≠ 1 then .error .refused
    else if committed ≠ some data.facts ∧ start ≠ 1 ∧ inside then .error .refused
    else
      let initial := firstColumn + (pos - startpos)
      let gap := capitalGap line initial line.length pos initial
      if end' = begin + 1 ∧ 0x41 ≤ c ∧ c ≤ 0x5a ∧ delim = 0x2e ∧ gap.2 - initial < 2 ∧
          !isLineEnd (byteAt line gap.1) then .error .refused
      else endMarker line startpos pos interrupts data

/-- `markdown_core_block_parse_list_marker`. The list before is `committed`, and `inside` says
whether the container is in an item of a list or a specimen. -/
def parseListMarker (line : List UInt8) (pos : ℕ) (committed : Option ListFacts)
    (firstColumn : ℕ) (interrupts inside : Bool) : Except Stop (ℕ × MarkerData) :=
  let c := byteAt line pos
  if c = 0x2a ∨ c = 0x2d ∨ c = 0x2b then
    endMarker line pos (pos + 1) interrupts ⟨.bullet c, 0⟩
  else
    let closed : Bool := c = 0x28
    let begin := pos + closed.toNat
    numeralMarker line pos begin (classScan line begin) closed committed firstColumn interrupts
      inside

end MarkdownCore.Marker
