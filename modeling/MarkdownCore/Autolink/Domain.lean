import Mathlib.Computability.StateTransition
import MarkdownCore.Inline.Opaque

/-!
# The domain of a bare autolink

A `www.` candidate and a scheme candidate check the domain that begins at their start: it is
rejected for an underscore in one of its last two segments. The run keeps up to where a rejection
holds, and a candidate that begins before it is refused without a scan.
-/

namespace MarkdownCore.Autolink

open Inline

def isalpha (c : UInt8) : Bool := (0x41 ≤ c && c ≤ 0x5a) || (0x61 ≤ c && c ≤ 0x7a)

/-! ### Host characters -/

/-- The table of Unicode classes, as far as it tells punctuation: in ASCII it is the one of
`markdown_core_ispunct`. -/
structure UnicodeClasses where
  punctuation : ℕ → Bool
  ascii : ∀ c : UInt8, c < 0x80 → punctuation c.toNat = ispunct c

/-- `MARKDOWN_CORE_NO_SCALAR`. -/
def noScalar : ℕ := 0x110000

/-- `markdown_core_utf8proc_decode`: the width of the character at a position and its scalar. -/
def decode (data : List UInt8) (pos : ℕ) : ℕ × ℕ :=
  let len := data.length - pos
  let lead := (byteAt data pos).toNat
  let str1 := (byteAt data (pos + 1)).toNat
  let str2 := (byteAt data (pos + 2)).toNat
  let str3 := (byteAt data (pos + 3)).toNat
  if lead < 0x80 then (1, lead)
  else if lead < 0xc0 then (1, noScalar)
  else if lead < 0xe0 then
    if 2 ≤ len then (2, lead <<< 6 ^^^ str1 ^^^ 0x3080) else (len, noScalar)
  else if lead < 0xf0 then
    if 3 ≤ len then (3, lead <<< 12 ^^^ str1 <<< 6 ^^^ str2 ^^^ 0xe2080) else (len, noScalar)
  else if 4 ≤ len then
    (4, lead <<< 18 ^^^ str1 <<< 12 ^^^ str2 <<< 6 ^^^ str3 ^^^ 0x3c82080)
  else
    -- Cut off by the range: the rest of the range.
    (len, noScalar)

section

variable (classes : UnicodeClasses) (data : List UInt8)

/-- `hostchar_width`: `0` for whitespace and punctuation. -/
def hostcharWidth (link : ℕ) : ℕ :=
  if isWhitespace (byteAt data link) || classes.punctuation (decode data link).2 then 0
  else (decode data link).1

/-! ### Candidates -/

/-- The schemes of `sd_autolink_issafe`: `http://`, `https://` and `ftp://`. -/
def validUris : List (List UInt8) :=
  [[0x68, 0x74, 0x74, 0x70, 0x3a, 0x2f, 0x2f], [0x68, 0x74, 0x74, 0x70, 0x73, 0x3a, 0x2f, 0x2f],
    [0x66, 0x74, 0x70, 0x3a, 0x2f, 0x2f]]

/-- A letter in lower case, as `strncasecmp` compares it. -/
def tolower (c : UInt8) : UInt8 := if 0x41 ≤ c ∧ c ≤ 0x5a then c + 0x20 else c

/-- `sd_autolink_issafe`. -/
def autolinkIssafe (link : ℕ) : Bool :=
  validUris.any fun uri =>
    decide (uri.length < data.length - link) &&
      ((List.range uri.length).all fun i => tolower (byteAt data (link + i)) = uri.getD i 0) &&
      hostcharWidth classes data (link + uri.length) ≠ 0

/-- The letters right before a position. -/
def rewindLetters (offset : ℕ) : ℕ := ((data.take offset).reverse.takeWhile isalpha).length

/-- `www_match`, up to the domain it checks: its start. -/
def wwwStart (contextStart offset : ℕ) : Option ℕ :=
  if contextStart < offset ∧
      byteAt data (offset - 1) ∉ ([0x2a, 0x5f, 0x7e, 0x28] : List UInt8) ∧
      isWhitespace (byteAt data (offset - 1)) = false then none
  else if byteAt data offset = 0x77 ∧ byteAt data (offset + 1) = 0x77 ∧
      byteAt data (offset + 2) = 0x77 ∧ byteAt data (offset + 3) = 0x2e then some offset
  else none

/-- `url_match` at a colon, up to the domain it checks: its start. -/
def urlStart (offset : ℕ) : Option ℕ :=
  if byteAt data offset = 0x3a ∧ 4 ≤ data.length - offset ∧ byteAt data (offset + 1) = 0x2f ∧
      byteAt data (offset + 2) = 0x2f ∧
      autolinkIssafe classes data (offset - rewindLetters data offset) then some (offset + 3)
  else none

/-! ### The check -/

/-- What the scan of a domain counts: the underscores of the segment before the last dot and of
the one behind it, the dots, and where it last met an underscore. -/
structure Segments where
  uscore1 : ℕ
  uscore2 : ℕ
  np : ℕ
  lastUnderscore : ℕ
  deriving DecidableEq, Repr

/-- An underscore in one of the last two segments. -/
def Segments.Rejects (s : Segments) : Prop := 0 < s.uscore1 ∨ 0 < s.uscore2

instance (s : Segments) : Decidable s.Rejects := inferInstanceAs (Decidable (_ ∨ _))

/-- The byte a turn of the scan reads: behind a backslash, unless the content ends there. -/
def reading (pos : ℕ) : ℕ :=
  if byteAt data pos = 0x5c ∧ pos + 2 < data.length then pos + 1 else pos

/-- One turn of the scan, none where it ends. -/
def turn : ℕ × Segments → Option (ℕ × Segments)
  | (pos, s) =>
    if data.length ≤ pos + 1 then none
    else
      let i := reading data pos
      if byteAt data i = 0x5f then
        some (i + 1, { s with uscore2 := s.uscore2 + 1, lastUnderscore := i })
      else if byteAt data i = 0x2e then
        some (i + 1, { s with uscore1 := s.uscore2, uscore2 := 0, np := s.np + 1 })
      else if byteAt data i = 0x2d then some (i + 1, s)
      else if hostcharWidth classes data i = 0 then none
      else some (i + hostcharWidth classes data i, s)

/-- The turns of the scan, each over a byte at least. -/
def turns : ℕ → ℕ × Segments → ℕ × Segments
  | 0, state => state
  | steps + 1, state =>
    match turn classes data state with
    | none => (reading data state.1, state.2)
    | some state => turns steps state

/-- The scan of the domain that begins at a position, behind its first character. -/
def scanDomain (start : ℕ) : ℕ × Segments :=
  turns classes data data.length (start + (decode data start).1, ⟨0, 0, 0, start⟩)

/-- `check_domain`: its answer, and up to where the rejection holds. Positions are those of the
content. -/
def checkDomain (rejectedUntil start : ℕ) (allowShort : Bool) : ℕ × ℕ :=
  if start < rejectedUntil then (0, rejectedUntil)
  else
    let (i, s) := scanDomain classes data start
    if s.Rejects then (0, s.lastUnderscore)
    else if allowShort then (i - start, rejectedUntil)
    else (if 0 < s.np then i - start else 0, rejectedUntil)

/-! ### Runs -/

/-- A candidate of a run: a `www.` one, with where its bracket's context starts, or the colon of a
scheme. -/
inductive Candidate where
  | www (contextStart offset : ℕ)
  | scheme (offset : ℕ)

/-- The start of the domain a candidate checks. -/
def Candidate.start? : Candidate → Option ℕ
  | .www contextStart offset => wwwStart data contextStart offset
  | .scheme offset => urlStart classes data offset

/-- A scheme needs no dot. -/
def Candidate.allowShort : Candidate → Bool
  | .www .. => false
  | .scheme _ => true

/-- A call of `check_domain`. -/
structure Call where
  start : ℕ
  candidate : Candidate
  starts : candidate.start? classes data = some start

/-- The answers of a run of calls, and up to where a rejection holds behind them. -/
def answers : ℕ → List (Call classes data) → List ℕ × ℕ
  | rejectedUntil, [] => ([], rejectedUntil)
  | rejectedUntil, call :: rest =>
    let (answer, rejectedUntil) :=
      checkDomain classes data rejectedUntil call.start call.candidate.allowShort
    let (more, rejectedUntil) := answers rejectedUntil rest
    (answer :: more, rejectedUntil)

end

end MarkdownCore.Autolink
