import MarkdownCore.Autolink.Domain
import MarkdownCore.Inline.Backticks
import MarkdownCore.Inline.Html

/-!
# Braced citation keys

One pass over a content's bytes finds the brace that closes each `{`, past the code spans and the
HTML it holds. The cursor that tells how far a key goes on past a point looks for the brace on its
own, from the bytes behind the key's `{` alone.
-/

namespace MarkdownCore.Citation

open Inline
open Autolink (isalpha)

/-! ### The scanners of autolinks -/

/-- Up to `n` times. -/
def atMost (r : Pattern UInt8) : ℕ → Pattern UInt8
  | 0 => .empty
  | n + 1 => .opt (.seq r (atMost r n))

def scheme : Pattern UInt8 :=
  .word [range letters,
    range (letters ++ digits ++ [(0x2e, 0x2e), (0x2b, 0x2b), (0x2d, 0x2d)]),
    atMost (range (letters ++ digits ++ [(0x2e, 0x2e), (0x2b, 0x2b), (0x2d, 0x2d)])) 30]

/-- `scan_autolink_uri`. -/
def autolinkUri : Pattern UInt8 :=
  .word [scheme, chr 0x3a,
    .star (.one fun c => 0x20 < c && c ≠ 0x7f && c ≠ 0x3c && c ≠ 0x3e), chr 0x3e]

/-- A part of a domain. -/
def domainLabel : Pattern UInt8 :=
  .word [range (letters ++ digits),
    .opt (.seq (atMost (range (letters ++ digits ++ [(0x2d, 0x2d)])) 61)
      (range (letters ++ digits)))]

/-- `scan_autolink_email`. -/
def autolinkEmail : Pattern UInt8 :=
  .word [
    .plus (.one fun c => letters.any (fun r => r.1 ≤ c && c ≤ r.2) || (0x30 ≤ c && c ≤ 0x39) ||
      [0x2e, 0x21, 0x23, 0x24, 0x25, 0x26, 0x27, 0x2a, 0x2b, 0x2f, 0x3d, 0x3f, 0x5e, 0x5f, 0x60,
        0x7b, 0x7c, 0x7d, 0x7e, 0x2d].contains c),
    chr 0x40, domainLabel, .star (.seq (chr 0x2e) domainLabel), chr 0x3e]

/-! ### The brace index -/

/-- `citation_brace`: where a brace starts and, `0` where no key ends, where its key does; the brace
around it; and what has been read of its content. -/
structure Brace where
  start : ℕ
  stop : ℕ := 0
  previous : Option ℕ
  valid : Bool := true
  content : Bool := false
  cut : Bool := false
deriving DecidableEq

/-- `citation_brace_index` while it is made, with the brace that is open. -/
structure Index where
  entries : List Brace := []
  top : Option ℕ := none
deriving DecidableEq

/-- What the pass keeps besides: its HTML flags, and the code element's record in the run. -/
structure Scan where
  flags : HtmlFlags := {}
  backticks : CodeBackticks

/-- What a turn of the pass reads: a brace, or other bytes, whitespace among them or not. -/
inductive Token where
  | opening (start : ℕ)
  | closing (at' : ℕ)
  | bytes (blank : Bool)
deriving DecidableEq

/-- `source_escaped` from the content's start. -/
def sourceEscaped (data : List UInt8) (at' : ℕ) : Bool :=
  ((data.take at').reverse.takeWhile (· = 0x5c)).length % 2 ≠ 0

/-- Where the opaque span at a byte ends, the byte itself where none starts, and whether a span is
cut by the content's end. -/
def opaqueSpan (input : Content) (code : Bool) (at' : ℕ) (scan : Scan) : ℕ × Bool × Scan :=
  let c := byteAt input.data at'
  let escaped := (c = tick ∨ c = 0x3c) ∧ sourceEscaped input.data at'
  if c = tick ∧ !escaped ∧ code then
    let run := at' + width (fun c => c = tick) input.data at'
    let (stop, backticks) := scanToClosingBackticks input scan.backticks run (run - at')
    if stop = 0 then (run, true, { scan with backticks }) else (stop, false, { scan with backticks })
  else if c = 0x3c ∧ !escaped then
    let (length, flags, _) := scanInlineHtml input.data (at' + 1) scan.flags
    let length := if length = 0 then scanPattern autolinkUri input.data (at' + 1) else length
    let length := if length = 0 then scanPattern autolinkEmail input.data (at' + 1) else length
    if length ≠ 0 then (at' + 1 + length, false, { scan with flags })
    else (at', startsWith [0x3c, 0x21, 0x2d, 0x2d] input.data at', { scan with flags })
  else (at', false, scan)

/-- A turn of the pass at a byte: what it reads, where it goes on, and whether it cuts the key that
is open. -/
def readUnit (input : Content) (code : Bool) (at' : ℕ) (scan : Scan) : Token × ℕ × Bool × Scan :=
  let c := byteAt input.data at'
  let (stop, cut, scan) := opaqueSpan input code at' scan
  if at' < stop then
    (.bytes (((input.data.drop at').take (stop - at')).any isWhitespace), stop, cut, scan)
  else if c = 0x7b then (.opening at', at' + 1, cut, scan)
  else if c = 0x7d then (.closing at', at' + 1, cut, scan)
  else (.bytes (isWhitespace c), at' + 1, cut, scan)

namespace Index

/-- The entry of the brace that is open, updated. -/
def modifyTop (index : Index) (f : Brace → Brace) : Index :=
  match index.top with
  | none => index
  | some top => { index with entries := index.entries.modify top f }

/-- What a turn of the pass does to the index. -/
def read (index : Index) : Token → Index
  | .bytes blank =>
    index.modifyTop fun brace => { brace with content := true, valid := brace.valid && !blank }
  | .opening start =>
    { entries := index.entries ++ [{ start, previous := index.top }]
      top := some index.entries.length }
  | .closing at' =>
    match index.top with
    | none => index
    | some top =>
      let brace := index.entries.getD top ⟨0, 0, none, false, false, false⟩
      let valid := brace.valid && brace.content
      ({ entries := index.entries.modify top fun brace =>
          { brace with stop := if valid then at' + 1 else 0 }
         top := brace.previous } : Index).modifyTop fun brace =>
        { brace with valid := brace.valid && valid, content := true }

end Index

/-- The loop of `opaque_end` over the runs of backticks from a byte, for the first of a length. -/
def closingRun (data : List UInt8) (length : ℕ) : ℕ → ℕ → Option ℕ
  | 0, _ => none
  | fuel + 1, i =>
    if i < data.length then
      let run := width (fun c => c = tick) data i
      if run = length then some (i + run)
      else closingRun data length fuel (if 0 < run then i + run else i + 1)
    else none

/-- The loop of `opaque_end` over a tag, past quoted values. -/
def tagEnd : Option UInt8 → ℕ → List UInt8 → Option ℕ
  | _, _, [] => none
  | some quote, i, c :: rest => tagEnd (if c = quote then none else some quote) (i + 1) rest
  | none, i, c :: rest =>
    if c = 0x22 ∨ c = 0x27 then tagEnd (some c) (i + 1) rest
    else if c = 0x3e then some (i + 1)
    else if c = 0x3c ∨ c = 0x0a then none
    else tagEnd none (i + 1) rest

/-- `opaque_end`. -/
def opaqueEnd (data : List UInt8) (at' : ℕ) : ℕ :=
  if byteAt data at' = tick then
    let run := at' + width (fun c => c = tick) data at'
    (closingRun data (run - at') data.length run).getD run
  else if byteAt data at' ≠ 0x3c ∨ data.length ≤ at' + 1 then at'
  else if startsWith [0x3c, 0x21, 0x2d, 0x2d] data at' then
    ((firstCloser [0x2d, 0x2d, 0x3e] data (at' + 4)).map (· + 3)).getD at'
  else if !isalpha (byteAt data (at' + 1)) ∧ byteAt data (at' + 1) ≠ 0x2f then at'
  else (tagEnd none (at' + 1) (data.drop (at' + 1))).getD at'

/-- Where the cursor goes on past the byte it is at: behind an opaque span, unless a backslash is
right before. -/
def skip (data : List UInt8) (pos : ℕ) : ℕ :=
  if 0 < pos ∧ byteAt data (pos - 1) = 0x5c then pos else opaqueEnd data pos

end MarkdownCore.Citation
