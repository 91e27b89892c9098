import MarkdownCore.Attributes.Recognise
import MarkdownCore.Attributes.Reference

/-!
# Reading a recognised container

A container that recognition has found is read again: its members are staged, values decoded, and
the completion engine lists the spans of its fields. Each reader finds the members' bounds by
itself.
-/

namespace MarkdownCore.Attributes

open Inline

/-- The bytes of a span. -/
def slice (data : List UInt8) (span : Span) : List UInt8 :=
  (data.drop span.start).take (span.stop - span.start)

/-! ### Staging -/

/-- What a container has been read into: its anchor, and its classes and records, a class without
a name. -/
structure Scratch where
  anchor : Option (List UInt8)
  members : List (Option (List UInt8) × List UInt8)

def Scratch.empty : Scratch := ⟨none, []⟩

/-- `add_member`. -/
def Scratch.addMember (w : Scratch) (name : Option (List UInt8)) (value : List UInt8) : Scratch :=
  { w with members := w.members ++ [(name, value)] }

def Scratch.setAnchor (w : Scratch) (value : List UInt8) : Scratch := { w with anchor := some value }

/-- `class_separator`. -/
def classSeparator (c : UInt8) : Bool := c = 0x20 || c = 0x09 || c = 0x0a || c = 0x0c || c = 0x0d

/-- `add_class_run`: the words of a value, `word` what has been read of the one at its start. -/
def Scratch.addClassRun (w : Scratch) : List UInt8 → List UInt8 → Scratch
  | word, [] => if word = [] then w else w.addMember none word
  | word, c :: rest =>
    if classSeparator c then
      (if word = [] then w else w.addMember none word).addClassRun [] rest
    else w.addClassRun (word ++ [c]) rest

/-- `add_record`: a record, or the anchor or class run a record named `id` or `class` is. -/
def Scratch.addRecord (w : Scratch) (name value : List UInt8) : Scratch :=
  if name = [0x69, 0x64] then w.setAnchor value
  else if name = [0x63, 0x6c, 0x61, 0x73, 0x73] then w.addClassRun [] value
  else w.addMember (some name) value

/-- The class of a lone dash: `unnumbered`. -/
def unnumbered : List UInt8 := [0x75, 0x6e, 0x6e, 0x75, 0x6d, 0x62, 0x65, 0x72, 0x65, 0x64]

/-- The value of a bare name: `true`. -/
def bareValue : List UInt8 := [0x74, 0x72, 0x75, 0x65]

section

variable (table : EntityTable) (data : List UInt8) (finish : ℕ)

/-- The loop of `decode_quoted`. -/
def decodeQuotedFrom (quote : UInt8) : ℕ → List UInt8 → ℕ → Option (ℕ × List UInt8)
  | 0, _, _ => none
  | steps + 1, out, pos =>
    if finish - 1 ≤ pos then none
    else if byteAt data pos = quote then some (pos + 1, out)
    else if escaped (data.take finish) pos then
      decodeQuotedFrom quote steps (out ++ [byteAt data (pos + 1)]) (pos + 2)
    else if byteAt data pos = 0x26 then
      match unescapeEnt table ((data.take (finish - 1)).drop (pos + 1)) with
      | some (used, text) => decodeQuotedFrom quote steps (out ++ text) (pos + used + 1)
      | none => decodeQuotedFrom quote steps (out ++ [byteAt data pos]) (pos + 1)
    else if newline (byteAt data pos) then
      decodeQuotedFrom quote steps (out ++ [0x20]) (behindLine (data.take (finish - 1)) pos)
    else decodeQuotedFrom quote steps (out ++ [byteAt data pos]) (pos + 1)

/-- `decode_quoted`: the position behind the closer and the value, or none with nothing kept. -/
def decodeQuoted (opening : ℕ) : Option (ℕ × List UInt8) :=
  decodeQuotedFrom table data finish (byteAt data opening) data.length [] (opening + 1)

/-- The loop of `decode_unquoted`. -/
def decodeUnquotedFrom : ℕ → List UInt8 → ℕ → ℕ × List UInt8
  | 0, out, pos => (pos, out)
  | steps + 1, out, pos =>
    if finish - 1 ≤ pos ∨ valueEnd (byteAt data pos) then (pos, out)
    else if escaped (data.take finish) pos then
      decodeUnquotedFrom steps (out ++ [byteAt data (pos + 1)]) (pos + 2)
    else decodeUnquotedFrom steps (out ++ [byteAt data pos]) (pos + 1)

/-- `decode_unquoted`. -/
def decodeUnquoted (pos : ℕ) : ℕ × List UInt8 := decodeUnquotedFrom data finish data.length [] pos

/-- The loop of `read_container`: where it stops, and what it has staged. -/
@[grind =] def readFrom : ℕ → Scratch → ℕ → ℕ × Scratch
  | 0, w, pos => (pos, w)
  | steps + 1, w, pos =>
    let c := byteAt data pos
    if finish - 1 ≤ pos then (pos, w)
    else if horizontal c || newline c then readFrom steps w (pos + 1)
    else if c = 0x2d ∧ memberBoundary (data.take finish) (pos + 1) then
      readFrom steps (w.addMember none unnumbered) (pos + 1)
    else if c = 0x23 ∨ c = 0x2e then
      let stop := scanName (data.take finish) (pos + 1)
      let name := slice data ⟨pos + 1, stop⟩
      readFrom steps (if c = 0x23 then w.setAnchor name else w.addMember none name) stop
    else
      let stop := scanName (data.take finish) pos
      let name := slice data ⟨pos, stop⟩
      if finish - 1 ≤ stop ∨ byteAt data stop ≠ 0x3d then
        readFrom steps (w.addRecord name bareValue) stop
      else
        let quoted :=
          if isQuote (byteAt data (stop + 1)) then decodeQuoted table data finish (stop + 1)
          else none
        let decoded := quoted.getD (decodeUnquoted data finish (stop + 1))
        readFrom steps (w.addRecord name decoded.2) decoded.1

/-- `read_container`. -/
def readContainer (start : ℕ) : ℕ × Scratch :=
  readFrom table data finish data.length Scratch.empty (start + 1)

end

/-! ### Parts -/

/-- `markdown_core_slot_kind`, as far as a container has fields. -/
inductive SlotKind where
  | id
  | className
  | record
  | value
  deriving DecidableEq, Repr

/-- `markdown_core_part`. -/
structure Part where
  slot : SlotKind
  span : Span
  deriving DecidableEq, Repr

section

variable (data : List UInt8)

/-- `markdown_core_parts_add`: no part is empty or out of the text. -/
def addPart (parts : List Part) (slot : SlotKind) (start stop : ℕ) : List Part :=
  if stop ≤ start ∨ data.length < stop then parts else parts ++ [⟨slot, ⟨start, stop⟩⟩]

/-- The units of a quoted value as the completion engine reads it: a line ending is a byte. -/
def plainUnits (quote : UInt8) : Scanner where
  width pos := if escaped data pos then 2 else 1
  closes pos := byteAt data pos = quote
  width_pos := escape_width_pos data

/-- `quoted_end`. -/
def quotedEnd (quote : UInt8) (pos : ℕ) : ℕ :=
  ((plainUnits data quote).search data.length pos).getD data.length

/-- The loop of `markdown_core_attributes_parts`. -/
@[grind =] def partsFrom (finish : ℕ) : ℕ → List Part → ℕ → List Part
  | 0, parts, _ => parts
  | steps + 1, parts, pos =>
    let c := byteAt data pos
    let text := data.take (finish - 1)
    if finish - 1 ≤ pos then parts
    else if horizontal c || newline c then partsFrom finish steps parts (pos + 1)
    else if c = 0x2d ∧ memberBoundary (data.take finish) (pos + 1) then
      partsFrom finish steps parts (pos + 1)
    else if c = 0x23 ∨ c = 0x2e then
      let stop := scanName text (pos + 1)
      let slot := if c = 0x23 then SlotKind.id else .className
      partsFrom finish steps (addPart data parts slot (pos + 1) stop) stop
    else
      let stop := scanName text pos
      let parts := addPart data parts .record pos stop
      if finish - 1 ≤ stop ∨ byteAt data stop ≠ 0x3d then partsFrom finish steps parts stop
      else
        let pos := stop + 1
        let close :=
          if pos < finish - 1 ∧ isQuote (byteAt data pos) then
            quotedEnd text (byteAt data pos) (pos + 1)
          else finish - 1
        if close < finish - 1 then
          partsFrom finish steps (addPart data parts .value (pos + 1) close) (close + 1)
        else
          let stop := unquotedStop text pos
          partsFrom finish steps (addPart data parts .value pos stop) stop

/-- `markdown_core_attributes_parts`: where the container ends, its parts, and whether storage
was refused. Without a container the brace is answered. -/
def attributesParts (storage : Bool) (brace : ℕ) : ℕ × List Part × Bool :=
  let (finish, p) := attributesEnd storage (.fresh data) brace
  if finish = 0 then (brace, [], p.oom)
  else (finish, partsFrom data finish data.length [] (brace + 1), false)

end

end MarkdownCore.Attributes
