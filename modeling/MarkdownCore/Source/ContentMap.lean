import MarkdownCore.Library.Bisect

/-!
# Content maps

A block's text is put together from slices of the source, and its map tells where each byte of it
was written: a run of the text begins at each mark, with the source byte it begins at, how many
source bytes each of its bytes stands for and how far apart they lie. A map's marks are a slice of
the parser's, whose origin is where the text begins among them.
-/

namespace MarkdownCore.Source

/-- `markdown_core_line_mark`. -/
structure Mark where
  offset : ℕ
  line : ℕ
  source : ℤ
  width : ℤ
  step : ℤ
deriving DecidableEq, Inhabited

/-- Where the byte at `offset` of the text was written, or where what it stands for ends. -/
def Mark.place (mark : Mark) (offset : ℕ) (stop : Bool) : ℤ :=
  mark.source + ((offset : ℤ) - mark.offset) * mark.step + if stop then mark.width else 0

/-- `markdown_core_content_map`, with the marks it names. -/
structure ContentMap where
  marks : List Mark
  origin : ℕ
deriving DecidableEq

/-- `markdown_core_block_content_mark_near` from the first mark: the two first marks are tried, and
the rest searched. -/
def markAt (marks : List Mark) (offset : ℕ) : ℕ :=
  let before := fun k => decide ((marks.getD k default).offset ≤ offset)
  let hi := marks.length - 1
  if before 0 then
    if hi ≠ 0 ∧ before 1 then
      if hi ≠ 1 ∧ before 2 then Bisect.last before marks.length 2 hi else 1
    else 0
  else 0

/-- A run of the owner's text, from `first` on, as a run of the text that takes it at `offset`. -/
def Mark.cut (mark : Mark) (first offset : ℕ) : Mark :=
  let start := if mark.offset < first then first else mark.offset
  { mark with
    source := mark.source + ((start : ℤ) - mark.offset) * mark.step
    offset := offset + start - first }

namespace ContentMap

/-- `S_content_place`: the line and the source byte. -/
def contentPlace (map : ContentMap) (offset : ℕ) (stop : Bool) : Option (ℕ × ℤ) :=
  if map.marks = [] then none
  else
    let mark := map.marks.getD (markAt map.marks (offset + map.origin)) default
    some (mark.line, mark.place (offset + map.origin) stop)

/-- `S_append_content_mark`, with storage for the mark: a mark where the last one is takes its
place. -/
def appendMark (map : ContentMap) (mark : Mark) : ContentMap :=
  let mark := { mark with offset := mark.offset + map.origin }
  match map.marks.getLast? with
  | some last =>
    if last.offset = mark.offset then { map with marks := map.marks.dropLast ++ [mark] }
    else { map with marks := map.marks ++ [mark] }
  | none => { map with marks := [mark] }

/-- The marks of the run at `first` through that of the last of `length` bytes. -/
def slice (map : ContentMap) (first length : ℕ) : List Mark :=
  let lo := markAt map.marks first
  (map.marks.drop lo).take (markAt map.marks (first + length - 1) + 1 - lo)

/-- `markdown_core_parser_adopt_content_marks`. -/
def adoptMarks (owner map : ContentMap) (first length : ℕ) : ContentMap :=
  if owner.marks = [] ∨ length = 0 then map
  else ⟨owner.slice (first + owner.origin) length, first + owner.origin⟩

/-- `markdown_core_parser_append_content_marks`: `none` when the owner has no map. -/
def appendMarks (owner map : ContentMap) (first length offset : ℕ) : Option ContentMap :=
  if length = 0 then some map
  else if owner.marks = [] then none
  else some ((owner.slice (first + owner.origin) length).foldl
    (fun map mark => map.appendMark (mark.cut (first + owner.origin) offset)) map)

end ContentMap

/-! ### Input lines -/

/-- The owner's marks are in order, and the first is where the text begins or before. -/
structure ContentMap.Ok (map : ContentMap) : Prop where
  increasing : map.marks.Pairwise (·.offset < ·.offset)
  covered : ∃ mark ∈ map.marks.head?, mark.offset ≤ map.origin

/-- A line of the input a block is read from: where it starts in it, and, for a document's line
that holds NUL, where in the source its NULs are, each read as the three bytes of U+FFFD; for a line
of a cell, the cell's map. -/
inductive InputLine where
  | copied (start : ℕ)
  | nul (start : ℕ) (nuls : List ℕ) (increasing : nuls.Pairwise (· < ·))
    (inLine : ∀ nul ∈ nuls, start ≤ nul)
  | mapped (start : ℕ) (owner : ContentMap) (ok : owner.Ok)

/-- Where the NUL numbered `k` is in the line as it is read. -/
def nulIndex (start : ℕ) (nuls : List ℕ) (k : ℕ) : ℕ := nuls.getD k 0 - start + 2 * k

/-- `S_denormalized_offset`. -/
def denormalizedOffset (start : ℕ) (nuls : List ℕ) (index : ℕ) : ℤ :=
  let lo := Bisect.bisect (fun k => nulIndex start nuls k ≤ index) nuls.length 0 nuls.length
  if 0 < lo ∧ index < nulIndex start nuls (lo - 1) + 3 then nuls.getD (lo - 1) 0
  else (start : ℤ) + index - 2 * lo

namespace InputLine

/-- `markdown_core_parser_source_offset` of the byte at `index` of the line, which is its column
less one: `none` when the cell has no map. -/
def sourceOffset (line : InputLine) (index : ℕ) : Option ℤ :=
  match line with
  | copied start => some (start + index : ℤ)
  | nul start nuls _ _ => some (denormalizedOffset start nuls index)
  | mapped start owner _ => (owner.contentPlace (start + index) false).map Prod.snd

/-- `markdown_core_parser_source_end` of the byte at `index` of the line. -/
def sourceEnd (line : InputLine) (index : ℕ) : Option ℤ :=
  match line with
  | copied start => some (start + index + 1 : ℤ)
  | nul start nuls _ _ => some (denormalizedOffset start nuls index + 1)
  | mapped start owner _ => (owner.contentPlace (start + index) true).map Prod.snd

/-- The loop of `S_append_nul_line_marks`, from `index` and the NUL numbered `k`; the first argument
bounds its turns. -/
def nulMarks (start : ℕ) (nuls : List ℕ) (number first last offset : ℕ) :
    ℕ → ℕ → ℕ → ContentMap → ContentMap
  | 0, _, _, map => map
  | fuel + 1, index, k, map =>
    if index < last then
      let place := if k < nuls.length then nulIndex start nuls k else last
      let inside := decide (k < nuls.length ∧ place ≤ index)
      let source : ℤ := if inside then nuls.getD k 0 else (start : ℤ) + index - 2 * k
      let map := map.appendMark
        ⟨offset + index - first, number, source, 1, if inside then 0 else 1⟩
      let next := if inside then place + 3 else place
      nulMarks start nuls number first last offset fuel (if next < last then next else last)
        (if inside then k + 1 else k) map
    else map

/-- `S_append_input_marks`: the runs of `length` bytes from `index` of the line, which is input line
`number`, at `offset` of the text. -/
def appendMarks (line : InputLine) (map : ContentMap) (number index length offset : ℕ) :
    Option ContentMap :=
  match line with
  | copied start => some (map.appendMark ⟨offset, number, start + index, 1, 1⟩)
  | nul start nuls _ _ =>
    let k := Bisect.bisect (fun k => nulIndex start nuls k + 3 ≤ index) nuls.length 0 nuls.length
    some (nulMarks start nuls number index (index + length) offset length index k map)
  | mapped start owner _ => owner.appendMarks map (start + index) length offset

end InputLine

end MarkdownCore.Source
