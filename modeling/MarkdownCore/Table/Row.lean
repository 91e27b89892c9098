import MarkdownCore.Inline.Opaque

/-!
# Pipe rows

A cursor goes over the cells of a row, and over the rows of a text of several lines to its last.
Recognition counts the last row's cells with it, and a table's rows are read with it again.
-/

namespace MarkdownCore.Table

open Inline (byteAt isWhitespace)

/-! ### The scanners, each on what is left of the source -/

def isSpaceOrTab (c : UInt8) : Bool := c = 0x20 || c = 0x09

/-- `scan_table_cell`: the bytes up to a NUL, a line ending or a pipe that no backslash is right
before. -/
def tableCell (escaped : Bool) : List UInt8 → ℕ
  | [] => 0
  | c :: rest =>
    if c = 0x00 ∨ c = 0x0a ∨ c = 0x0d then 0
    else if c = 0x7c ∧ !escaped then 0
    else 1 + tableCell (c = 0x5c) rest

def scanTableCell (source : List UInt8) (offset : ℕ) : ℕ := tableCell false (source.drop offset)

/-- `scan_table_cell_end`: a pipe and the spaces and tabs after it. -/
def scanTableCellEnd (source : List UInt8) (offset : ℕ) : ℕ :=
  match source.drop offset with
  | [] => 0
  | c :: rest => if c = 0x7c then 1 + (rest.takeWhile isSpaceOrTab).length else 0

/-- `scan_table_row_end`: spaces and tabs, and a line ending. -/
def scanTableRowEnd (source : List UInt8) (offset : ℕ) : ℕ :=
  let blanks := ((source.drop offset).takeWhile isSpaceOrTab).length
  match source.drop (offset + blanks) with
  | [] => 0
  | c :: rest =>
    if c = 0x0a then blanks + 1
    else if c = 0x0d then if rest.head? = some 0x0a then blanks + 2 else blanks + 1
    else 0

/-! ### The cursor -/

/-- `node_cell`: the cell's trimmed bytes, from `data` of the source on, and where it lies. -/
structure NodeCell where
  data : ℕ
  content : List UInt8
  startOffset : ℕ
  endOffset : ℕ
  internalOffset : ℕ
deriving DecidableEq

/-- `pipe_row_cursor`. -/
structure Cursor where
  offset : ℕ
  rowStart : ℕ
  columns : ℕ
  finished : Bool
  valid : Bool
deriving DecidableEq

/-- `pipe_row_begin`. -/
def pipeRowBegin (source : List UInt8) (start : ℕ) : Cursor :=
  ⟨start + scanTableCellEnd source start, start, 0, false, false⟩

/-- How far the loop of `pipe_row_next` goes back from an offset, to a pipe or the row's start. -/
def walkBack (source : List UInt8) (rowStart : ℕ) : ℕ → ℕ
  | 0 => 0
  | offset + 1 =>
    if rowStart < offset + 1 ∧ byteAt source offset ≠ 0x7c then
      walkBack source rowStart offset + 1
    else 0

/-- `markdown_core_chunk_trim` of `length` bytes from `offset` on. -/
def trim (source : List UInt8) (offset length : ℕ) : ℕ × List UInt8 :=
  let bytes := (source.drop offset).take length
  (offset + (bytes.takeWhile isWhitespace).length,
    (((bytes.dropWhile isWhitespace).reverse.dropWhile isWhitespace).reverse))

/-- The cell of `content` bytes at `offset`. -/
def nodeCell (source : List UInt8) (rowStart offset content : ℕ) : NodeCell :=
  let back := walkBack source rowStart offset
  { data := (trim source offset content).1
    content := (trim source offset content).2
    startOffset := offset - back
    endOffset := if content = 0 ∧ back = 0 then offset else offset + content - 1
    internalOffset := back }

/-- The cursor past `content` bytes of a cell and `separator` of its end; where no pipe ends the
cell, past the row's end, at the next row or at none. -/
def Cursor.advance (source : List UInt8) (c : Cursor) (content separator : ℕ) : Cursor :=
  let offset := c.offset + content + separator
  if separator = 0 then
    let ending := scanTableRowEnd source offset
    if ending ≠ 0 ∧ offset + ending ≠ source.length then
      { c with
        offset := offset + ending + scanTableCellEnd source (offset + ending)
        rowStart := offset + ending
        columns := 0 }
    else { c with offset := offset + ending, finished := true }
  else { c with offset }

/-- What one turn of `pipe_row_next` comes to: too many cells, a cell, or none. -/
inductive Turn where
  | full (c : Cursor)
  | cell (cell : NodeCell) (c : Cursor)
  | blank (c : Cursor)

def Cursor.turn (source : List UInt8) (c : Cursor) : Turn :=
  let content := scanTableCell source c.offset
  let separator := scanTableCellEnd source (c.offset + content)
  if content ≠ 0 ∨ separator ≠ 0 then
    if 65535 < c.columns + 1 then .full { c with columns := c.columns + 1, finished := true }
    else
      .cell (nodeCell source c.rowStart c.offset content)
        ({ c with columns := c.columns + 1 }.advance source content separator)
  else .blank (c.advance source content separator)

/-- The end of `pipe_row_next`. -/
def Cursor.stop (source : List UInt8) (c : Cursor) : Cursor :=
  { c with finished := true, valid := decide (c.offset = source.length ∧ c.columns ≠ 0) }

/-- `pipe_row_next`; the first argument bounds its turns. -/
def Cursor.nextFrom (source : List UInt8) : ℕ → Cursor → Option NodeCell × Cursor
  | 0, c => (none, c)
  | fuel + 1, c =>
    if !c.finished ∧ c.offset < source.length then
      match c.turn source with
      | .full c => (none, c)
      | .cell cell c => (some cell, c)
      | .blank c => Cursor.nextFrom source fuel c
    else (none, c.stop source)

def pipeRowNext (source : List UInt8) (c : Cursor) : Option NodeCell × Cursor :=
  Cursor.nextFrom source (source.length + 1) c

/-! ### Recognition -/

/-- The loop of `recognize_pipe_row`; the first argument bounds its turns. -/
def drain (source : List UInt8) : ℕ → Cursor → Cursor
  | 0, c => c
  | fuel + 1, c =>
    match pipeRowNext source c with
    | (some _, c) => drain source fuel c
    | (none, c) => c

/-- `pipe_row`, less the source it borrows. -/
structure PipeRow where
  paragraphOffset : ℕ
  columns : ℕ
deriving DecidableEq

/-- `recognize_pipe_row`. -/
def recognizePipeRow (source : List UInt8) : Option PipeRow :=
  let c := drain source (source.length + 1) (pipeRowBegin source 0)
  if c.valid then some ⟨c.rowStart, c.columns % 65536⟩ else none

/-- The cells a loop over `pipe_row_next` reads, as many as `limit` at most. -/
def readCells (source : List UInt8) : ℕ → Cursor → List NodeCell
  | 0, _ => []
  | limit + 1, c =>
    match pipeRowNext source c with
    | (some cell, c) => cell :: readCells source limit c
    | (none, _) => []

end MarkdownCore.Table
