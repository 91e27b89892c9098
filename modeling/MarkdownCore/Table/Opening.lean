import Mathlib.Data.List.Forall2
import MarkdownCore.Table.Cell
import MarkdownCore.Table.RowRun

/-!
# Tables

A delimiter row under a paragraph makes the paragraph's last line a table's header, when both have
as many cells. A line after it that is a row is a body row, completed or cut to the header's width.
-/

namespace MarkdownCore.Table

open Inline (byteAt)
open Source

/-- `markdown_core_flow`. -/
inductive Flow where
  | none
  | left
  | center
  | right
deriving DecidableEq

/-- An open paragraph: its text, the text's map, and `MARKDOWN_CORE_NODE__TABLE_VISITED`. -/
structure Paragraph where
  text : List UInt8
  map : ContentMap
  ok : map.Ok
  visited : Bool

/-- A body row, and the table's count of completed cells before it. -/
structure Row where
  internalOffset : ℕ
  cells : List Cell
deriving DecidableEq

/-- A table: the text of its header row and the text's map, `markdown_core_table`, the cells of the
header and the rows. -/
structure PipeTable where
  text : List UInt8
  map : ContentMap
  columnCount : ℕ
  columns : List Flow
  autocompletedCells : ℕ
  header : List Cell
  rows : List Row
deriving DecidableEq

/-- A delimiter cell's flow, of the first and the last byte of its content. -/
def flow (source : List UInt8) (cell : NodeCell) : Flow :=
  let left := byteAt source cell.data = 0x3a
  let right := byteAt source (cell.data + cell.content.length - 1) = 0x3a
  if left then if right then .center else .left else if right then .right else .none

/-- What a line does to the paragraph before it. -/
inductive Opening where
  | refused (visited : Bool)
  | opened (table : PipeTable)
deriving DecidableEq

/-- A line after a table's: its bytes, the first that is not blank, where its bytes were written,
its number, and whether it is blank. -/
structure Line where
  input : List UInt8
  firstNonspace : ℕ
  source : InputLine
  number : ℕ
  blank : Bool

/-- The cell is made from what the cursor read, at `offset` of the origin. -/
structure IsCell (origin : Origin) (offset : ℕ) (source : NodeCell) (cell : Cell) : Prop where
  internalOffset_eq : cell.internalOffset = source.internalOffset
  holds : Holds origin (offset + source.data) source.content cell

variable {source : List UInt8} {cells : List NodeCell} {origin : Origin} {offset : ℕ}

/-- What a table is opened as. -/
structure Opened (paragraph : Paragraph) (delimiter : List UInt8) (table : PipeTable) : Prop where
  columnCount_pos : 0 < table.columnCount
  columnCount_le : table.columnCount ≤ 65535
  /-- The header is the last line of the paragraph. -/
  header_row : ∃ start, recognizePipeRow paragraph.text = some ⟨start, table.columnCount⟩ ∧
    table.text = paragraph.text.drop start ∧
    ∀ x < table.text.length, ∀ stop,
      table.map.placeOf x stop = paragraph.map.placeOf (start + x) stop
  /-- The columns are the cells of the delimiter row. -/
  delimiter_row : ∃ start cells, recognizePipeRow delimiter = some ⟨start, table.columnCount⟩ ∧
    Reading delimiter start cells ∧ table.columns = cells.map (flow delimiter)
  columns_length : table.columns.length = table.columnCount
  /-- The second cursor reads a header cell for each column. -/
  header_cells : ∃ cells, Reading table.text 0 cells ∧ cells.length = table.columnCount ∧
    List.Forall₂ (IsCell (.content table.map) 0) cells table.header
  header_length : table.header.length = table.columnCount
  rows_eq : table.rows = []

end MarkdownCore.Table
