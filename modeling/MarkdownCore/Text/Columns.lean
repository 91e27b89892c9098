import MarkdownCore.Text.Scalars

/-!
# Virtual columns

The cursor of a line's prefixes: a byte offset, and a virtual column that counts each scalar once
and takes a tab to the next tab stop. A count of columns may consume a part of a tab. Where the
first byte that is no space or tab stands is kept while the cursor is before it.
-/

namespace MarkdownCore.Text

/-- `TAB_STOP`. -/
def tabStop : ℕ := 4

/-- `markdown_core_parser_at`, what the prefixes of a line read and write of it. -/
structure At where
  offset : ℕ
  column : ℕ
  firstNonspace : ℕ
  firstNonspaceColumn : ℕ
  indent : ℤ
  blank : Bool
  partiallyConsumedTab : Bool
  deriving DecidableEq, Repr

/-- A line's start. -/
def At.lineStart : At := ⟨0, 0, 0, 0, 0, false, false⟩

/-- `peek_at`: a line is followed by a NUL. -/
def peekAt (line : List UInt8) (n : ℕ) : UInt8 := line.getD n 0

/-- `markdown_core_is_line_end`. -/
def isLineEnd (c : UInt8) : Bool := c = 10 ∨ c = 13

/-- The walk of `markdown_core_block_find_first_nonspace` over spaces and tabs. -/
def skipBlanks (line : List UInt8) : ℕ → ℕ → ℕ → ℕ × ℕ
  | 0, at', column => (at', column)
  | fuel + 1, at', column =>
    let c := peekAt line at'
    if c = 32 then skipBlanks line fuel (at' + 1) (column + 1)
    else if c = 9 then
      skipBlanks line fuel (at' + 1) (column + (tabStop - column % tabStop))
    else (at', column)

/-- `markdown_core_block_find_first_nonspace`. -/
def findFirstNonspace (line : List UInt8) (s : At) : At :=
  let first := if s.firstNonspace ≤ s.offset then skipBlanks line line.length s.offset s.column
    else (s.firstNonspace, s.firstNonspaceColumn)
  { s with
    firstNonspace := first.1
    firstNonspaceColumn := first.2
    indent := (first.2 : ℤ) - s.column
    blank := isLineEnd (peekAt line first.1) }

/-- The loop of `markdown_core_block_advance_offset`. -/
def advanceFrom (line : List UInt8) (columns : Bool) : ℕ → ℕ → At → At
  | 0, _, s => s
  | fuel + 1, count, s =>
    let c := peekAt line s.offset
    if 0 < count ∧ s.offset < line.length ∧ c ≠ 0 then
      if c = 9 then
        let charsToTab := tabStop - s.column % tabStop
        if columns then
          let part : Bool := count < charsToTab
          let advance := min count charsToTab
          advanceFrom line columns fuel (count - advance)
            { s with
              partiallyConsumedTab := part
              column := s.column + advance
              offset := s.offset + if part then 0 else 1 }
        else
          advanceFrom line columns fuel (count - 1)
            { s with
              partiallyConsumedTab := false
              column := s.column + charsToTab
              offset := s.offset + 1 }
      else
        let scalarEnd : Bool :=
          s.offset + 1 = line.length ∨ continues (peekAt line (s.offset + 1)) = false
        advanceFrom line columns fuel
          (if columns then (if scalarEnd then count - 1 else count) else count - 1)
          { s with
            partiallyConsumedTab := false
            offset := s.offset + 1
            column := s.column + if scalarEnd then 1 else 0 }
    else s

/-- `markdown_core_block_advance_offset`: each turn goes past a byte or ends the count. -/
def advanceOffset (line : List UInt8) (count : ℕ) (columns : Bool) (s : At) : At :=
  advanceFrom line columns (line.length - s.offset + 1) count s

/-- `markdown_core_block_continue_indented`. -/
def continueIndented (line : List UInt8) (continuation : ℕ) (acceptsBlank : Bool) (s : At) :
    Bool × At :=
  if (continuation : ℤ) ≤ s.indent then (true, advanceOffset line continuation true s)
  else if s.blank ∧ acceptsBlank then
    (true, advanceOffset line (s.firstNonspace - s.offset) false s)
  else (false, s)

/-- What adding a line leaves: the cursor, the block's content with the marks recorded of it, each
a column, a length and the content's length before, and whether the parse failed. -/
structure Added where
  at' : At
  content : List UInt8
  marks : List (ℕ × ℕ × ℕ)
  failed : Bool

/-- `markdown_core_block_add_line`, to a block whose content has storage of its own or for whose
first bytes storage could be had or not. -/
def addLine (line : List UInt8) (s : At) (content : List UInt8) (owns room : Bool) : Added :=
  if owns = false ∧ (s.partiallyConsumedTab ∨ s.offset < line.length) ∧ room = false then
    ⟨s, content, [], true⟩
  else
    let tabbed : Added := if s.partiallyConsumedTab then
        ⟨{ s with offset := s.offset + 1 },
          content ++ List.replicate (tabStop - s.column % tabStop) 32,
          [(s.offset + 1, 1, content.length)], false⟩
      else ⟨s, content, [], false⟩
    { tabbed with
      marks := tabbed.marks ++
        [(tabbed.at'.offset + 1, line.length - tabbed.at'.offset, tabbed.content.length)]
      content := tabbed.content ++ line.drop tabbed.at'.offset }

end MarkdownCore.Text
