import MarkdownCore.Library.Bisect
import MarkdownCore.Library.Laminar
import MarkdownCore.Text.Scalars

/-!
# What a context query reads

The source ranges of a document's nodes, read by one walk, sorted and linked each to the range that
encloses it; the nodes that hold a byte, found by climbing the links when the ranges nest; and the
UTF-16 column of a byte, counted on from the nearer of two marks.
-/

namespace MarkdownCore.Context

open MarkdownCore.Text (columns)

/-! ### Holdings -/

/-- An item of a document's walk: its node, if it has one, the node's source ranges, and where the
item's place ends. -/
structure WalkItem (α : Type*) where
  node : Option α
  ranges : List (ℕ × ℕ)
  last : ℕ

/-- `holding`, less the range that encloses it. -/
structure Holding (α : Type*) where
  node : α
  start : ℕ
  stop : ℕ
  last : ℕ
  order : ℕ

/-- The query's holdings in source order, the range that encloses each, by index, and whether they
nest. -/
structure Holdings (α : Type*) where
  holdings : List (Holding α)
  enclosing : List (Option ℕ)
  nested : Bool

variable {α : Type*}

/-- `holding_order`. -/
def holdingOrder (a b : Holding α) : ℤ :=
  if a.start ≠ b.start then if a.start < b.start then -1 else 1
  else if a.stop ≠ b.stop then if a.stop > b.stop then -1 else 1
  else if a.order < b.order then -1 else if a.order > b.order then 1 else 0

/-- The holdings of a walk's items, in walk order: an empty range is none. -/
def walkHoldings (items : List (WalkItem α)) : List (Holding α) :=
  items.zipIdx.flatMap fun item =>
    match item.1.node with
    | none => []
    | some node => (item.1.ranges.filter fun range => range.1 < range.2).map fun range =>
        ⟨node, range.1, range.2, item.1.last, item.2⟩

/-- Where the holding at an index starts. -/
def startAt (holdings : List (Holding α)) (i : ℕ) : ℕ := (holdings[i]?.map Holding.start).getD 0

/-- Where the holding at an index ends. -/
def stopAt (holdings : List (Holding α)) (i : ℕ) : ℕ := (holdings[i]?.map Holding.stop).getD 0

/-- Links of the first holdings: what encloses each, the one still open, and whether they nest. -/
structure Links where
  enclosing : List (Option ℕ)
  opened : Option ℕ
  nested : Bool
  deriving DecidableEq

/-- The range that encloses the holding at an index. -/
def enclosingAt (enclosing : List (Option ℕ)) (i : ℕ) : Option ℕ := (enclosing[i]?).getD none

/-- The holding at an index linked to the innermost one still open where it starts. -/
def linkOne (holdings : List (Holding α)) (links : Links) (i : ℕ) : Links :=
  let opened := Laminar.climb (stopAt holdings) (enclosingAt links.enclosing)
    (startAt holdings i) i links.opened
  ⟨links.enclosing ++ [opened], some i,
    links.nested && !opened.any fun k => stopAt holdings k < stopAt holdings i⟩

/-- The holdings linked from the first on. -/
def link (holdings : List (Holding α)) : Links :=
  (List.range holdings.length).foldl (linkOne holdings) ⟨[], none, true⟩

/-- `read_holdings`, the storage for the walk and the list had or not. -/
def readHoldings (items : List (WalkItem α)) (room : Bool) : Option (Holdings α) :=
  if room = false then none
  else
    let holdings := (walkHoldings items).insertionSort fun a b => holdingOrder a b ≤ 0
    let links := link holdings
    some ⟨holdings, links.enclosing, links.nested⟩

/-- `markdown_core_tree_holders`: the nodes that hold a byte, found by the walk. -/
def treeHolders (items : List (WalkItem α)) (offset : ℕ) : List α :=
  items.filterMap fun item =>
    if item.ranges.any fun range => range.1 ≤ offset ∧ offset < range.2 then item.node else none

/-- A holding put among those found, which are in walk order. -/
def insertHeld (found : Holding α) : List (Holding α) → List (Holding α)
  | [] => [found]
  | next :: rest =>
    if found.order > next.order then next :: insertHeld found rest else found :: next :: rest

/-- `query_holders`, the storage for the list had or not. -/
def queryHolders (query : Holdings α) (items : List (WalkItem α)) (offset : ℕ) (room : Bool) :
    Option (List α) :=
  if query.nested = false then if room then some (treeHolders items offset) else none
  else
    let n := query.holdings.length
    let low := Bisect.bisect (fun i => startAt query.holdings i ≤ offset) n 0 n
    let at' := Laminar.climb (stopAt query.holdings) (enclosingAt query.enclosing) offset (n + 1)
      (if low = 0 then none else some (low - 1))
    let up := Laminar.chain (enclosingAt query.enclosing) (n + 1) at'
    if up = [] then some []
    else if room = false then none
    else
      let held := up.foldl (fun held i =>
        match query.holdings[i]? with
        | none => held
        | some found => insertHeld found held) []
      some (held.map Holding.node)

/-! ### Columns -/

/-- `markdown_core_source_lines`: where lines start, the first of them line `base`. -/
structure SourceLines where
  starts : List ℕ
  base : ℕ

/-- The text a query reads, its lines, and for a byte before them the locus's line and where it
starts. -/
structure Source where
  source : List UInt8
  lines : SourceLines
  locus : Option (ℕ → ℕ × ℕ)

/-- The search of `query_line`: the last of the starts between two that is at or before a byte. -/
def lastStart (starts : List ℕ) (offset : ℕ) : ℕ → ℕ → ℕ → ℕ
  | 0, lo, _ => lo
  | fuel + 1, lo, hi =>
    if hi - lo > 1 then
      let mid := lo + (hi - lo) / 2
      if starts.getD mid 0 ≤ offset then lastStart starts offset fuel mid hi
      else lastStart starts offset fuel lo mid
    else lo

/-- The line that holds a byte among the query's lines, and where it starts. -/
def tableLine (lines : SourceLines) (offset : ℕ) : ℕ × ℕ :=
  let lo := lastStart lines.starts offset lines.starts.length 0 lines.starts.length
  (lines.base + lo, lines.starts.getD lo 0)

/-- `query_line`: the line that holds a byte, and where it starts. -/
def queryLine (query : Source) (offset : ℕ) : ℕ × ℕ :=
  match query.locus with
  | some line =>
    if offset < query.lines.starts.getD 0 0 then line offset else tableLine query.lines offset
  | none => tableLine query.lines offset

/-- `column_mark`. -/
structure ColumnMark where
  line : ℕ
  offset : ℕ
  units : ℕ
  set : Bool
  deriving DecidableEq

/-- Where a count to a byte begins, and the units before, with a mark looked at. -/
def nearer (line offset : ℕ) (count : ℕ × ℕ) (mark : ColumnMark) : ℕ × ℕ :=
  if mark.set ∧ mark.line = line ∧ mark.offset ≤ offset ∧ mark.offset ≥ count.1 then
    (mark.offset, mark.units)
  else count

/-- What a count leaves: the units, the line as a 1-based number, and the marks. -/
structure Counted where
  units : ℕ
  line : ℕ
  marks : Fin 2 → ColumnMark

/-- `query_units`. -/
def queryUnits (query : Source) (marks : Fin 2 → ColumnMark) (offset : ℕ) (which : Fin 2) :
    Counted :=
  let held := queryLine query offset
  let count := [marks 0, marks 1].foldl (nearer held.1 offset) (held.2, 0)
  let units := count.2 + columns query.source count.1 offset .utf16
  ⟨units, held.1 + 1, Function.update marks which ⟨held.1, offset, units, true⟩⟩

/-- Counts asked for one after another. -/
def queryUnitsAll (query : Source) : (Fin 2 → ColumnMark) → List (ℕ × Fin 2) → List (ℕ × ℕ)
  | _, [] => []
  | marks, (offset, which) :: rest =>
    let counted := queryUnits query marks offset which
    (counted.line, counted.units) :: queryUnitsAll query counted.marks rest

end MarkdownCore.Context
