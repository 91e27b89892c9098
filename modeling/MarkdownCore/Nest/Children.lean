import MarkdownCore.Storage.Held

/-!
# The old nested tail in place

An edit reads some of a document's text anew. Each block of the chain it reopens keeps its first
children and holds the old ones past them in its own array, and the reading writes the block's new
children over them: the old child whose place the next one takes moves out to the edit's room for
it first. Where the old text and the new agree again, the block takes its old children back from
some index on, after the reading's. A read or a copy that reaches outside its storage, or reads
what nothing wrote, and an assertion that fails, give `none`.
-/

namespace MarkdownCore.Nest

open Storage (Cells copyCells writeCells)
open Storage.Ahead (doubled)

/-- A block's children: the cells of their array, none while it has no storage, and their count. -/
structure Children (α : Type*) where
  cells : Cells α
  count : ℕ

/-- What a pool gives for so many pointers, when storage can be had: whole classes of two. -/
abbrev Pool (α : Type*) := (n : ℕ) → Option { cells : Cells α // cells.length = (n + 1) / 2 * 2 }

def uint32Max : ℕ := 2 ^ 32 - 1

/-- `markdown_core_node_array_capacity`. -/
def arrayCapacity (count : ℕ) : ℕ := doubled count count 2

variable {α : Type*}

namespace Children

/-- `markdown_core_node_array_start`. -/
def start (pool : Pool α) (c : Children α) (node : α) : Option (Bool × Children α) :=
  match pool 2 with
  | none => some (false, c)
  | some taken => (writeCells taken.1 0 [node]).map fun cells => (true, ⟨cells, 1⟩)

/-- A node written past the array's last, in room it has. -/
def write (c : Children α) (node : α) : Option (Bool × Children α) :=
  (writeCells c.cells c.count [node]).map fun cells => (true, ⟨cells, c.count + 1⟩)

/-- `markdown_core_node_array_push_full`. -/
def pushFull (pool : Pool α) (c : Children α) (node : α) : Option (Bool × Children α) :=
  if uint32Max / 2 < c.count then some (false, c)
  else if c.cells.length ≤ c.count then
    match pool (2 * c.count) with
    | none => some (false, c)
    | some moved =>
      (copyCells moved.1 0 c.cells 0 c.count).bind fun moved =>
        ({ c with cells := moved } : Children α).write node
  else c.write node

/-- `markdown_core_node_array_push`. -/
def push (pool : Pool α) (c : Children α) (node : α) : Option (Bool × Children α) :=
  if 2 ≤ c.count ∧ c.count &&& (c.count - 1) = 0 then c.pushFull pool node
  else if c.cells.isEmpty then c.start pool node
  else c.write node

/-- `markdown_core_node_array_insert_before_last`. -/
def insertBeforeLast (pool : Pool α) (c : Children α) (node : α) :
    Option (Bool × Children α) :=
  if c.count = 0 then c.push pool node
  else
    c.cells[c.count - 1]?.join.bind fun last =>
      (c.push pool last).bind fun pushed =>
        if pushed.1 then
          (writeCells pushed.2.cells (c.count - 1) [node]).map fun cells =>
            (true, { pushed.2 with cells })
        else some (false, c)

/-- `markdown_core_node_array_pop`, of an array that holds some. -/
def pop (c : Children α) : Option (Children α) :=
  if c.count = 0 then none else some { c with count := c.count - 1 }

end Children

/-- A block of the chain: its children, how many it keeps and how many old ones it holds past them,
how many of those moved out, and where they stand in the edit's room. -/
structure Level (α : Type*) where
  block : Children α
  keeps : ℕ
  holds : ℕ
  saves : ℕ
  base : ℕ

/-- `markdown_core_edit`: its chain, from the root's child down, and its room. With them what the
parser keeps: the level of the chain's block that holds the room, none when the root does, and the
child count at which that block's next child takes an old one's place, none at `UINT32_MAX`. -/
structure Edit (α : Type*) where
  chain : List (Level α)
  nested : Cells α
  roomLevel : Option ℕ
  roomAt : Option ℕ
  rootRoom : Option ℕ

namespace Edit

variable (e : Edit α)

/-- `markdown_core_edit_nested`. -/
def old (level index : ℕ) : Option α :=
  e.chain[level]?.bind fun l =>
    if index < l.saves then e.nested[l.base + index]?.join
    else l.block.cells[l.keeps + index]?.join

/-- `S_tail_stash`, where a block of the chain holds the room. -/
def tailStash (level : ℕ) : Option (Edit α) :=
  e.chain[level]?.bind fun l => e.roomAt.bind fun roomAt =>
    (copyCells e.nested (l.base + l.saves) l.block.cells roomAt 1).map fun nested =>
      { e with
        nested
        chain := e.chain.set level { l with saves := l.saves + 1 }
        roomAt := if l.saves + 1 < l.holds then some (roomAt + 1) else none }

/-- `S_tail_room`, before the chain's block at `level` takes a child. -/
def tailRoom (level : ℕ) : Option (Edit α) :=
  e.chain[level]?.bind fun l =>
    if e.roomAt = some l.block.count ∧ e.roomLevel = some level then e.tailStash level else some e

/-- `S_room_up`, as the block that holds the room closes. -/
def roomUp (level : ℕ) : Option (Edit α) :=
  e.chain[level]?.bind fun l =>
    (if l.saves < l.holds then
      (copyCells e.nested (l.base + l.saves) l.block.cells (l.keeps + l.saves)
        (l.holds - l.saves)).map fun nested =>
          { e with nested, chain := e.chain.set level { l with saves := l.holds } }
    else some e).bind fun e =>
      match level with
      | 0 => some { e with roomLevel := none, roomAt := e.rootRoom }
      | level + 1 => e.chain[level]?.map fun above =>
          { e with
            roomLevel := some level
            roomAt := if above.holds ≠ 0 then some above.keeps else none }

/-- A child put among those of the block at `level`, by `put`, after the room is made. -/
def puts (put : Children α → Option (Bool × Children α)) (level : ℕ) : Option (Bool × Edit α) :=
  (e.tailRoom level).bind fun e => e.chain[level]?.bind fun l =>
    (put l.block).map fun done =>
      (done.1, { e with chain := e.chain.set level { l with block := done.2 } })

/-- What `markdown_core_block_settle` and `S_open_made` do with the children of the block. -/
def settle (pool : Pool α) (level : ℕ) (node : α) : Option (Bool × Edit α) :=
  e.puts (·.push pool node) level

/-- What `markdown_core_block_settle_before` does with the children of the block. -/
def settleBefore (pool : Pool α) (level : ℕ) (node : α) : Option (Bool × Edit α) :=
  e.puts (·.insertBeforeLast pool node) level

/-- The block's last child leaves it, as one that yields no node closes (`S_close_current`). -/
def leave (level : ℕ) : Option (Edit α) :=
  e.chain[level]?.bind fun l => l.block.pop.map fun block =>
    { e with chain := e.chain.set level { l with block } }

end Edit

/-- The array of `items`, with what it takes to hold `total`: the first `count` cells, and `kept`
old ones from `place` on, moved to stand at `target`. -/
def mendArray (pool : Pool α) (items : Cells α) (count target place kept total : ℕ) :
    Option (Option (Cells α)) :=
  if items.length < total then
    match pool (arrayCapacity total) with
    | none => some none
    | some grown =>
      (copyCells grown.1 0 items 0 count).bind fun grown =>
        (copyCells grown target items place kept).map some
  else if target ≠ place ∧ kept ≠ 0 then (copyCells items target items place kept).map some
  else some (some items)

/-- `S_nest_mend`. -/
def Edit.nestMend (pool : Pool α) (e : Edit α) (level first : ℕ) : Option (Bool × Edit α) :=
  e.chain[level]?.bind fun l =>
    (if l.saves < first then
      (copyCells e.nested (l.base + l.saves) l.block.cells (l.keeps + l.saves)
        (first - l.saves)).map fun nested => (nested, first)
    else some (e.nested, l.saves)).bind fun stashed =>
      let nested := stashed.1
      let place := stashed.2
      let count := l.block.count
      let moved := place - first
      let kept := l.holds - place
      let total := count + (l.holds - first)
      let e := { e with nested, chain := e.chain.set level { l with saves := place } }
      (mendArray pool l.block.cells count (count + moved) (l.keeps + place) kept total).bind
        fun items =>
          match items with
          | none => some (false, e)
          | some items =>
            (if moved ≠ 0 then copyCells items count nested (l.base + first) moved
            else some items).map fun items =>
              (true, { e with
                chain := e.chain.set level
                  { l with block := ⟨items, total⟩, saves := l.holds } })

/-- `S_chain_keep` and what the reopen leaves of the chain: each block with how many children it
keeps, from the root's child down. The old children are numbered from the deepest block's on. -/
def chainKeep : List (Children α × ℕ) → List (Level α) × ℕ
  | [] => ([], 0)
  | (block, keeps) :: rest =>
    let below := chainKeep rest
    let holds := block.count - keeps
    (⟨{ block with count := keeps }, keeps, holds, 0, below.2⟩ :: below.1, below.2 + holds)

/-- The edit as the reading starts: the deepest block of the chain holds the room. -/
def reopen (blocks : List (Children α × ℕ)) (nested : Cells α) (rootRoom : Option ℕ) : Edit α :=
  let chain := (chainKeep blocks).1
  match chain.getLast? with
  | none => ⟨chain, nested, none, rootRoom, rootRoom⟩
  | some deepest =>
    ⟨chain, nested, some (chain.length - 1),
      if deepest.holds ≠ 0 then some deepest.keeps else none, rootRoom⟩

/-! ### Readings -/

/-- What a reading does to the chain's block that holds the room: it takes a child at its end or
before its last, with what the pool gives then, its last child leaves it, or it closes. -/
inductive Event (α : Type*)
  | settle (pool : Pool α) (node : α)
  | settleBefore (pool : Pool α) (node : α)
  | leave
  | close

namespace Edit

/-- One event of a reading; false when storage could not be had. -/
def step (e : Edit α) (event : Event α) : Option (Bool × Edit α) :=
  e.roomLevel.bind fun level =>
    match event with
    | .settle pool node => e.settle pool level node
    | .settleBefore pool node => e.settleBefore pool level node
    | .leave => (e.leave level).map fun e => (true, e)
    | .close => (e.roomUp level).map fun e => (true, e)

/-- A reading, which stops as soon as storage could not be had. -/
def read (e : Edit α) : List (Event α) → Option (Bool × Edit α)
  | [] => some (true, e)
  | event :: events =>
    (e.step event).bind fun done => if done.1 then done.2.read events else some done

end Edit

end MarkdownCore.Nest
