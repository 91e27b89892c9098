import MarkdownCore.Library.ChunkFold

/-!
# What children fold into their block

A block of a folding kind takes what it reads of each child as the child settles: whether the last
child the blank-line facts see ends blank, whether a blank line separates two of them, and, a list,
whether it is loose, which it publishes as its tightness.

A reading that reopens the block folds the children it keeps again, from the last fold mark before
the last of them, and when it takes old children back it folds those past its own, a chunk at a time
where a fold pass of the chunk is kept. `session_mend_nests` keeps the marks and passes the reading
left standing.
-/

namespace MarkdownCore.Nest

/-- The flags of a node that a fold, a reopen or a splice reads or writes. -/
structure Flags where
  isOpen : Bool
  lastLineBlank : Bool
  endsBlank : Bool
  blankSpaced : Bool
  closedByEndCondition : Bool
  committed : Bool
  final : Bool
  blankTransparent : Bool
  blankFolded : Bool
  published : Bool
  listLastLineBlank : Bool
  listLoose : Bool
  listLooseFollowed : Bool
deriving DecidableEq, Inhabited

namespace Flags

def none : Flags :=
  ⟨false, false, false, false, false, false, false, false, false, false, false, false, false⟩

/-- Each flag of two words by an operation. -/
def zip (f : Bool → Bool → Bool) (a b : Flags) : Flags where
  isOpen := f a.isOpen b.isOpen
  lastLineBlank := f a.lastLineBlank b.lastLineBlank
  endsBlank := f a.endsBlank b.endsBlank
  blankSpaced := f a.blankSpaced b.blankSpaced
  closedByEndCondition := f a.closedByEndCondition b.closedByEndCondition
  committed := f a.committed b.committed
  final := f a.final b.final
  blankTransparent := f a.blankTransparent b.blankTransparent
  blankFolded := f a.blankFolded b.blankFolded
  published := f a.published b.published
  listLastLineBlank := f a.listLastLineBlank b.listLastLineBlank
  listLoose := f a.listLoose b.listLoose
  listLooseFollowed := f a.listLooseFollowed b.listLooseFollowed

/-- `a & b`. -/
def and (a b : Flags) : Flags := zip (fun x y => x && y) a b

/-- `a | b`. -/
def or (a b : Flags) : Flags := zip (fun x y => x || y) a b

/-- `a & ~b`. -/
def diff (a b : Flags) : Flags := zip (fun x y => x && !y) a b

end Flags

/-- What the fold reads of a kind's record: BLANK_PROPAGATES, and FOLDS, which only a list has. -/
structure Kind where
  blankPropagates : Bool
  folds : Bool
deriving DecidableEq

/-- A block's flags, and, of a list, its tightness. -/
structure Block where
  flags : Flags
  tight : Bool
deriving DecidableEq

/-- `S_closed_ends_blank`. -/
def closedEndsBlank (flags : Flags) : Bool :=
  if flags.blankFolded then flags.endsBlank else flags.lastLineBlank

/-- `fold_child` of a list. -/
def foldChild (block : Block) (child : Flags) : Block :=
  let loose := block.flags.listLoose || (block.flags.listLooseFollowed || child.blankSpaced)
  let followedLoose := child.lastLineBlank || (child.blankFolded && child.endsBlank)
  { flags := { block.flags with listLoose := loose, listLooseFollowed := followedLoose }
    tight := !loose }

/-- `S_fold`. -/
def fold (kind : Kind) (block : Block) (child : Flags) : Block :=
  let block :=
    if kind.blankPropagates && !child.blankTransparent then
      { block with
        flags := { block.flags with
          endsBlank := closedEndsBlank child
          blankFolded := true
          blankSpaced := block.flags.blankSpaced || block.flags.endsBlank } }
    else block
  if kind.folds then foldChild block child else block

/-- `S_folded_bits`. -/
def foldedBits (kind : Kind) : Flags :=
  { Flags.none with
    endsBlank := kind.blankPropagates
    blankSpaced := kind.blankPropagates
    blankFolded := kind.blankPropagates
    listLoose := kind.folds
    listLooseFollowed := kind.folds }

/-- `MARKDOWN_CORE_FOLD_CHUNK`. -/
def foldChunk : ℕ := 64

/-- `markdown_core_folds`; a pass is its pairs of `from` and `to`. -/
structure Folds where
  flags : List Flags
  passes : List (List (Flags × Flags))
deriving DecidableEq

/-- `reopen_block` of a list. -/
def reopenList (block : Block) (blank : Bool) : Block :=
  { flags := { block.flags with
      listLoose := false, listLooseFollowed := false, listLastLineBlank := blank }
    tight := false }

/-- The block as a reopen opens it, its children not folded yet. -/
def openBlock (kind : Kind) (block : Block) (blank : Bool) : Block :=
  let block := { block with
    flags := { block.flags with
      isOpen := true, final := false, committed := false, endsBlank := false, blankSpaced := false,
      blankFolded := false, lastLineBlank := false, closedByEndCondition := false } }
  if kind.folds then reopenList block blank else block

/-- The loop of `S_reopen_level` over the kept children from `i` on, each next mark taken where its
storage is had. -/
def refold (kind : Kind) (had : ℕ → Bool) :
    List Flags → ℕ → Block → Option Folds → Block × Option Folds
  | [], _, block, folds => (block, folds)
  | child :: children, i, block, folds =>
    let block := fold kind block child
    let folds := folds.map fun folds =>
      if (i + 1) % foldChunk = 0 ∧ (i + 1) / foldChunk = folds.flags.length + 1 ∧ had i = true then
        { folds with flags := folds.flags ++ [block.flags.and (foldedBits kind)] }
      else folds
    refold kind had children (i + 1) block folds

/-- `S_reopen_level`, of the first `kept` of the block's children. -/
def reopenLevel (kind : Kind) (had : ℕ → Bool) (children : List Flags) (kept : ℕ) (blank : Bool)
    (block : Block) (folds : Option Folds) : Block × Option Folds :=
  let block := openBlock kind block blank
  if kind.blankPropagates || kind.folds then
    let mark := folds.elim 0 fun folds =>
      min (if kept = 0 then 0 else (kept - 1) / foldChunk) folds.flags.length
    let block :=
      if mark = 0 then block
      else
        let marked := (folds.elim [] Folds.flags).getD (mark - 1) default
        { block with
          flags := (block.flags.diff (foldedBits kind)).or (marked.and (foldedBits kind)) }
    refold kind had ((children.take kept).drop (mark * foldChunk)) (mark * foldChunk) block folds
  else (block, folds)

/-- What a kept pass of a chunk folds bits to. -/
def findPass (folds : Folds) (chunk : ℕ) (bits : Flags) : Option Flags :=
  ((folds.passes[chunk]?.getD []).find? fun pass => pass.1 = bits).map Prod.snd

/-- A pass of a chunk kept, the second's place taken when there are two. -/
def keepPass (folds : Folds) (chunk : ℕ) (pass : Flags × Flags) : Folds :=
  let passes := folds.passes ++ List.replicate (chunk + 1 - folds.passes.length) []
  let held := passes.getD chunk []
  let kept := if held.length < 2 then held ++ [pass] else held.set 1 pass
  { folds with passes := passes.set chunk kept }

/-- `S_fold_pass`, of the chunk `chunk` of the children the block had: the bits the chunk folds the
block's to. -/
def foldPass (kind : Kind) (had : ℕ → Bool) (children : List Flags) (chunk : ℕ) (block : Block)
    (folds : Folds) : Flags × Block × Folds :=
  let bits := block.flags.and (foldedBits kind)
  match findPass folds chunk bits with
  | some bits => (bits, block, folds)
  | none =>
    let folded := (ChunkFold.chunk foldChunk children chunk).foldl (fold kind) block
    let folds' :=
      if chunk < folds.passes.length ∨ had chunk = true then
        keepPass folds chunk (bits, folded.flags.and (foldedBits kind))
      else folds
    (folded.flags.and (foldedBits kind), { block with tight := folded.tight }, folds')

/-- The loop of `S_fold_old`, from child `i` of those the block had. The first argument bounds its
turns. -/
def foldOldFrom (kind : Kind) (had : ℕ → Bool) (children : List Flags) :
    ℕ → ℕ → Block → Option Folds → Block × Option Folds
  | 0, _, block, folds => (block, folds)
  | fuel + 1, i, block, folds =>
    if i < children.length then
      match folds with
      | some folds' =>
        if i % foldChunk = 0 ∧ i + foldChunk < children.length then
          let passed := foldPass kind had children (i / foldChunk) block folds'
          let block := { passed.2.1 with
            flags := (passed.2.1.flags.diff (foldedBits kind)).or passed.1 }
          foldOldFrom kind had children fuel (i + foldChunk) block (some passed.2.2)
        else
          foldOldFrom kind had children fuel (i + 1)
            (fold kind block (children.getD i default)) folds
      | none =>
        foldOldFrom kind had children fuel (i + 1)
          (fold kind block (children.getD i default)) folds
    else (block, folds)

/-- `S_fold_old`, from the child `first` of those past the `keeps` the block keeps. -/
def foldOld (kind : Kind) (had : ℕ → Bool) (children : List Flags) (keeps first : ℕ)
    (block : Block) (folds : Option Folds) : Block × Option Folds :=
  if kind.blankPropagates || kind.folds then
    foldOldFrom kind had children children.length (keeps + first) block folds
  else (block, folds)

/-- The marks and passes `session_mend_nests` keeps, of a block of `count` children whose children
from `path` on a reading read, which took old children back from its child `tail` on, if it did, and
left it `count'`. -/
def mendFolds (folds : Folds) (path count count' : ℕ) (tail : Option ℕ) : Folds :=
  let last := if count' = count then tail else none
  let marked := path / foldChunk
  { flags := folds.flags.take marked
    passes := match last with
      | none => folds.passes.take marked
      | some last => folds.passes.mapIdx fun chunk pass =>
          if marked ≤ chunk ∧ chunk ≤ last / foldChunk then [] else pass }

/-- A block of a chain, with the children it folded and what is kept of their folds. -/
structure Folding where
  children : List Flags
  folds : Option Folds
deriving DecidableEq

/-- A reading of a block of a chain: the children before the rest point, those the block keeps (one
more when the next block of the chain is among them), what the reading's own children settled with,
and the first it took back of those past the ones it keeps, if it did. -/
structure Rereading where
  block : Block
  blank : Bool
  had : ℕ → Bool
  kept : ℕ
  keeps : ℕ
  read : List Flags
  first : Option ℕ

namespace Rereading

/-- A reading reads children the block has. -/
structure Fits (r : Rereading) (nest : Folding) : Prop where
  kept_le : r.kept ≤ r.keeps
  keeps_le : r.keeps ≤ nest.children.length
  first_le : ∀ first ∈ r.first, r.keeps + first ≤ nest.children.length

/-- The children the reading leaves. -/
def children (r : Rereading) (nest : Folding) : List Flags :=
  nest.children.take r.kept ++ r.read ++
    r.first.elim [] fun first => nest.children.drop (r.keeps + first)

/-- The block as the reading leaves it, and what is kept of its folds before they are mended: the
children it keeps folded again, each of its own as it settles, and the old ones. -/
def folded (kind : Kind) (r : Rereading) (nest : Folding) : Block × Option Folds :=
  let opened := reopenLevel kind r.had nest.children r.kept r.blank r.block nest.folds
  let settled := r.read.foldl (fold kind) opened.1
  match r.first with
  | none => (settled, opened.2)
  | some first => foldOld kind r.had nest.children r.keeps first settled opened.2

/-- The block after the reading, `session_mend_nests` done. -/
def next (kind : Kind) (r : Rereading) (nest : Folding) : Folding where
  children := r.children nest
  folds := (r.folded kind nest).2.map fun folds =>
    mendFolds folds r.kept nest.children.length (r.children nest).length
      (r.first.map fun _ => r.kept + r.read.length)

end Rereading

/-- A fold of all of a block's children from the start. -/
def foldAll (kind : Kind) (block : Block) (blank : Bool) (children : List Flags) : Block :=
  children.foldl (fold kind) (openBlock kind block blank)

/-- What readings, and looks at the text before a cursor, leave of a block's folds, from those of a
block no reading was of, or whose folds were let go. -/
inductive Reached (kind : Kind) : Folding → Prop where
  | start (children : List Flags) : Reached kind ⟨children, some ⟨[], []⟩⟩
  | none (children : List Flags) : Reached kind ⟨children, none⟩
  | read {nest : Folding} (r : Rereading) (h : Reached kind nest) (hfits : r.Fits nest) :
      Reached kind (r.next kind nest)
  | look {nest : Folding} (had : ℕ → Bool) (kept : ℕ) (blank : Bool) (block : Block)
      (h : Reached kind nest) (hkept : kept ≤ nest.children.length) :
      Reached kind ⟨nest.children,
        (reopenLevel kind had nest.children kept blank block nest.folds).2⟩

end MarkdownCore.Nest
