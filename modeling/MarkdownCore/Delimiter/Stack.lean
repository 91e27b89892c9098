import Mathlib.Logic.Function.Basic
import MarkdownCore.Fields.View

/-!
# The delimiter stack and the scaffold

`core/inlines.c`, `core/node.h`: the runs of signs that a text may pair stand on a stack of entries,
each with the text node of its run, and the nodes read so far stand in lists that their scaffolds
link. An address is a number, and NULL is none. A slot's scaffold and an entry of the pool are there
at every address; a node is there while it is in use.
-/

namespace MarkdownCore.Delimiter

open Fields (Place)

/-- `markdown_core_delimiter_rule`. -/
inductive Rule where
  | none
  | emphasis
  | underscore
  | mark
  | insertion
  | superscript
  | subscript
  | strikethrough
  | formulaDollarInline
  | formulaDollarDisplay
  | formulaLatexInline
  | formulaLatexDisplay
  | directiveLabel
  | comment
  deriving DecidableEq, Repr

/-- `delimiter_kind`. -/
inductive EntryKind where
  | marker
  | boundary
  | field
  | citationToken
  | affixBoundary
  deriving DecidableEq, Repr

/-- `delimiter_body`. -/
inductive Body where
  | inlineBody
  | wordBody
  deriving DecidableEq, Repr

/-- `delimiter_rule_spec`, with what the pairing reads of it. -/
structure RuleSpec (K : Type) where
  minimumWidth : ℕ
  maximumWidth : ℕ
  ruleOfThree : Bool
  body : Body
  singleKind : K
  doubleKind : K

/-- `markdown_core_scaffold`. -/
@[ext]
structure Scaffold where
  parent : Option ℕ := none
  prev : Option ℕ := none
  next : Option ℕ := none
  first : Option ℕ := none
  last : Option ℕ := none
  deriving DecidableEq, Repr

/-- `markdown_core_node`, of an inline under construction: `offset` is its content map's, and the
literal is the bytes that its chunk holds, where its kind has one. -/
structure Node (K : Type) where
  kind : K
  element : Option ℕ
  place : Place
  offset : ℤ
  literal : Option (List UInt8)
  deriving DecidableEq, Repr

/-- `delimiter`, with the element of its owner. -/
@[ext]
structure Entry where
  previous : Option ℕ := none
  next : Option ℕ := none
  node : Option ℕ := none
  owner : Option ℕ := none
  position : ℕ := 0
  kind : EntryKind := .marker
  length : ℕ := 0
  rule : Rule := .none
  canOpen : Bool := false
  canClose : Bool := false
  deriving DecidableEq, Repr

/-- The slots, the pool of entries, and what `markdown_core_inline_state` holds of the stack and of
what a longer input may still change. -/
structure State (K : Type) where
  scaffolds : ℕ → Scaffold
  nodes : ℕ → Option (Node K)
  entries : ℕ → Entry
  lastDelim : Option ℕ
  freeDelimiters : Option ℕ
  delimOpeners : Rule → ℤ
  delimClosers : Rule → ℤ
  asked : Rule → Bool
  undecided : ℕ
  error : Bool

namespace State

variable {K : Type}

/-! ### Writes -/

def setLink (s : State K) (p : ℕ) (f : Scaffold → Scaffold) : State K :=
  { s with scaffolds := Function.update s.scaffolds p (f (s.scaffolds p)) }

def setNode (s : State K) (p : ℕ) (f : Node K → Node K) : State K :=
  { s with nodes := Function.update s.nodes p ((s.nodes p).map f) }

def setEntry (s : State K) (e : ℕ) (f : Entry → Entry) : State K :=
  { s with entries := Function.update s.entries e (f (s.entries e)) }

/-! ### Entries -/

/-- `markdown_core_inline_remove_delimiter`, of an entry that is there. -/
def removeDelimiter (s : State K) (delim : ℕ) : State K :=
  let entry := s.entries delim
  let s := match entry.next with
    | none => { s with lastDelim := entry.previous }
    | some next => s.setEntry next fun e => { e with previous := entry.previous }
  let s := match entry.previous with
    | none => s
    | some previous => s.setEntry previous fun e => { e with next := entry.next }
  let s := { s with
    delimOpeners := if entry.canOpen then
        Function.update s.delimOpeners entry.rule (s.delimOpeners entry.rule - 1)
      else s.delimOpeners
    delimClosers := if entry.canClose then
        Function.update s.delimClosers entry.rule (s.delimClosers entry.rule - 1)
      else s.delimClosers }
  -- The entry goes back to the pool: only its own next is written there.
  { s.setEntry delim fun e => { e with next := s.freeDelimiters } with
    freeDelimiters := some delim }

/-! ### Nodes -/

/-- `markdown_core_scaffold_unlink`. -/
def unlink (s : State K) (node : ℕ) : State K :=
  let link := s.scaffolds node
  match link.parent with
  | none => s
  | some holder =>
    let s := match link.prev with
      | some prev => s.setLink prev fun k => { k with next := link.next }
      | none => s.setLink holder fun k => { k with first := link.next }
    let s := match link.next with
      | some next => s.setLink next fun k => { k with prev := link.prev }
      | none => s.setLink holder fun k => { k with last := link.prev }
    s.setLink node fun k => { k with parent := none, prev := none, next := none }

/-- `markdown_core_parser_release_node`, of an inline node that holds no other. -/
def releaseNode (s : State K) (node : ℕ) : State K :=
  let s := s.unlink node
  { s with nodes := Function.update s.nodes node none }

/-- The nodes from one up to another become the children of the new inline: each is given its
parent, the first loses the node before it and the last the one after. -/
def adopt (s : State K) (inlineNode stop : ℕ) : ℕ → Option ℕ → Option (State K)
  | 0, _ => none
  | _ + 1, none => some s
  | fuel + 1, some tmp =>
    if tmp = stop then some s
    else
      let next := (s.scaffolds tmp).next
      let s := s.setLink tmp fun k => { k with parent := some inlineNode }
      let s :=
        if next = some stop then
          (s.setLink inlineNode fun k => { k with last := some tmp }).setLink tmp fun k =>
            { k with next := none }
        else s
      adopt s inlineNode stop fuel next

/-- The nodes between two become the children of the new inline. -/
def takeBetween (s : State K) (inlineNode openerInl closerInl fuel : ℕ) : Option (State K) :=
  match (s.scaffolds openerInl).next with
  | none => some s
  | some tmp =>
    if tmp = closerInl then some s
    else
      let s := s.setLink inlineNode fun k => { k with first := some tmp }
      let s := s.setLink tmp fun k => { k with prev := none }
      s.adopt inlineNode closerInl fuel (some tmp)

/-- The new inline takes the place between the two runs. -/
def linkBetween (s : State K) (inlineNode openerInl closerInl holder : ℕ) : State K :=
  let s := s.setLink openerInl fun k => { k with next := some inlineNode }
  let s := s.setLink closerInl fun k => { k with prev := some inlineNode }
  s.setLink inlineNode fun k =>
    { k with prev := some openerInl, next := some closerInl, parent := some holder }

/-- The places of the new inline and of what is left of the two runs. -/
def placeBetween (s : State K) (inlineNode openerInl closerInl : ℕ) (opener closer : Place)
    (openerNumChars closerNumChars useDelims : ℕ) : State K :=
  let s := s.setNode inlineNode fun n =>
    { n with place := ⟨opener.start + openerNumChars, closer.stop - closerNumChars⟩ }
  let s :=
    if openerNumChars > 0 then
      s.setNode openerInl fun n =>
        { n with place := ⟨n.place.start, n.place.start + openerNumChars⟩ }
    else s
  if closerNumChars > 0 then
    s.setNode closerInl fun n =>
      { n with
        offset := n.offset + useDelims
        place := ⟨n.place.stop - closerNumChars, n.place.stop⟩ }
  else s

/-- What is left of a run: none of it, and its node and its entry go; too little to pair, and its
entry goes. -/
def settleRun (s : State K) (entry inl numChars minimumWidth : ℕ) : State K :=
  if numChars = 0 then (s.releaseNode inl).removeDelimiter entry
  else if numChars < minimumWidth then s.removeDelimiter entry
  else s

/-- `S_insert_delimited_inline`: `granted` is the slot that the new node has, none where storage is
refused. The answer is the entry that the pairing goes on from. -/
def insertDelimitedInline (s : State K) (canContain : Node K → K → Bool)
    (specOf : Rule → RuleSpec K) (granted : Option ℕ) (fuel opener closer useDelims : ℕ)
    (kind : K) : Option (State K × Option ℕ) := do
  let openerInl ← (s.entries opener).node
  let closerInl ← (s.entries closer).node
  let openerNode ← s.nodes openerInl
  let closerNode ← s.nodes closerInl
  let openerLiteral ← openerNode.literal
  let closerLiteral ← closerNode.literal
  let holder ← (s.scaffolds openerInl).parent
  let holderNode ← s.nodes holder
  let minimumWidth := (specOf (s.entries closer).rule).minimumWidth
  if canContain holderNode kind = false then
    some ((s.removeDelimiter opener).removeDelimiter closer, (s.entries closer).next)
  else
    match granted with
    | none => some ({ s with error := true }, (s.entries closer).next)
    | some inlineNode =>
      let openerNumChars := openerLiteral.length - useDelims
      let closerNumChars := closerLiteral.length - useDelims
      let made : Node K := ⟨kind, (s.entries closer).owner, ⟨0, 0⟩, 0, none⟩
      let s := { s with
        scaffolds := Function.update s.scaffolds inlineNode {}
        nodes := Function.update s.nodes inlineNode (some made) }
      let s := s.setNode openerInl fun n =>
        { n with literal := n.literal.map (·.take openerNumChars) }
      let s := s.setNode closerInl fun n =>
        { n with literal := n.literal.map (·.take closerNumChars) }
      let s ← s.takeBetween inlineNode openerInl closerInl fuel
      let s := s.linkBetween inlineNode openerInl closerInl holder
      let s := s.placeBetween inlineNode openerInl closerInl openerNode.place closerNode.place
        openerNumChars closerNumChars useDelims
      let s := s.settleRun opener openerInl openerNumChars minimumWidth
      -- The pairing goes on from the closer, or from the entry after it where it leaves the stack.
      let next := if closerNumChars = 0 ∨ closerNumChars < minimumWidth then
          (s.entries closer).next
        else some closer
      some (s.settleRun closer closerInl closerNumChars minimumWidth, next)

end State

end MarkdownCore.Delimiter
