import MarkdownCore.Delimiter.Insert

/-!
# The pairing of a range

`S_process_delimiters`, `core/inlines.c`: forward over the entries of a range, each that can close
looks back for an opener that it may pair with, no further than the floor that a search before it
left; what stands between the two of a pair is reduced to its last boundary, and so is the range
once all of it is done.
-/

namespace MarkdownCore.Delimiter

variable {K : Type}

/-- What the pairing asks: whether a node holds a kind, each rule's row, what an owner's element
makes of a pair (`insert_inline_from_delim`), and the slot that a new node has. -/
structure Elements (K : Type) where
  canContain : Node K → K → Bool
  specOf : Rule → RuleSpec K
  insertFromDelim : ℕ → Option (State K → ℕ → ℕ → State K)
  granted : State K → Option ℕ

/-- The floors: `openers_bottom`, `word_bottom`, `affix_bottom`. -/
structure Floors where
  openersBottom : ℕ → Rule → ℕ
  wordBottom : ℕ
  affixBottom : ℕ

namespace Floors

def init (stackBottom : ℕ) : Floors := ⟨fun _ _ => stackBottom, stackBottom, stackBottom⟩

/-- A boundary raises the floor of its kind. -/
def pass (f : Floors) (entry : Entry) : Floors :=
  if entry.kind = .boundary then { f with wordBottom := entry.position }
  else if entry.kind = .affixBoundary then { f with affixBottom := entry.position }
  else f

/-- The floor that the boundaries leave a closer. -/
def boundary (f : Floors) (spec : RuleSpec K) : ℕ :=
  if spec.body = .wordBody then max f.affixBottom f.wordBottom else f.affixBottom

/-- How far back a closer looks. -/
def bottom (f : Floors) (spec : RuleSpec K) (closer : Entry) : ℕ :=
  max (f.openersBottom (closer.length % 3) closer.rule) (f.boundary spec)

/-- A search without an opener leaves its closer's position. -/
def fail (f : Floors) (closer : Entry) : Floors :=
  { f with openersBottom := fun residue rule =>
      if residue = closer.length % 3 ∧ rule = closer.rule then closer.position
      else f.openersBottom residue rule }

end Floors

/-- Whether an opener may pair with a closer: a run that both opens and closes does not, of a rule
of three, where the two lengths make a multiple of three and the closer's is not one. -/
def admits (spec : RuleSpec K) (opener closer : Entry) : Bool :=
  opener.canOpen && opener.rule = closer.rule &&
    (!spec.ruleOfThree || !(closer.canOpen || opener.canClose) || closer.length % 3 = 0 ||
      (opener.length + closer.length) % 3 ≠ 0)

namespace State

/-- An opener that pairs with none: what its node starts at is undecided. -/
def undecide (s : State K) (entry : Entry) : State K :=
  match entry.node.bind s.nodes with
  | none => s
  | some node => { s with undecided := min node.place.start s.undecided }

/-- The loop of `reduce_delimiter_range`. -/
def reduceRange (before : Option ℕ) : ℕ → Option ℕ → Bool → State K → Option (State K)
  | 0, _, _, _ => none
  | fuel + 1, entry, boundary, s =>
    if entry = before then some s
    else entry.bind fun e =>
      let previous := (s.entries e).previous
      if (s.entries e).kind = .boundary ∧ boundary = false then
        reduceRange before fuel previous true s
      else
        let s :=
          if (s.entries e).kind = .marker ∧ (s.entries e).canOpen = true ∧
              s.asked (s.entries e).rule = true
          then s.undecide (s.entries e) else s
        reduceRange before fuel previous boundary (s.removeDelimiter e)

/-- The entry before another, or the last. -/
def lastBefore (s : State K) (after : Option ℕ) : Option ℕ :=
  match after with
  | none => s.lastDelim
  | some a => (s.entries a).previous

/-- `reduce_delimiter_range`. -/
def reduceDelimiterRange (s : State K) (fuel : ℕ) (before after : Option ℕ) : Option (State K) :=
  reduceRange before fuel (s.lastBefore after) false s

/-- Back for an opener that a closer may pair with. -/
def findOpener (s : State K) (spec : RuleSpec K) (closer : Entry) (bottom : ℕ) :
    ℕ → Option ℕ → Option ℕ
  | 0, _ => none
  | fuel + 1, opener =>
    opener.bind fun o =>
      if (s.entries o).position < bottom then none
      else if admits spec (s.entries o) closer then some o
      else findOpener s spec closer bottom fuel (s.entries o).previous

/-- Back to the first entry of the range: the entry before it, and itself. -/
def firstRelevant (s : State K) (stackBottom : ℕ) :
    ℕ → Option ℕ → Option ℕ → Option ℕ × Option ℕ
  | 0, candidate, closer => (candidate, closer)
  | _ + 1, none, closer => (none, closer)
  | fuel + 1, some e, closer =>
    if stackBottom ≤ (s.entries e).position then
      firstRelevant s stackBottom fuel (s.entries e).previous (some e)
    else (some e, closer)

/-- How many signs are left of an entry's run. -/
def width (s : State K) (e : ℕ) : ℕ :=
  ((((s.entries e).node.bind s.nodes).bind (·.literal)).getD []).length

/-- How many signs of each run a pair takes. -/
def usedDelims (s : State K) (spec : RuleSpec K) (opener closer : ℕ) : ℕ :=
  if s.width opener < spec.maximumWidth ∨ s.width closer < spec.maximumWidth then spec.minimumWidth
  else spec.maximumWidth

/-- A closer that an opener was found for. -/
def pairFound (s : State K) (E : Elements K) (fuel opener closer : ℕ) :
    Option (State K × Option ℕ) :=
  (s.reduceDelimiterRange fuel (some opener) (some closer)).bind fun s =>
    let entry := s.entries closer
    let spec := E.specOf entry.rule
    if spec.minimumWidth ≠ 0 then
      let used := s.usedDelims spec opener closer
      let kind := if used = 2 then spec.doubleKind else spec.singleKind
      s.insertDelimitedInline E.canContain E.specOf (E.granted s) fuel opener closer used kind
    else
      match entry.owner.bind E.insertFromDelim with
      | some insert =>
        some (((insert s opener closer).removeDelimiter opener).removeDelimiter closer, entry.next)
      | none => some (s, entry.next)

/-- One turn of the loop of `S_process_delimiters`. -/
def pairStep (s : State K) (E : Elements K) (fuel : ℕ) (floors : Floors) (closer : ℕ) :
    Option (State K × Floors × Option ℕ) :=
  let entry := s.entries closer
  let floors := floors.pass entry
  if entry.canClose = false then some (s, floors, entry.next)
  else
    let spec := E.specOf entry.rule
    match s.findOpener spec entry (floors.bottom spec entry) fuel entry.previous with
    | some opener => (s.pairFound E fuel opener closer).map fun r => (r.1, floors, r.2)
    | none =>
      -- An entry that cannot open leaves the stack once no opener is found for it.
      let s := if entry.canOpen then s else s.removeDelimiter closer
      some (s, floors.fail entry, entry.next)

/-- The loop of `S_process_delimiters`. -/
def pairRange (E : Elements K) (fuel : ℕ) (after : Option ℕ) :
    ℕ → State K → Floors → Option ℕ → Option (State K)
  | 0, _, _, _ => none
  | turns + 1, s, floors, closer =>
    if closer = after then some s
    else closer.bind fun c =>
      (s.pairStep E fuel floors c).bind fun r => pairRange E fuel after turns r.1 r.2.1 r.2.2

end State

end MarkdownCore.Delimiter
