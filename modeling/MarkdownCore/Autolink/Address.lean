import MarkdownCore.Attributes.Reference
import MarkdownCore.Autolink.Domain

/-!
# Addresses in a text

A text is searched for `@`. From each the scan goes back over the local part, and over the name of
a protocol before it, and on over the domain; at a second `@` it starts again from there. An address
is cut out of the text as a link, and the search goes on behind it. A read outside the text is a
fault here, so that an outcome says that there was none.
-/

namespace MarkdownCore.Autolink

open Attributes (isalnum)

section

variable (data : List UInt8)

/-! ### Reads -/

/-- The byte so far before a position. -/
def readBack (base back : ℕ) : Option UInt8 := if back ≤ base then data[base - back]? else none

/-- Some bytes from so far before a position. -/
def sliceBack (base back len : ℕ) : Option (List UInt8) :=
  if back ≤ base ∧ base - back + len ≤ data.length then some ((data.drop (base - back)).take len)
  else none

/-! ### The end of a link -/

/-- The first loop of `autolink_delim`: the end, at a `<` before it, and the parentheses. -/
def countBrackets (base linkEnd : ℕ) : ℕ → ℕ → ℕ → ℕ → Option (ℕ × ℕ × ℕ)
  | 0, _, closing, opening => some (linkEnd, closing, opening)
  | steps + 1, i, closing, opening =>
    if linkEnd ≤ i then some (linkEnd, closing, opening)
    else
      data[base + i]?.bind fun c =>
        if c = 0x3c then some (i, closing, opening)
        else if c = 0x28 then countBrackets base linkEnd steps (i + 1) closing (opening + 1)
        else if c = 0x29 then countBrackets base linkEnd steps (i + 1) (closing + 1) opening
        else countBrackets base linkEnd steps (i + 1) closing opening

/-- Back over the letters of an entity. -/
def entityStart (base : ℕ) : ℕ → ℕ → Option ℕ
  | 0, newEnd => some newEnd
  | steps + 1, newEnd =>
    if newEnd = 0 then some 0
    else
      data[base + newEnd]?.bind fun c =>
        if isalpha c then entityStart base steps (newEnd - 1) else some newEnd

/-- What an end sheds: `?`, `!`, `.`, `,`, `:`, `*`, `_`, `~` and quotes. -/
def shed (c : UInt8) : Bool :=
  c ∈ ([0x3f, 0x21, 0x2e, 0x2c, 0x3a, 0x2a, 0x5f, 0x7e, 0x27, 0x22] : List UInt8)

/-- The second loop of `autolink_delim`. -/
def trimEnd (base opening : ℕ) : ℕ → ℕ → ℕ → Option ℕ
  | 0, _, linkEnd => some linkEnd
  | steps + 1, closing, linkEnd =>
    if linkEnd = 0 then some 0
    else
      data[base + (linkEnd - 1)]?.bind fun c =>
        if c = 0x29 then
          if closing ≤ opening then some linkEnd
          else trimEnd base opening steps (closing - 1) (linkEnd - 1)
        else if shed c then trimEnd base opening steps closing (linkEnd - 1)
        else if c = 0x3b then
          if linkEnd < 2 then none
          else
            (entityStart data base (linkEnd - 2) (linkEnd - 2)).bind fun newEnd =>
              data[base + newEnd]?.bind fun d =>
                if newEnd < linkEnd - 2 ∧ d = 0x26 then trimEnd base opening steps closing newEnd
                else trimEnd base opening steps closing (linkEnd - 1)
        else some linkEnd

/-- `autolink_delim` over the bytes from a position. -/
def autolinkDelim (base linkEnd : ℕ) : Option ℕ :=
  (countBrackets data base linkEnd linkEnd 0 0 0).bind fun (linkEnd, closing, opening) =>
    trimEnd data base opening linkEnd closing linkEnd

/-! ### The local part -/

/-- `mailto:`. -/
def mailto : List UInt8 := [0x6d, 0x61, 0x69, 0x6c, 0x74, 0x6f, 0x3a]

/-- `xmpp:`. -/
def xmpp : List UInt8 := [0x78, 0x6d, 0x70, 0x70, 0x3a]

/-- `validate_protocol` at the `@` of a base: the protocol ends where the rewind stands, and what is
before it is neither a letter nor a digit. -/
def validateProtocol (protocol : List UInt8) (base rewind maxRewind : ℕ) : Option Bool :=
  if maxRewind < rewind ∨ maxRewind - rewind < protocol.length then some false
  else
    let far := rewind + protocol.length
    (sliceBack data base far protocol.length).bind fun bytes =>
      if bytes ≠ protocol then some false
      else if far = maxRewind then some true
      else (readBack data base (far + 1)).map fun prevChar => !isalnum prevChar

/-- What `strchr` finds in `.+-_`, its NUL too. -/
def localSign (c : UInt8) : Bool := c ∈ ([0x2e, 0x2b, 0x2d, 0x5f, 0] : List UInt8)

/-- The loop back over the local part: how far it goes, and the protocol flags. -/
def rewindFrom (base maxRewind : ℕ) : ℕ → ℕ → Bool → Bool → Option (ℕ × Bool × Bool)
  | 0, rewind, autoMailto, isXmpp => some (rewind, autoMailto, isXmpp)
  | steps + 1, rewind, autoMailto, isXmpp =>
    if maxRewind ≤ rewind then some (rewind, autoMailto, isXmpp)
    else
      (readBack data base (rewind + 1)).bind fun c =>
        if isalnum c || localSign c then
          rewindFrom base maxRewind steps (rewind + 1) autoMailto isXmpp
        else if c = 0x3a then
          (validateProtocol data mailto base rewind maxRewind).bind fun valid =>
            if valid then rewindFrom base maxRewind steps (rewind + 1) false isXmpp
            else
              (validateProtocol data xmpp base rewind maxRewind).bind fun valid =>
                if valid then rewindFrom base maxRewind steps (rewind + 1) false true
                else some (rewind, autoMailto, isXmpp)
        else some (rewind, autoMailto, isXmpp)

/-! ### The domain -/

/-- How the loop over a domain ends: at another `@`, or with the dots it has passed. -/
inductive DomainEnd where
  | again (linkEnd : ℕ)
  | stop (linkEnd np : ℕ)
  deriving DecidableEq, Repr

/-- The loop over a domain, with so many bytes left from its `@`. -/
def domainFrom (base room : ℕ) (isXmpp : Bool) : ℕ → ℕ → ℕ → Option DomainEnd
  | 0, linkEnd, np => some (.stop linkEnd np)
  | steps + 1, linkEnd, np =>
    if room ≤ linkEnd then some (.stop linkEnd np)
    else
      data[base + linkEnd]?.bind fun c =>
        if isalnum c then domainFrom base room isXmpp steps (linkEnd + 1) np
        else if c = 0x40 then some (.again linkEnd)
        else if c = 0x2e ∧ linkEnd < room - 1 then
          data[base + linkEnd + 1]?.bind fun d =>
            if isalnum d then domainFrom base room isXmpp steps (linkEnd + 1) (np + 1)
            else some (.stop linkEnd np)
        else if (c = 0x2f ∧ isXmpp = true) ∨ c = 0x2d ∨ c = 0x5f then
          domainFrom base room isXmpp steps (linkEnd + 1) np
        else some (.stop linkEnd np)

/-! ### One turn -/

/-- What the scan holds at `found_at`: how far the local part may reach back, and the protocol
flags. -/
structure Found where
  maxRewind : ℕ
  autoMailto : Bool
  isXmpp : Bool
  deriving DecidableEq, Repr

/-- What comes of an `@`: the scan goes on at another one, or with an offset; or there is an
address from so far before it to so far behind. -/
inductive Attempt where
  | again (offset : ℕ) (found : Found)
  | skip (offset : ℕ)
  | address (rewind linkEnd : ℕ) (autoMailto : Bool)
  deriving DecidableEq, Repr

/-- Whether a domain is one: it has a dot and ends with a letter or a dot. -/
def wellEnded (base linkEnd np : ℕ) : Option Bool :=
  if linkEnd < 2 ∨ np = 0 then some false
  else data[base + linkEnd - 1]?.map fun c => isalpha c || c = 0x2e

/-- The scan from `found_at`. -/
def attempt (start offset : ℕ) (found : Found) : Option Attempt :=
  let base := start + offset + found.maxRewind
  (rewindFrom data base found.maxRewind found.maxRewind 0 found.autoMailto found.isXmpp).bind
    fun (rewind, autoMailto, isXmpp) =>
      if rewind = 0 then some (.skip (offset + found.maxRewind + 1))
      else if data[base]? ≠ some 0x40 then none
      else
        let room := data.length - start - offset - found.maxRewind
        (domainFrom data base room isXmpp room 1 0).bind fun
          | .again linkEnd =>
            some (.again (offset + found.maxRewind + 1) ⟨linkEnd - 1, autoMailto, isXmpp⟩)
          | .stop linkEnd np =>
            (wellEnded data base linkEnd np).bind fun ended =>
              if ended = false then some (.skip (offset + found.maxRewind + linkEnd))
              else
                (autolinkDelim data base linkEnd).bind fun linkEnd =>
                  if linkEnd = 0 then some (.skip (offset + found.maxRewind + 1))
                  else some (.address rewind linkEnd autoMailto)

/-! ### The split -/

/-- What a text is split into: a range of it that stays text, or that a link takes. -/
inductive Piece where
  | text (start length : ℕ)
  | link (start length : ℕ) (destination : List UInt8)
  deriving DecidableEq, Repr

def Piece.start : Piece → ℕ
  | .text start _ => start
  | .link start _ _ => start

def Piece.length : Piece → ℕ
  | .text _ length => length
  | .link _ length _ => length

/-- The literal of a piece's text. -/
def Piece.literal (piece : Piece) : List UInt8 := (data.drop piece.start).take piece.length

/-- What the parent of the text may contain. -/
structure Parent where
  links : Bool
  texts : Bool

/-- The split as it goes: where what is left of the text starts, the offset of the search in it, the
`@` at hand, and the pieces before. -/
structure Splitter where
  start : ℕ
  offset : ℕ
  found : Option Found
  pieces : List Piece
  deriving DecidableEq

/-- How a turn ends: with a read outside the text, with the search at its end, with storage
refused, or in another state. -/
inductive Turn where
  | fault
  | stop
  | fail
  | next (splitter : Splitter)

/-- The link of an address, with `mailto:` before its text unless a protocol has been read. -/
def addressLink (start offset : ℕ) (found : Found) (rewind linkEnd : ℕ) (autoMailto : Bool) :
    Piece :=
  let first := start + offset + found.maxRewind - rewind
  let text := (data.drop first).take (linkEnd + rewind)
  .link first (linkEnd + rewind) (if autoMailto then mailto ++ text else text)

/-- The pieces of a split: the text before the link, unless it is empty, and the link. -/
def addressPieces (start prefixLen : ℕ) (link : Piece) : List Piece :=
  (if prefixLen = 0 then [] else [.text start prefixLen]) ++ [link]

/-- One turn of the loop of `postprocess_text`; a jump to `found_at` is a turn. `storage` tells
whether what a split asks for is granted. -/
def Splitter.turn (parent : Parent) (storage : ℕ → Bool) (s : Splitter) : Turn :=
  match s.found with
  | none =>
    if data.length - s.start ≤ s.offset then .stop
    else
      match (data.drop (s.start + s.offset)).idxOf? 0x40 with
      | none => .stop
      | some maxRewind => .next { s with found := some ⟨maxRewind, true, false⟩ }
  | some found =>
    match attempt data s.start s.offset found with
    | none => .fault
    | some (.again offset found) => .next { s with offset, found := some found }
    | some (.skip offset) => .next { s with offset, found := none }
    | some (.address rewind linkEnd autoMailto) =>
      let prefixLen := s.offset + found.maxRewind - rewind
      if parent.links = false ∨ (0 < prefixLen ∧ parent.texts = false) then .stop
      else if storage s.pieces.length = false then .fail
      else
        .next
          { start := s.start + s.offset + found.maxRewind + linkEnd
            offset := 0
            found := none
            pieces := s.pieces ++ addressPieces s.start prefixLen
              (addressLink data s.start s.offset found rewind linkEnd autoMailto) }

/-- What `postprocess_text` leaves: nothing when the parse has failed, else the pieces in order. -/
inductive Outcome where
  | failed
  | left (pieces : List Piece)
  deriving DecidableEq

/-- The end of `postprocess_text`: the text keeps the tail, or is gone when there is none. -/
def Splitter.finish (storage : ℕ → Bool) (s : Splitter) : Outcome :=
  let remaining := data.length - s.start
  if s.start = 0 then .left [.text 0 remaining]
  else if remaining = 0 then .left s.pieces
  else if storage s.pieces.length = false then .failed
  else .left (s.pieces ++ [.text s.start remaining])

/-- The turns of the loop; none when a read faults. -/
def splitFrom (parent : Parent) (storage : ℕ → Bool) : ℕ → Splitter → Option Outcome
  | 0, _ => none
  | steps + 1, s =>
    match s.turn data parent storage with
    | .fault => none
    | .fail => some .failed
    | .stop => some (s.finish data storage)
    | .next s => splitFrom parent storage steps s

def Splitter.fresh : Splitter := ⟨0, 0, none, []⟩

end

end MarkdownCore.Autolink
