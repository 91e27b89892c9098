import MarkdownCore.Session.CallsRun

/-!
# The document a session shows

What a session shows is what its parse makes of the text held, and the parse answers for each
reading alone (`Parse.Sound`): for one that streams on, for one of the whole text, and for one of an
edit, which keeps children whose lookups the edit may have altered. The session answers for the
rest: that a reading is of the text held, that kept children that looked up an altered label are all
read again before a document is shown, and that there is none where that fails.
-/

namespace MarkdownCore.Calls

open Text (Input Replaced)
open Lsp (lineOf replace sourceCapacity)
open Declarations (Key)

/-- What the states of a parse and the roots it publishes are of a text. -/
structure Readings (P T : Type*) where
  /-- A parse that streams has read so much. -/
  streams : P → List UInt8 → Prop
  /-- A root is the snapshot of a text. -/
  snapshot : T → List UInt8 → Prop
  /-- A root is the document of a text. -/
  document : T → List UInt8 → Prop
  /-- The root a flushed parse published is a text's document but for its lookups at some places. -/
  stands : P → T → List UInt8 → (ℕ → Prop) → Prop
  /-- The same after the reading of an edit, but for lookups of altered labels in the children it
  kept: those before an offset and those from where the reading ended. -/
  keeps : P → T → List UInt8 → ℕ → Prop

/-- Where a line of a text starts, as `session_line_start` answers. -/
def startOf (text : List UInt8) (line : ℕ) : ℕ := ((Input.span text line).map Prod.fst).getD 0

variable {P T K : Type*}

/-- What the session relies on each function of a parse for. -/
structure Parse.Sound (parse : Parse P T K) (r : Readings P T) : Prop where
  start : r.streams parse.start []
  /-- A commit reads on, as far as it gets. -/
  commit {p : P} {read text : List UInt8} : r.streams p read → read <+: text →
    ∃ read', read' <+: text ∧ r.streams (parse.commit p text false).1 read'
  complete {p : P} {read : List UInt8} : r.streams p read → r.streams (parse.complete p).1 read
  snapshots {p : P} {read : List UInt8} (text : List UInt8) : r.streams p read →
    r.streams (parse.snapshot p text).1 read
  /-- A snapshot after a commit and the completion of what is open is of all the text. -/
  snapshot {p q q' : P} {root : T} {read text : List UInt8} : r.streams p read → read <+: text →
    parse.commit p text false = (q, true) → parse.complete q = (q', true) →
    (parse.snapshot q' text).2 = some root → r.snapshot root text
  /-- A flush after the last commit is of all the text. -/
  flush {p q : P} {root : T} {read text : List UInt8} : r.streams p read → read <+: text →
    parse.flush (parse.commit p text true).1 = (q, some root) → r.stands q root text fun _ => False
  document {p : P} {root : T} {text : List UInt8} :
    (r.stands p root text fun _ => False) → r.document root text
  looksStreaming {p : P} {read : List UInt8} (root : Option T) (text : List UInt8)
    (position : Text.Cursor) : r.streams p read → r.streams (parse.look p root text position).1 read
  looks {p : P} {root : T} {text : List UInt8} {stale : ℕ → Prop} (position : Text.Cursor) :
    r.stands p root text stale → r.stands (parse.look p (some root) text position).1 root text stale
  rests {p : P} {root : T} {text : List UInt8} {stale : ℕ → Prop} (edited : ℕ) :
    r.stands p root text stale → r.stands (parse.rest p root text edited).1 root text stale
  /-- A reading of the whole text after an edit. -/
  whole {p q q' : P} {root root' : T} {old text : List UInt8} {replaced : Replaced} :
    (r.stands p root old fun _ => False) → replaced.Makes old text →
    parse.reopen p root ⟨0, 0, []⟩ replaced text true = (q, true) →
    parse.flush (parse.commit q text true).1 = (q', some root') →
    r.stands (parse.compact q') root' text fun _ => False
  /-- A reading from a rest point before an edit. -/
  edited {p q q' p' : P} {root root' : T} {old text : List UInt8} {replaced : Replaced} {line : ℕ}
    {rest : {rest : RestPoint // rest.Before line}} :
    (r.stands p root old fun _ => False) → parse.rest p root old line = (p', some rest) →
    replaced.Makes old text → startOf old line ≤ replaced.start →
    parse.reopen p' root rest.1 replaced text false = (q, true) →
    parse.flush (parse.commit q text true).1 = (q', some root') →
    r.keeps q' root' text (startOf old rest.1.line) ∧
      (rest.1.child = 0 → parse.resumed q' = 0 → r.stands q' root' text fun _ => False)
  /-- An edit that altered no label leaves the lookups kept as they were. -/
  alteredNone {p q : P} {root : T} {text : List UInt8} {start : ℕ} : r.keeps p root text start →
    parse.alteredLabels p start = (q, some []) → r.stands q root text fun _ => False
  /-- The uses of the labels an edit altered are where the lookups kept may answer otherwise. -/
  alteredSome {p q q' : P} {root : T} {text : List UInt8} {start : ℕ} {labels : List Key}
    {spans : List (ℕ × ℕ)}
    {places : {places : List ℕ // ∀ place ∈ places, ∃ span ∈ spans, place < span.2}} :
    r.keeps p root text start → parse.alteredLabels p start = (q, some labels) →
    (spans = (0, start) :: if parse.resumed p = 0 then [] else [(parse.resumed p, text.length)]) →
    parse.usesOf q labels spans = (q', some places) →
    places.1.Pairwise (· < ·) ∧ r.stands q' root text (· ∈ places.1)
  /-- A reading of an edit of nothing makes the lookups again that it reads anew. -/
  again {p q q' p' : P} {root root' : T} {text : List UInt8} {input : Input} {stale : ℕ → Prop}
    {inside past : ℕ} {rest : {rest : RestPoint // rest.Before (lineOf input inside)}} :
    r.stands p root text stale → input.source = text → input.Whole → inside ≤ text.length →
    parse.rest p root text (lineOf input inside) = (p', some rest) →
    parse.reopen p' root rest.1 ⟨inside, inside, 0, past⟩ text false = (q, true) →
    parse.flush (parse.commit q text true).1 = (q', some root') →
    r.stands q' root' text fun place => stale place ∧ ¬ Uses.Anew inside past
      (if parse.resumed q' = 0 then text.length else parse.resumed q') place

variable {parse : Parse P T K} {r : Readings P T} {granted : Granted} {s s' : Session P T K}

end MarkdownCore.Calls
