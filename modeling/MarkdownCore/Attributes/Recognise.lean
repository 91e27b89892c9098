import MarkdownCore.Attributes.Grammar

/-!
# Recognition with a memo

A parser is asked about many braces of one text. Every boundary and every `=` a walk passes holds
a link to the one passed before it while the walk is out, and the answer is written back along
that chain. A later walk that reaches a known position takes its answer.
-/

namespace MarkdownCore.Attributes

open Inline

/-- `INVALID`: asked, and nothing closes. -/
def invalid : ℤ := -1

/-- `LINK_NONE`. -/
def linkNone : ℤ := -2

/-- `LINK`: the position pushed before, encoded below `invalid`. -/
def link (previous : ℤ) : ℤ := -3 - previous

/-- `LINKED`. -/
def linked (value : ℤ) : ℤ := -3 - value

/-- `KNOWN`. -/
def known (value : ℤ) : Bool := 0 < value || value = invalid

@[simp] lemma linked_link (previous : ℤ) : linked (link previous) = previous := by
  unfold linked link
  omega

/-- The answers by position: for the container from there, and for the value opened by the `=`
there. `0` is not yet asked. -/
structure Ends where
  «end» : ℕ → ℤ
  assignmentEnd : ℕ → ℤ

/-- Nothing has been asked. -/
def Ends.blank : Ends := ⟨fun _ => 0, fun _ => 0⟩

section

variable (data : List UInt8)

/-- `memo`: an `=` is asked for its value, anything else for the container from it. -/
def Ends.word (ends : Ends) (pos : ℕ) : ℤ :=
  if byteAt data pos = 0x3d then ends.assignmentEnd pos else ends.end pos

/-- The word `memo` points at is written. -/
def Ends.write (ends : Ends) (pos : ℕ) (value : ℤ) : Ends :=
  if byteAt data pos = 0x3d then
    { ends with assignmentEnd := Function.update ends.assignmentEnd pos value }
  else { ends with «end» := Function.update ends.end pos value }

/-- `push`. -/
def push (ends : Ends) (chain : ℤ) (pos : ℕ) : Ends × ℤ := (ends.write data pos (link chain), pos)

/-- `unquoted_end`: every `=` stepped over that no quote follows joins the chain. -/
def unquotedEnd : ℕ → Ends → ℤ → ℕ → ℕ × Ends × ℤ
  | 0, ends, chain, _ => (data.length, ends, chain)
  | steps + 1, ends, chain, pos =>
    if data.length ≤ pos then (data.length, ends, chain)
    else if valueEnd (byteAt data pos) then (pos, ends, chain)
    else if escaped data pos then unquotedEnd steps ends chain (pos + 2)
    else if byteAt data pos = 0x3d ∧ pos + 1 < data.length ∧ ¬ isQuote (byteAt data (pos + 1)) ∧
        ends.assignmentEnd pos = 0 then
      let (ends, chain) := push data ends chain pos
      unquotedEnd steps ends chain (pos + 1)
    else unquotedEnd steps ends chain (pos + 1)

/-- The loop of `recognise`: the answer, the memo and the chain. -/
def walk : ℕ → Ends → ℤ → ℕ → ℤ × Ends × ℤ
  | 0, ends, chain, _ => (invalid, ends, chain)
  | steps + 1, ends, chain, b =>
    if data.length ≤ b then (invalid, ends, chain)
    else if horizontal (byteAt data b) || newline (byteAt data b) then
      match skipGap data b with
      | some next => walk steps ends chain next
      | none => (invalid, ends, chain)
    else if known (ends.end b) then (ends.end b, ends, chain)
    else
      let (ends, chain) := push data ends chain b
      match dispatch data b with
      | .last (some finish) => (finish, ends, chain)
      | .last none => (invalid, ends, chain)
      | .member _ next => walk steps ends chain next
      | .assignment e =>
        if known (ends.assignmentEnd e) then (ends.assignmentEnd e, ends, chain)
        else
          let (ends, chain) := push data ends chain e
          if valueClose data e + 1 < data.length then walk steps ends chain (valueClose data e + 1)
          else
            let (next, ends, chain) := unquotedEnd data data.length ends chain (e + 1)
            walk steps ends chain next

/-- The answer is written back along the chain. -/
def writeBack (answer : ℤ) : ℕ → Ends → ℤ → Ends
  | 0, ends, _ => ends
  | steps + 1, ends, chain =>
    if chain = linkNone then ends
    else
      let previous := linked (ends.word data chain.toNat)
      writeBack answer steps (ends.write data chain.toNat answer) previous

/-- `recognise`: the answer for a boundary, and the memo after it. -/
def recognise (ends : Ends) (b : ℕ) : ℤ × Ends :=
  let (answer, ends, chain) := walk data (data.length + 1) ends linkNone b
  (answer, writeBack data answer (data.length + 1) ends chain)

end

/-- An attribute parser. The memo is made on the first brace; storage may refuse it. -/
structure Parser where
  data : List UInt8
  ends : Option Ends
  oom : Bool

/-- A parser nothing has been asked of. -/
def Parser.fresh (data : List UInt8) : Parser := ⟨data, none, false⟩

/-- `memo_ready`. -/
def Parser.memoReady (storage : Bool) (p : Parser) : Option Ends :=
  match p.ends with
  | some ends => some ends
  | none => if storage then some .blank else none

/-- `markdown_core_attributes_end`: one past the brace that closes the container at `start`, or
`0`. -/
def attributesEnd (storage : Bool) (p : Parser) (start : ℕ) : ℕ × Parser :=
  if p.oom then (0, p)
  else if p.data.length ≤ start ∨ byteAt p.data start ≠ 0x7b then (0, p)
  else
    match p.memoReady storage with
    | none => (0, { p with oom := true })
    | some ends =>
      let (answer, ends) := recognise p.data ends (start + 1)
      (if answer = invalid then 0 else answer.toNat, { p with ends := some ends })

/-- The loop of `markdown_core_attributes_tail`. -/
def tailFrom (storage : Bool) (stop : ℕ) : ℕ → Parser → ℕ → Option ℕ × Parser
  | 0, p, _ => (none, p)
  | steps + 1, p, pos =>
    if stop ≤ pos then (none, p)
    else if escaped (p.data.take stop) pos then tailFrom storage stop steps p (pos + 2)
    else if byteAt p.data pos = 0x7b then
      let (finish, p) := attributesEnd storage p pos
      if finish = stop then (some pos, p) else tailFrom storage stop steps p (pos + 1)
    else tailFrom storage stop steps p (pos + 1)

/-- `markdown_core_attributes_tail`, none for `-1`. -/
def attributesTail (storage : Bool) (p : Parser) (start stop : ℕ) : Option ℕ × Parser :=
  if stop ≤ start ∨ byteAt p.data (stop - 1) ≠ 0x7d then (none, p)
  else tailFrom storage stop (stop - start) p start

end MarkdownCore.Attributes
