import MarkdownCore.Storage.StrbufEdit

/-!
# What a string buffer is for

A string buffer is a list of bytes that can lose a write: one that passes the limit, that grows it
to no size, or whose storage is refused. From then on it keeps its bytes until it is cleared. Every
run of the operations on a buffer is such a list's (`Strbuf.keeps_bytes`), and none of them writes
past the cells that the buffer owns or computes a size that is none, where no bytes are dropped
from a buffer that owns no storage and a buffer is set to no more of its own bytes than it has.
-/

namespace MarkdownCore.Storage

open Inline (isWhitespace)
open Strbuf (unescaped)

/-! ### Lists of bytes -/

/-- A list of bytes, and whether a write to it was lost. -/
structure ByteList where
  content : List UInt8
  lost : Bool

namespace StrbufOp

/-- What an operation makes of a list of bytes. -/
def onList : StrbufOp → List UInt8 → List UInt8
  | .init _, _ => []
  | .grow _, l => l
  | .put memory len, l => l ++ bytesAt memory len
  | .putAhead memory len, l => l ++ bytesAt memory len
  | .putc c, l => l ++ [UInt8.ofNat (c.val % 256).toNat]
  | .set .null _, _ => []
  | .set .own len, l => l.take len.val.toNat
  | .set (.other memory) len, _ => bytesAt memory len
  | .truncate len, l => l.take len.val.toNat
  | .drop n, l => l.drop n.val.toNat
  | .trim, l => (l.dropWhile isWhitespace).rdropWhile isWhitespace
  | .rtrim, l => l.rdropWhile isWhitespace
  | .unescape, l => unescaped l
  | .clear, _ => []
  | .detach, _ => []

/-- The operations that leave nothing of what a buffer held, its poison included. -/
def Clears : StrbufOp → Prop
  | .init _ => True
  | .set .null _ => True
  | .set _ len => len.val ≤ 0
  | .clear => True
  | .detach => True
  | _ => False

/-- The operations that work on the bytes where they stand. -/
def Edits : StrbufOp → Prop
  | .set .own len => 0 < len.val
  | .truncate _ => True
  | .drop _ => True
  | .trim => True
  | .rtrim => True
  | .unescape => True
  | _ => False

/-- The operations that no storage could be had for: writes that would take the content past the
limit, and growth to a size past it or to none. -/
def Exceeds : StrbufOp → List UInt8 → Prop
  | .init initialSize, _ => byteLimit < initialSize.val
  | .grow target, _ => target.val ≤ 0 ∨ byteLimit < target.val
  | .put _ len, l => byteLimit < l.length + len.val
  | .putAhead _ len, l => byteLimit < l.length + len.val
  | .putc _, l => byteLimit < l.length + 1
  | .set (.other _) len, _ => byteLimit < len.val
  | _, _ => False

/-- An operation on a list of bytes, that fails or not. What a poisoned buffer's bytes are after an
operation in place is left open. -/
inductive Step (op : StrbufOp) (fails : Prop) : ByteList → ByteList → Prop
  | cleared {s : ByteList} (clears : op.Clears) (holds : ¬ fails) : Step op fails s ⟨[], false⟩
  | clearedLost {s : ByteList} (clears : op.Clears) (failed : fails) : Step op fails s ⟨[], true⟩
  | done {l : List UInt8} (keeps : ¬ op.Clears) (holds : ¬ fails) :
    Step op fails ⟨l, false⟩ ⟨op.onList l, false⟩
  | lost {l : List UInt8} (keeps : ¬ op.Clears) (failed : fails) :
    Step op fails ⟨l, false⟩ ⟨l, true⟩
  | kept {l : List UInt8} (keeps : ¬ op.Clears) (writes : ¬ op.Edits) :
    Step op fails ⟨l, true⟩ ⟨l, true⟩
  | edited {l l' : List UInt8} (edits : op.Edits) : Step op fails ⟨l, true⟩ ⟨l', true⟩

/-- The operations whose bytes the buffer owns: bytes are dropped from storage of its own, and what
it is set to of its own bytes is there. -/
def Owns : StrbufOp → Strbuf → Prop
  | .drop n, buf => 0 < n.val → buf.asize ≠ 0
  | .set .own len, buf => len.val ≤ buf.size
  | _, _ => True

end StrbufOp

namespace StrbufCall

/-- Storage that the operation asked for was refused: with all storage granted it gives something
else. -/
def Refused (call : StrbufCall) (buf : Strbuf) : Prop :=
  call.apply buf ≠ apply ⟨fun _ => true, call.op⟩ buf

/-- The runs all of whose operations are on bytes that the buffer owns. -/
def Owned : List StrbufCall → Strbuf → Prop
  | [], _ => True
  | call :: rest, buf => call.op.Owns buf ∧ ∀ next, call.apply buf = some next → Owned rest next

/-- A run of operations on a buffer, none of which fails a check, and the same operations on a list
of bytes. -/
inductive Follows : List StrbufCall → Strbuf → ByteList → Strbuf → ByteList → Prop
  | nil {buf : Strbuf} {s : ByteList} : Follows [] buf s buf s
  | cons {call : StrbufCall} {rest : List StrbufCall} {buf next last : Strbuf}
    {s s' s'' : ByteList} (ran : call.apply buf = some next)
    (step : call.op.Step (call.op.Exceeds s.content ∨ call.Refused buf) s s')
    (follows : Follows rest next s' last s'') : Follows (call :: rest) buf s last s''

end StrbufCall

/-! ### Operations -/

namespace Strbuf

variable {buf : Strbuf} {l : List UInt8} {call : StrbufCall}

/-- What an operation does to a buffer that holds a list, as the list's. -/
def Simulated (call : StrbufCall) (buf : Strbuf) (l : List UInt8) : Prop :=
  ∃ next l', call.apply buf = some next ∧ next.Good l' ∧
    call.op.Step (call.op.Exceeds l ∨ call.Refused buf) ⟨l, buf.oom⟩ ⟨l', next.oom⟩

/-- An operation that the limit allows, on a buffer that has lost nothing. -/
lemma simulated_of_granted (h : buf.Good l) (hoom : buf.oom = false)
    (hkeeps : ¬ call.op.Clears) (hlimit : ¬ call.op.Exceeds l)
    (hgranted : Appended buf (call.op.onList l) fun storage =>
      StrbufCall.apply ⟨storage, call.op⟩ buf) :
    Simulated call buf l := by
  obtain ⟨next, ⟨hgood, hnext⟩, hall, hstorage⟩ := hgranted
  have hcall : ∀ storage, storage = call.storage →
      StrbufCall.apply ⟨storage, call.op⟩ buf = call.apply buf := by
    rintro storage rfl
    rfl
  rcases hstorage call.storage with heq | heq
  · have hrefused : ¬ call.Refused buf := by
      rw [StrbufCall.Refused, not_not, ← hcall _ rfl]
      exact heq.trans hall.symm
    refine ⟨next, call.op.onList l, (hcall _ rfl).symm.trans heq, hgood, ?_⟩
    rw [hoom, hnext]
    exact .done hkeeps (not_or.mpr ⟨hlimit, hrefused⟩)
  · have hrefused : call.Refused buf := by
      intro hsame
      have hpoison : some buf.poison = some next :=
        heq.symm.trans ((hcall _ rfl).trans (hsame.trans hall))
      rw [← Option.some.inj hpoison] at hnext
      cases hnext
    refine ⟨buf.poison, l, (hcall _ rfl).symm.trans heq, poison_good h, ?_⟩
    rw [hoom]
    exact .lost hkeeps (Or.inr hrefused)

/-- A write that is lost, or was lost already. -/
lemma simulated_of_lost (h : buf.Good l) (hkeeps : ¬ call.op.Clears) (hwrites : ¬ call.op.Edits)
    (hlost : buf.oom = true ∨ call.op.Exceeds l) (happly : call.apply buf = some buf.poison) :
    Simulated call buf l := by
  refine ⟨buf.poison, l, happly, poison_good h, ?_⟩
  cases hoom : buf.oom with
  | false =>
    rcases hlost with hoom' | hexceeds
    · rw [hoom] at hoom'
      cases hoom'
    · exact .lost hkeeps (Or.inl hexceeds)
  | true => exact .kept hkeeps hwrites

/-- An operation in place. -/
lemma simulated_of_edited (hkeeps : ¬ call.op.Clears) (hedits : call.op.Edits)
    (hlimit : ¬ call.op.Exceeds l)
    (hsame : call.apply buf = StrbufCall.apply ⟨fun _ => true, call.op⟩ buf)
    (hedited : Edited buf (call.op.onList l) (call.apply buf)) : Simulated call buf l := by
  obtain ⟨next, hnext, hgood, hoom⟩ := hedited
  refine ⟨next, call.op.onList l, hnext, hgood, ?_⟩
  rw [hoom]
  cases buf.oom with
  | false => exact .done hkeeps (not_or.mpr ⟨hlimit, not_not.mpr hsame⟩)
  | true => exact .edited hedits

/-- An operation that leaves nothing of what the buffer held. -/
lemma simulated_of_cleared (hclears : call.op.Clears) (hlimit : ¬ call.op.Exceeds l)
    (hsame : call.apply buf = StrbufCall.apply ⟨fun _ => true, call.op⟩ buf)
    (hcleared : ∃ next, call.apply buf = some next ∧ next.Good [] ∧ next.oom = false) :
    Simulated call buf l := by
  obtain ⟨next, hnext, hgood, hoom⟩ := hcleared
  refine ⟨next, [], hnext, hgood, ?_⟩
  rw [hoom]
  exact .cleared hclears (not_or.mpr ⟨hlimit, not_not.mpr hsame⟩)

lemma simulated_init (storage : ℕ → Bool) (initialSize : Bufsize) :
    Simulated ⟨storage, .init initialSize⟩ buf l := by
  by_cases hpos : 0 < initialSize.val
  · have hinit : ∀ storage, StrbufCall.apply ⟨storage, .init initialSize⟩ buf =
        empty.grow storage initialSize.val := fun storage => if_pos hpos
    by_cases hlimit : byteLimit < initialSize.val
    · refine ⟨empty.poison, [], ?_, poison_good good_empty, .clearedLost trivial (Or.inl hlimit)⟩
      rw [hinit]
      exact grow_lost storage good_empty (Or.inr (Or.inr hlimit))
    · obtain ⟨next, ⟨hgood, hnext, -, -⟩, hall, hstorage⟩ :=
        grow_granted good_empty rfl hpos (not_lt.mp hlimit)
      rcases hstorage storage with heq | heq
      · refine simulated_of_cleared trivial hlimit ?_
          ⟨next, (hinit storage).trans heq, hgood, hnext⟩
        rw [hinit, hinit]
        exact heq.trans hall.symm
      · refine ⟨empty.poison, [], (hinit storage).trans heq, poison_good good_empty,
          .clearedLost trivial (Or.inr ?_)⟩
        rw [StrbufCall.Refused, hinit, hinit]
        intro hsame
        have hpoison : some empty.poison = some next := heq.symm.trans (hsame.trans hall)
        rw [← Option.some.inj hpoison] at hnext
        cases hnext
  · have hinit : ∀ storage, StrbufCall.apply ⟨storage, .init initialSize⟩ buf = some empty :=
      fun storage => if_neg hpos
    have hlimit : ¬ byteLimit < initialSize.val := by
      simp only [byteLimit]
      omega
    exact simulated_of_cleared trivial hlimit ((hinit storage).trans (hinit _).symm)
      ⟨empty, hinit storage, good_empty, rfl⟩

lemma simulated_grow (h : buf.Good l) (storage : ℕ → Bool) (target : Bufsize) :
    Simulated ⟨storage, .grow target⟩ buf l := by
  by_cases hlost : buf.oom = true ∨ target.val ≤ 0 ∨ byteLimit < target.val
  · exact simulated_of_lost h not_false not_false hlost (grow_lost storage h hlost)
  · obtain ⟨hoom, hpos, hlimit⟩ : buf.oom = false ∧ 0 < target.val ∧ target.val ≤ byteLimit := by
      simpa [not_or] using hlost
    refine simulated_of_granted h hoom not_false (fun hexceeds => hlost (Or.inr hexceeds)) ?_
    obtain ⟨next, ⟨hgood, hnext, -, -⟩, hgrown⟩ := grow_granted h hoom hpos hlimit
    exact ⟨next, ⟨hgood, hnext⟩, hgrown⟩

/-- An append by any of the three operations. -/
lemma simulated_append (h : buf.Good l) (hkeeps : ¬ call.op.Clears) (hwrites : ¬ call.op.Edits)
    (hgranted : buf.oom = false → ¬ call.op.Exceeds l →
      Appended buf (call.op.onList l) fun storage => StrbufCall.apply ⟨storage, call.op⟩ buf)
    (hlost : buf.oom = true ∨ call.op.Exceeds l → call.apply buf = some buf.poison) :
    Simulated call buf l := by
  by_cases hfails : buf.oom = true ∨ call.op.Exceeds l
  · exact simulated_of_lost h hkeeps hwrites hfails (hlost hfails)
  · obtain ⟨hoom, hlimit⟩ := not_or.mp hfails
    have hsound : buf.oom = false := by simpa using hoom
    exact simulated_of_granted h hsound hkeeps hlimit (hgranted hsound hlimit)

lemma simulated_set (h : buf.Good l) (storage : ℕ → Bool) (data : Data) (len : Bufsize)
    (howns : (StrbufOp.set data len).Owns buf) : Simulated ⟨storage, .set data len⟩ buf l := by
  by_cases hlen : len.val ≤ 0
  · have hset : ∀ storage, StrbufCall.apply ⟨storage, .set data len⟩ buf = buf.clear :=
      fun storage => if_pos hlen
    have hlimit : ¬ (StrbufOp.set data len).Exceeds l := by
      cases data with
      | other memory =>
        simp only [StrbufOp.Exceeds, byteLimit]
        omega
      | _ => exact not_false
    have hclears : (StrbufOp.set data len).Clears := by
      cases data with
      | null => trivial
      | _ => exact hlen
    obtain ⟨next, hnext, hgood, hoom⟩ := clear_spec h
    exact simulated_of_cleared hclears hlimit ((hset storage).trans (hset _).symm)
      ⟨next, (hset storage).trans hnext, hgood, hoom⟩
  · have hpos := not_le.mp hlen
    cases data with
    | null =>
      have hset : ∀ storage, StrbufCall.apply ⟨storage, .set .null len⟩ buf = buf.clear :=
        fun storage => if_neg hlen
      obtain ⟨next, hnext, hgood, hoom⟩ := clear_spec h
      exact simulated_of_cleared trivial not_false ((hset storage).trans (hset _).symm)
        ⟨next, (hset storage).trans hnext, hgood, hoom⟩
    | own =>
      have hset : ∀ storage, StrbufCall.apply ⟨storage, .set .own len⟩ buf =
          terminate { buf.unsettle len.val.toNat with size := len.val.toNat } :=
        fun storage => if_neg hlen
      have howns : len.val ≤ buf.size := howns
      rw [h.size] at howns
      refine simulated_of_edited hlen hpos not_false ((hset storage).trans (hset _).symm) ?_
      rw [hset]
      exact setOwn_spec h (by omega) (by omega)
    | other memory =>
      refine simulated_append h hlen not_false ?_ ?_
      · intro hoom hlimit
        exact setOther_granted h hoom memory hpos (not_lt.mp hlimit)
      · intro hlost
        exact setOther_lost storage h memory hpos hlost

/-- **Every operation on a buffer is the list's.** -/
theorem simulated (h : buf.Good l) (call : StrbufCall) (howns : call.op.Owns buf) :
    Simulated call buf l := by
  obtain ⟨storage, op⟩ := call
  cases op with
  | init initialSize => exact simulated_init storage initialSize
  | grow target => exact simulated_grow h storage target
  | put memory len =>
    refine simulated_append h not_false not_false ?_ (put_lost storage h memory)
    intro hoom hlimit
    exact put_granted h hoom memory (not_lt.mp hlimit)
  | putAhead memory len =>
    refine simulated_append h not_false not_false ?_ (putAhead_lost storage h memory)
    intro hoom hlimit
    exact putAhead_granted h hoom memory (not_lt.mp hlimit)
  | putc c =>
    refine simulated_append h not_false not_false ?_ (putc_lost storage h c.val)
    intro hoom hlimit
    exact putc_granted h hoom c.val (not_lt.mp hlimit)
  | set data len => exact simulated_set h storage data len howns
  | truncate len =>
    exact simulated_of_edited not_false trivial not_false rfl (truncate_spec h len.val)
  | drop n => exact simulated_of_edited not_false trivial not_false rfl (drop_spec h howns)
  | trim => exact simulated_of_edited not_false trivial not_false rfl (trim_spec h)
  | rtrim => exact simulated_of_edited not_false trivial not_false rfl (rtrim_spec h)
  | unescape => exact simulated_of_edited not_false trivial not_false rfl (unescape_spec h)
  | clear => exact simulated_of_cleared trivial not_false rfl (clear_spec h)
  | detach =>
    obtain ⟨next, hgood, hoom, hdetach⟩ := detach_spec h
    have happly : ∀ storage, StrbufCall.apply ⟨storage, .detach⟩ buf = some next := by
      intro storage
      obtain ⟨answer, hanswer, -, -⟩ := hdetach storage
      simp only [StrbufCall.apply, hanswer, Option.map_some]
    exact simulated_of_cleared trivial not_false ((happly storage).trans (happly _).symm)
      ⟨next, happly storage, hgood, hoom⟩

/-- A run of operations, from a buffer that holds a list. -/
lemma follows_of_owned : ∀ (calls : List StrbufCall) (buf : Strbuf) (l : List UInt8), buf.Good l →
    StrbufCall.Owned calls buf →
    ∃ last l', StrbufCall.Follows calls buf ⟨l, buf.oom⟩ last ⟨l', last.oom⟩ ∧ last.Good l'
  | [], buf, l, h, _ => ⟨buf, l, .nil, h⟩
  | call :: rest, buf, l, h, howned => by
    obtain ⟨next, l', hnext, hgood, hstep⟩ := simulated h call howned.1
    obtain ⟨last, l'', hrest, hgood'⟩ := follows_of_owned rest next l' hgood (howned.2 next hnext)
    exact ⟨last, l'', .cons hnext hstep hrest, hgood'⟩

/-- **A string buffer is a bounded list of bytes that writes only where it owns.** Every run of the
operations on the empty buffer that owns the bytes it works on goes through, and is that of a list:
the buffer ends with the list's bytes and a terminator, within the limit, and is poisoned where the
list lost a write. What it hands over when it is detached then is those bytes, unless it is
poisoned or storage is refused. -/
theorem keeps_bytes (calls : List StrbufCall) (howned : StrbufCall.Owned calls empty) :
    ∃ (buf : Strbuf) (s : ByteList), StrbufCall.Follows calls empty ⟨[], false⟩ buf s ∧
      buf.content = s.content ∧ buf.oom = s.lost ∧ buf.read buf.size = some 0 ∧
      (buf.size : ℤ) ≤ byteLimit ∧ (buf.asize : ℤ) ≤ byteLimit + 1 ∧
      ∀ storage, ∃ answer next, buf.detach storage = some (answer, next) ∧
        (∀ bytes, answer = some bytes → s.lost = false ∧ bytes = s.content ++ [0]) ∧
        (answer = none → s.lost = true ∨ ∃ bytes, storage bytes = false) := by
  obtain ⟨buf, l, hfollows, hgood⟩ := follows_of_owned calls empty [] good_empty howned
  refine ⟨buf, ⟨l, buf.oom⟩, hfollows, hgood.content_eq, rfl, ?_, ?_, hgood.asize_le, ?_⟩
  · rw [hgood.read_eq hgood.size.le, hgood.size, List.getElem?_append_right le_rfl, Nat.sub_self]
    rfl
  · rw [hgood.size]
    exact hgood.length_le
  · intro storage
    obtain ⟨next, -, -, hdetach⟩ := detach_spec hgood
    obtain ⟨answer, hanswer, hbytes, hnone⟩ := hdetach storage
    exact ⟨answer, next, hanswer, hbytes, hnone⟩

/-- A byte appended and dropped, and another appended. -/
theorem keeps_bytes_appended :
    ∃ (buf : Strbuf) (s : ByteList),
      StrbufCall.Follows
          [⟨fun _ => true, .putc ⟨97, by decide⟩⟩, ⟨fun _ => true, .drop ⟨1, by decide⟩⟩,
            ⟨fun _ => true, .putc ⟨98, by decide⟩⟩] empty ⟨[], false⟩ buf s ∧
        buf.content = s.content ∧ buf.oom = s.lost ∧ buf.read buf.size = some 0 ∧
        (buf.size : ℤ) ≤ byteLimit ∧ (buf.asize : ℤ) ≤ byteLimit + 1 ∧
        ∀ storage, ∃ answer next, buf.detach storage = some (answer, next) ∧
          (∀ bytes, answer = some bytes → s.lost = false ∧ bytes = s.content ++ [0]) ∧
          (answer = none → s.lost = true ∨ ∃ bytes, storage bytes = false) := by
  refine keeps_bytes _ ⟨trivial, fun next hnext =>
    ⟨fun _ => ?_, fun _ _ => ⟨trivial, fun _ _ => trivial⟩⟩⟩
  obtain ⟨appended, ⟨hgood, -⟩, happended, -⟩ := putc_granted good_empty rfl 97 (by decide)
  rw [Option.some.inj (hnext.symm.trans happended)]
  exact hgood.asize_ne_zero (List.cons_ne_nil _ _)

/-- A growth to no size loses the writes after it, though no write passes the limit and all storage
is granted; and bytes dropped from the empty buffer are written over the sentinel. -/
theorem growth_to_none_loses :
    StrbufCall.run [⟨fun _ => true, .grow ⟨0, by decide⟩⟩, ⟨fun _ => true, .putc ⟨97, by decide⟩⟩]
        empty = some ⟨.sentinel, 0, true⟩ ∧
      (StrbufOp.putc ⟨97, by decide⟩).onList ((StrbufOp.grow ⟨0, by decide⟩).onList []) = [97] ∧
      StrbufCall.run [⟨fun _ => true, .drop ⟨1, by decide⟩⟩] empty = none := by
  refine ⟨?_, rfl, rfl⟩
  have hgrow : StrbufCall.apply ⟨fun _ => true, .grow ⟨0, by decide⟩⟩ empty =
      some empty.poison := rfl
  have hputc : StrbufCall.apply ⟨fun _ => true, .putc ⟨97, by decide⟩⟩ empty.poison =
      some empty.poison := putc_lost _ (poison_good good_empty) 97 (Or.inl rfl)
  rw [StrbufCall.run, hgrow, Option.bind_some, StrbufCall.run, hputc]
  rfl

end Strbuf

end MarkdownCore.Storage
