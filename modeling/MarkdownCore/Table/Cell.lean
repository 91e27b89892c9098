import MarkdownCore.Source.ContentMapRun
import MarkdownCore.Table.Row

/-!
# The content of a cell

A cell's content is assembled from the trimmed bytes of its source. An escaped pipe is one byte of
it, which stands for both bytes it was written with; every other byte is copied. The cell's map
places each byte where it was written (`setCellContent_spec`).
-/

namespace MarkdownCore.Table

open Source

/-- What the offset of a cell's bytes is an offset of: the text of the block its row was recovered
from, or an input line and its number. -/
inductive Origin where
  | content (map : ContentMap)
  | input (line : InputLine) (number : ℕ)

/-- A cell node. -/
structure Cell where
  internalOffset : ℕ
  content : List UInt8
  map : ContentMap
deriving DecidableEq

/-- A cell as `new_cell` makes it, and as a completed row leaves it. -/
def Cell.empty : Cell := ⟨0, [], ⟨[], 0⟩⟩

namespace Origin

/-- Where the two bytes at `index` were written: the line, the first's start and the last's end. -/
def span : Origin → ℕ → Option (ℕ × ℤ × ℤ)
  | content map, index =>
    match map.contentPlace index false, map.contentPlace (index + 1) true with
    | some (_, first), some (line, last) => some (line, first, last)
    | _, _ => none
  | input line number, index =>
    match line.sourceOffset index, line.sourceEnd (index + 1) with
    | some first, some last => some (number, first, last)
    | _, _ => none

def appendMarks : Origin → ContentMap → ℕ → ℕ → ℕ → Option ContentMap
  | content owner, map, index, length, offset => owner.appendMarks map index length offset
  | input line number, map, index, length, offset =>
    line.appendMarks map number index length offset

/-- Where the byte at an index was written, or where it ends. -/
def placeOf : Origin → ℕ → Bool → ℤ
  | content map, index, stop => map.placeOf index stop
  | input line _, index, stop => line.placeOf index stop

/-- The block's text has a map. -/
def Ok : Origin → Prop
  | content map => map.Ok
  | input _ _ => True

end Origin

/-- The bytes with every escaped pipe contracted. -/
def contract : List UInt8 → List UInt8
  | [] => []
  | [c] => [c]
  | c :: c' :: rest =>
    if c = 0x5c ∧ c' = 0x7c then 0x7c :: contract rest else c :: contract (c' :: rest)

/-- The first and the last byte each byte of the contracted bytes stands for, of bytes the first of
which is at `index`. -/
def spans (index : ℕ) : List UInt8 → List (ℕ × ℕ)
  | [] => []
  | [_] => [(index, index)]
  | c :: c' :: rest =>
    if c = 0x5c ∧ c' = 0x7c then (index, index + 1) :: spans (index + 2) rest
    else (index, index) :: spans (index + 1) (c' :: rest)

/-- The content is the bytes of a cell contracted, and the map places each byte of it. -/
structure Holds (origin : Origin) (index : ℕ) (bytes : List UInt8) (node : Cell) : Prop where
  content_eq : node.content = contract bytes
  /-- Each byte of the content begins where the first byte it stands for does, and ends where the
  last does. -/
  placed : ∀ k span, (spans index bytes)[k]? = some span →
    (node.map.contentPlace k false).map Prod.snd = some (origin.placeOf span.1 false) ∧
      (node.map.contentPlace k true).map Prod.snd = some (origin.placeOf span.2 true)

variable {origin : Origin} {bytes rest : List UInt8} {c : UInt8} {index : ℕ}

variable {marks : List Mark} {all pre : List (ℕ × ℕ)} {node : Cell}

lemma Origin.Ok.span_eq (ho : origin.Ok) (index : ℕ) : ∃ line, origin.span index =
    some (line, origin.placeOf index false, origin.placeOf (index + 1) true) := by
  cases origin with
  | content map =>
    have hfirst := ContentMap.Ok.contentPlace ho index false
    have hlast := ContentMap.Ok.contentPlace ho (index + 1) true
    obtain ⟨⟨line, first⟩, hfirst', rfl⟩ := Option.map_eq_some_iff.mp hfirst
    obtain ⟨⟨line', last⟩, hlast', rfl⟩ := Option.map_eq_some_iff.mp hlast
    refine ⟨line', ?_⟩
    rw [Origin.span, hfirst', hlast']
    rfl
  | input line number =>
    refine ⟨number, ?_⟩
    rw [Origin.span, line.sourceOffset_eq, line.sourceEnd_eq]
    rfl

lemma Origin.Ok.appendMarks_run (ho : origin.Ok) (index : ℕ) {length offset : ℕ}
    (hpos : 0 < length) (hmarks : Increasing marks) (hbefore : ∀ m ∈ marks, m.offset < offset) :
    ∃ run, origin.appendMarks ⟨marks, 0⟩ index length offset = some ⟨marks ++ run, 0⟩ ∧
      Run run offset (offset + length) (fun x => origin.placeOf (index + (x - offset)) false)
        (fun x => origin.placeOf (index + (x - offset)) true) := by
  cases origin with
  | content map => exact ContentMap.Ok.appendMarks ho index hpos hmarks hbefore
  | input line number => exact line.appendMarks_run hpos hmarks hbefore

/-- Where a byte of the content is to begin, or to end. -/
def target (origin : Origin) (all : List (ℕ × ℕ)) (stop : Bool) (k : ℕ) : ℤ :=
  if stop then origin.placeOf (all[k]?.getD (0, 0)).2 true
  else origin.placeOf (all[k]?.getD (0, 0)).1 false

/-- The marks place the bytes of the content so far. -/
abbrev Places (origin : Origin) (all : List (ℕ × ℕ)) (marks : List Mark) (length : ℕ) : Prop :=
  Run marks 0 length (target origin all false) (target origin all true)

/-- A run of bytes that stand for themselves goes on from the ones before it. -/
lemma Places.copy (ho : origin.Ok) (h : Places origin all marks pre.length) {length : ℕ} {post : List (ℕ × ℕ)}
    (hpos : 0 < length)
    (hall : all = pre ++ ((List.range' index length).map (fun k => (k, k)) ++ post)) :
    ∃ run, origin.appendMarks ⟨marks, 0⟩ index length pre.length = some ⟨marks ++ run, 0⟩ ∧
      Places origin all (marks ++ run) (pre.length + length) := by
  obtain ⟨run, happend, hrun⟩ := ho.appendMarks_run index hpos h.increasing
    fun m hm => (h.within m hm).2
  refine ⟨run, happend, Run.append h (hrun.congr fun x hlo hhi => ?_) (Nat.zero_le _)
    (Nat.le_add_right _ _)⟩
  have hget : all[x]? = some (index + (x - pre.length), index + (x - pre.length)) := by
    have hlt : x - pre.length < length := by omega
    rw [hall, List.getElem?_append_right hlo, List.getElem?_append_left (by simpa using hlt),
      List.getElem?_map, List.getElem?_range' hlt, Nat.one_mul]
    rfl
  simp [target, hget]

/-- An escaped pipe is one byte, which stands for both. -/
lemma Places.escape (h : Places origin all marks pre.length) {line : ℕ} {post : List (ℕ × ℕ)}
    (hall : all = pre ++ (index, index + 1) :: post) {first last : ℤ}
    (hfirst : first = origin.placeOf index false) (hlast : last = origin.placeOf (index + 1) true) :
    (⟨marks, 0⟩ : ContentMap).appendMark ⟨pre.length, line, first, last - first, last - first⟩ =
        ⟨marks ++ [⟨pre.length, line, first, last - first, last - first⟩], 0⟩ ∧
      Places origin all (marks ++ [⟨pre.length, line, first, last - first, last - first⟩])
        (pre.length + 1) := by
  have hsingle := @Run.single ⟨pre.length, line, first, last - first, last - first⟩ pre.length
    (pre.length + 1) rfl (Nat.lt_succ_self _)
  refine ⟨appendMark_eq fun m hm => (h.within m hm).2,
    Run.append h (hsingle.congr fun x hlo hhi => ?_) (Nat.zero_le _) (Nat.le_succ _)⟩
  obtain rfl : x = pre.length := by omega
  have hget : all[pre.length]? = some (index, index + 1) := by
    rw [hall, List.getElem?_append_right (Nat.le_refl _), Nat.sub_self]
    rfl
  simp only [target, hget, Mark.place, hfirst, hlast, Option.getD_some, Int.sub_self, Int.zero_mul,
    Int.add_zero, Bool.false_eq_true, if_false, if_true, true_and]
  omega

end MarkdownCore.Table
