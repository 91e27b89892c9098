import MarkdownCore.Library.WordScan
import MarkdownCore.Text.Lines

/-!
# Texts that grow

A session's text arrives in pieces. Its lines are scanned as far as a reading asks, the last of
them on from where it ended when more text comes, and the end of the last complete line is sought
back over the bytes that are new. Both scans compare a machine word at a time and step bytewise
through the word that may hold what they seek; they stop where they would bytewise
(`sourceSpanEnd_eq`, `backWords_eq`).
-/

namespace MarkdownCore.Text

open WordScan

/-- How a machine orders the bytes of a word. -/
inductive ByteOrder where
  | little
  | big
deriving DecidableEq, Repr

/-- The bytes of a word in memory, lowest first. -/
def ByteOrder.bytes (order : ByteOrder) (bytes : List UInt8) : List UInt8 :=
  match order with
  | .little => bytes
  | .big => bytes.reverse

/-- The word that a copy of the eight bytes at `cursor` gives. -/
def wordAt (order : ByteOrder) (source : List UInt8) (cursor : ℕ) : BitVec 64 :=
  load (order.bytes ((source.drop cursor).take 8))

/-- A word taken against a byte repeated. -/
def against (word : BitVec 64) (byte : UInt8) : BitVec 64 :=
  word ^^^ ones * BitVec.ofNat 64 byte.toNat

/-- A byte that ends a span: it ends a line, or is read as another. -/
def endsSpan (byte : UInt8) : Bool := byte == 0 || ends byte

/-! ### The scan of a line -/

/-- The loop of `S_source_span_end` over words. The first argument bounds its turns. -/
def spanWords (order : ByteOrder) (source : List UInt8) : ℕ → ℕ → ℕ
  | 0, cursor => cursor
  | fuel + 1, cursor =>
    if 8 ≤ source.length - cursor then
      let word := wordAt order source cursor
      if (zeroBytes word ||| zeroBytes (against word carriageReturn) |||
          zeroBytes (against word lineFeed)) &&& highs ≠ 0 then cursor
      else spanWords order source fuel (cursor + 8)
    else cursor

/-- The loop of `S_source_span_end` over bytes. -/
def spanBytes (source : List UInt8) : ℕ → ℕ → ℕ
  | 0, cursor => cursor
  | fuel + 1, cursor =>
    if cursor < source.length ∧ ¬ endsSpan (source.getD cursor 0) then
      spanBytes source fuel (cursor + 1)
    else cursor

/-- `S_source_span_end`. -/
def sourceSpanEnd (order : ByteOrder) (source : List UInt8) (cursor : ℕ) : ℕ :=
  let cursor := spanWords order source (source.length - cursor) cursor
  spanBytes source (source.length - cursor) cursor

/-- The loop of `S_scan_line`: where the spans end, and how many NULs are between them. -/
def scanSpans (order : ByteOrder) (source : List UInt8) : ℕ → ℕ → ℕ → ℕ × ℕ
  | 0, cursor, nuls => (cursor, nuls)
  | fuel + 1, cursor, nuls =>
    let cursor := sourceSpanEnd order source cursor
    if cursor = source.length ∨ source.getD cursor 0 ≠ 0 then (cursor, nuls)
    else scanSpans order source fuel (cursor + 1) (nuls + 1)

/-- `markdown_core_input_line`, with its facts' number of NULs. -/
structure CountedLine where
  start : ℕ
  stop : ℕ
  nuls : ℕ
deriving DecidableEq, Repr

/-- `S_scan_line`: the line scanned from `start` to its end, and where the next starts. -/
def scanFrom (order : ByteOrder) (source : List UInt8) (entry : CountedLine) (start : ℕ) :
    CountedLine × ℕ :=
  let span := scanSpans order source (source.length - start + 1) start 0
  ({ entry with stop := span.1, nuls := entry.nuls + span.2 }, pastEnding source span.1)

/-! ### The end of the last complete line -/

/-- The loop of `S_complete_end` over words. -/
def backWords (order : ByteOrder) (source : List UInt8) (floor : ℕ) : ℕ → ℕ → ℕ
  | 0, stop => stop
  | fuel + 1, stop =>
    if 8 ≤ stop - floor then
      let word := wordAt order source (stop - 8)
      if (zeroBytes (against word carriageReturn) ||| zeroBytes (against word lineFeed)) &&&
          highs ≠ 0 then stop
      else backWords order source floor fuel (stop - 8)
    else stop

/-- The loop of `S_complete_end` over bytes. -/
def backBytes (source : List UInt8) (floor : ℕ) : ℕ → ℕ
  | 0 => 0
  | stop + 1 =>
    if floor < stop + 1 ∧ ¬ ends (source.getD stop 0) then backBytes source floor stop
    else stop + 1

/-- `S_complete_end`. -/
def completeEnd (order : ByteOrder) (source : List UInt8) (read complete : ℕ) : ℕ :=
  let floor := read - 1
  let stop := source.length
  if floor < stop ∧ source.getD (stop - 1) 0 = lineFeed then stop
  else
    let stop :=
      if floor < stop ∧ source.getD (stop - 1) 0 = carriageReturn then stop - 1 else stop
    let stop := backBytes source floor (backWords order source floor stop stop)
    if floor < stop then stop else complete

/-! ### The input -/

/-- `markdown_core_parser_input`, of a text that grows at its end. -/
structure GrowingInput where
  source : List UInt8
  lines : List CountedLine
  scanned : ℕ
  complete : ℕ
deriving DecidableEq, Repr

namespace GrowingInput

/-- `S_extend_source_lines`: scan lines until line `index` is among them or the text ends. -/
def extend (order : ByteOrder) (index : ℕ) : ℕ → GrowingInput → GrowingInput
  | 0, input => input
  | fuel + 1, input =>
    if input.lines.length ≤ index ∧ input.scanned < input.source.length then
      let scan := scanFrom order input.source ⟨input.scanned, 0, 0⟩ input.scanned
      extend order index fuel
        { input with lines := input.lines ++ [scan.1], scanned := scan.2 }
    else input

/-- `S_scan_last_line`. -/
def scanLastLine (order : ByteOrder) (input : GrowingInput) : GrowingInput :=
  match input.lines.getLast? with
  | none => input
  | some line =>
    let scan := scanFrom order input.source line line.stop
    { input with lines := input.lines.dropLast ++ [scan.1], scanned := scan.2 }

/-- What `S_parse_source` does first: the text has grown by `more`. -/
def grow (order : ByteOrder) (input : GrowingInput) (more : List UInt8) : GrowingInput :=
  let source := input.source ++ more
  let grown := { input with
    source := source
    complete := completeEnd order source input.source.length input.complete }
  if input.lines ≠ [] ∧ input.scanned < source.length ∧
      source.getD (input.scanned - 1) 0 ≠ lineFeed then scanLastLine order grown
  else grown

end GrowingInput

/-! ### Words against bytes -/

variable {source : List UInt8} {cursor stop floor : ℕ} {order : ByteOrder}

/-- A word with no flag against a byte does not hold it, in either order. -/
lemma not_mem_of_against (h : cursor + 8 ≤ source.length) {byte : UInt8}
    (hflags : zeroBytes (against (wordAt order source cursor) byte) &&& highs = 0) :
    byte ∉ (source.drop cursor).take 8 := by
  have hlength : ((source.drop cursor).take 8).length = 8 := by
    rw [List.length_take, List.length_drop]
    omega
  rw [against, wordAt] at hflags
  cases order with
  | little => exact (zeroBytes_eq_zero_iff hlength byte).mp hflags
  | big =>
    have hreverse : ((source.drop cursor).take 8).reverse.length = 8 := by
      rw [List.length_reverse, hlength]
    have hnot := (zeroBytes_eq_zero_iff hreverse byte).mp hflags
    rwa [List.mem_reverse] at hnot

lemma against_zero (word : BitVec 64) : against word 0 = word := by
  simp [against]

lemma or_and_highs {a b : BitVec 64} (h : (a ||| b) &&& highs = 0) :
    a &&& highs = 0 ∧ b &&& highs = 0 := by
  rw [BitVec.and_comm, BitVec.and_or_distrib_left] at h
  rw [BitVec.and_comm a, BitVec.and_comm b]
  exact BitVec.or_eq_zero_iff.mp h

lemma getD_mem_word {x : ℕ} (h : cursor + 8 ≤ source.length) (hle : cursor ≤ x)
    (hlt : x < cursor + 8) : source.getD x 0 ∈ (source.drop cursor).take 8 := by
  have hx : x < source.length := by omega
  rw [List.getD_eq_getElem?_getD, List.getElem?_eq_getElem hx]
  apply List.mem_of_getElem? (i := x - cursor)
  rw [List.getElem?_take, if_pos (by omega), List.getElem?_drop, Nat.add_sub_cancel' hle,
    List.getElem?_eq_getElem hx]
  rfl

/-- The words that are passed hold no byte that ends a span. -/
lemma spanWords_spec {fuel : ℕ} (h : cursor ≤ source.length) :
    cursor ≤ spanWords order source fuel cursor ∧
      spanWords order source fuel cursor ≤ source.length ∧
      ∀ x, cursor ≤ x → x < spanWords order source fuel cursor →
        endsSpan (source.getD x 0) = false := by
  induction fuel generalizing cursor with
  | zero => exact ⟨le_refl _, h, fun x hle hlt => absurd hle (Nat.not_le.mpr hlt)⟩
  | succ fuel ih =>
    have hstay : cursor ≤ cursor ∧ cursor ≤ source.length ∧
        ∀ x, cursor ≤ x → x < cursor → endsSpan (source.getD x 0) = false :=
      ⟨le_refl _, h, fun x hle hlt => absurd hle (Nat.not_le.mpr hlt)⟩
    rw [spanWords]
    split
    next hroom =>
      dsimp only
      split
      next => exact hstay
      next hflags =>
        have hin : cursor + 8 ≤ source.length := by omega
        obtain ⟨hle, hlength, hpassed⟩ := ih hin
        refine ⟨by omega, hlength, fun x hx hlt => ?_⟩
        by_cases hword : x < cursor + 8
        · obtain ⟨hleft, hlf⟩ := or_and_highs (not_not.mp hflags)
          obtain ⟨hnul, hcr⟩ := or_and_highs hleft
          rw [← against_zero (wordAt order source cursor)] at hnul
          have hmem := getD_mem_word hin hx hword
          have hne : ∀ byte, byte ∉ (source.drop cursor).take 8 → source.getD x 0 ≠ byte := by
            rintro byte hnot rfl
            exact hnot hmem
          rw [endsSpan, ends, Bool.or_eq_false_iff, Bool.or_eq_false_iff, beq_eq_false_iff_ne,
            beq_eq_false_iff_ne, beq_eq_false_iff_ne]
          exact ⟨hne _ (not_mem_of_against hin hnul), hne _ (not_mem_of_against hin hcr),
            hne _ (not_mem_of_against hin hlf)⟩
        · exact hpassed x (by omega) hlt
    next => exact hstay

/-- A scan passes the bytes from `cursor` on and stops at the first that `p` holds of, or at the
end. -/
structure Stops (p : UInt8 → Bool) (source : List UInt8) (cursor stop : ℕ) : Prop where
  le : cursor ≤ stop
  le_length : stop ≤ source.length
  passed : ∀ x, cursor ≤ x → x < stop → p (source.getD x 0) = false
  holds : stop < source.length → p (source.getD stop 0) = true

variable {p : UInt8 → Bool} {stop' : ℕ}

lemma Stops.unique (h : Stops p source cursor stop) (h' : Stops p source cursor stop') :
    stop = stop' := by
  rcases Nat.lt_trichotomy stop stop' with hlt | heq | hlt
  · have hpassed := h'.passed stop h.le hlt
    rw [h.holds (lt_of_lt_of_le hlt h'.le_length)] at hpassed
    cases hpassed
  · exact heq
  · have hpassed := h.passed stop' h'.le hlt
    rw [h'.holds (lt_of_lt_of_le hlt h.le_length)] at hpassed
    cases hpassed

/-- A scan goes on from past bytes it passes. -/
lemma Stops.of_passed {middle : ℕ} (h : Stops p source middle stop) (hle : cursor ≤ middle)
    (hpassed : ∀ x, cursor ≤ x → x < middle → p (source.getD x 0) = false) :
    Stops p source cursor stop := by
  refine ⟨le_trans hle h.le, h.le_length, fun x hx hlt => ?_, h.holds⟩
  by_cases hmiddle : x < middle
  · exact hpassed x hx hmiddle
  · exact h.passed x (Nat.le_of_not_lt hmiddle) hlt

lemma spanBytes_stops {fuel : ℕ} (h : cursor ≤ source.length)
    (hfuel : source.length - cursor ≤ fuel) :
    Stops endsSpan source cursor (spanBytes source fuel cursor) := by
  induction fuel generalizing cursor with
  | zero =>
    refine ⟨le_refl _, h, fun x hle hlt => absurd hle (Nat.not_le.mpr hlt), fun hlt => ?_⟩
    rw [spanBytes] at hlt
    omega
  | succ fuel ih =>
    rw [spanBytes]
    split
    next hgo =>
      refine (ih (by omega) (by omega)).of_passed (Nat.le_succ cursor) fun x hx hlt => ?_
      obtain rfl : x = cursor := by omega
      exact Bool.eq_false_iff.mpr hgo.2
    next hstop =>
      refine ⟨le_refl _, h, fun x hle hlt => absurd hle (Nat.not_le.mpr hlt), fun hlt => ?_⟩
      by_contra hends
      exact hstop ⟨hlt, hends⟩

lemma sourceSpanEnd_stops (h : cursor ≤ source.length) :
    Stops endsSpan source cursor (sourceSpanEnd order source cursor) := by
  obtain ⟨hle, hlength, hpassed⟩ :=
    @spanWords_spec source cursor order (source.length - cursor) h
  exact (spanBytes_stops hlength (by omega)).of_passed hle hpassed

/-- The scan of a span stops where the scan of its bytes alone does. -/
theorem sourceSpanEnd_eq (h : cursor ≤ source.length) :
    sourceSpanEnd order source cursor = spanBytes source (source.length - cursor) cursor :=
  (sourceSpanEnd_stops h).unique (spanBytes_stops h (le_refl _))

/-- The words that are passed back hold no byte that ends a line. -/
lemma backWords_spec {fuel : ℕ} (h : stop ≤ source.length) (hfloor : floor ≤ stop) :
    floor ≤ backWords order source floor fuel stop ∧
      backWords order source floor fuel stop ≤ stop ∧
      ∀ x, backWords order source floor fuel stop ≤ x → x < stop →
        ends (source.getD x 0) = false := by
  induction fuel generalizing stop with
  | zero => exact ⟨hfloor, le_refl _, fun x hle hlt => absurd hle (Nat.not_le.mpr hlt)⟩
  | succ fuel ih =>
    have hstay : floor ≤ stop ∧ stop ≤ stop ∧
        ∀ x, stop ≤ x → x < stop → ends (source.getD x 0) = false :=
      ⟨hfloor, le_refl _, fun x hle hlt => absurd hle (Nat.not_le.mpr hlt)⟩
    rw [backWords]
    split
    next hroom =>
      dsimp only
      split
      next => exact hstay
      next hflags =>
        have hin : stop - 8 + 8 ≤ source.length := by omega
        obtain ⟨hfloor', hle, hpassed⟩ := ih (by omega) (show floor ≤ stop - 8 by omega)
        refine ⟨hfloor', by omega, fun x hx hlt => ?_⟩
        by_cases hword : x < stop - 8
        · exact hpassed x hx hword
        · obtain ⟨hcr, hlf⟩ := or_and_highs (not_not.mp hflags)
          have hmem := @getD_mem_word _ (stop - 8) x hin (by omega) (by omega)
          rw [ends, Bool.or_eq_false_iff, beq_eq_false_iff_ne, beq_eq_false_iff_ne]
          constructor
          · intro heq
            exact not_mem_of_against hin hcr (heq ▸ hmem)
          · intro heq
            exact not_mem_of_against hin hlf (heq ▸ hmem)
    next => exact hstay

/-- A scan back passes the bytes before `stop` and stops past the last that ends a line, or at
`floor`. -/
structure StopsBack (source : List UInt8) (floor stop back : ℕ) : Prop where
  le : back ≤ stop
  floor_le : floor ≤ back
  passed : ∀ x, back ≤ x → x < stop → ends (source.getD x 0) = false
  holds : floor < back → ends (source.getD (back - 1) 0) = true

lemma StopsBack.unique {back back' : ℕ} (h : StopsBack source floor stop back)
    (h' : StopsBack source floor stop back') : back = back' := by
  have hlt : ∀ a b, StopsBack source floor stop a → StopsBack source floor stop b → ¬ a < b := by
    intro a b ha hb hab
    have hpassed := ha.passed (b - 1) (by omega) (by have := hb.le; omega)
    rw [hb.holds (lt_of_le_of_lt ha.floor_le hab)] at hpassed
    cases hpassed
  exact le_antisymm (Nat.le_of_not_lt (hlt _ _ h' h)) (Nat.le_of_not_lt (hlt _ _ h h'))

lemma backBytes_stops (hfloor : floor ≤ stop) :
    StopsBack source floor stop (backBytes source floor stop) := by
  induction stop with
  | zero =>
    refine ⟨le_refl _, hfloor, fun x _ hlt => absurd hlt (Nat.not_lt_zero x), fun hlt => ?_⟩
    exact absurd hlt (Nat.not_lt_zero _)
  | succ stop ih =>
    rw [backBytes]
    split
    next hgo =>
      have h := ih (Nat.le_of_lt_succ hgo.1)
      refine ⟨le_trans h.le (Nat.le_succ stop), h.floor_le, fun x hx hlt => ?_, h.holds⟩
      rcases Nat.lt_or_eq_of_le (Nat.le_of_lt_succ hlt) with hlt' | rfl
      · exact h.passed x hx hlt'
      · exact Bool.eq_false_iff.mpr hgo.2
    next hstop =>
      refine ⟨le_refl _, hfloor, fun x hle hlt => absurd hle (Nat.not_le.mpr hlt), fun hlt => ?_⟩
      by_contra hends
      exact hstop ⟨hlt, hends⟩

lemma backWords_stops (h : stop ≤ source.length) (hfloor : floor ≤ stop) (fuel : ℕ) :
    StopsBack source floor stop (backBytes source floor (backWords order source floor fuel stop)) := by
  obtain ⟨hfloor', hle, hpassed⟩ := @backWords_spec source stop floor order fuel h hfloor
  have hback := @backBytes_stops source _ _ hfloor'
  refine ⟨le_trans hback.le hle, hback.floor_le, fun x hx hlt => ?_, hback.holds⟩
  by_cases hword : x < backWords order source floor fuel stop
  · exact hback.passed x hx hword
  · exact hpassed x (Nat.le_of_not_lt hword) hlt

/-- The scan back stops where the scan of the bytes alone does. -/
theorem backWords_eq (h : stop ≤ source.length) (hfloor : floor ≤ stop) (fuel : ℕ) :
    backBytes source floor (backWords order source floor fuel stop) =
      backBytes source floor stop :=
  (backWords_stops h hfloor fuel).unique (backBytes_stops hfloor)

end MarkdownCore.Text
