import MarkdownCore.Text.Growth

/-!
# The line table of a text that grows

The whole text split byte by byte (`splitFrom`) has the lines that the scan makes of it however it
arrived. A line that was scanned stays as it is when more text comes, but the last, which is scanned
on from where it ended (`Grown.grow`).
-/

namespace MarkdownCore.Text

/-- The lines of a text, byte by byte: the line that started at `start` has come to `cursor`, past
`nuls` NULs. -/
def splitFrom (start cursor nuls : ℕ) : List UInt8 → List CountedLine
  | [] => if start < cursor then [⟨start, cursor, nuls⟩] else []
  | [byte] =>
    if ends byte then [⟨start, cursor, nuls⟩]
    else [⟨start, cursor + 1, if byte = 0 then nuls + 1 else nuls⟩]
  | byte :: next :: rest =>
    if byte = carriageReturn ∧ next = lineFeed then
      ⟨start, cursor, nuls⟩ :: splitFrom (cursor + 2) (cursor + 2) 0 rest
    else if ends byte then
      ⟨start, cursor, nuls⟩ :: splitFrom (cursor + 1) (cursor + 1) 0 (next :: rest)
    else splitFrom start (cursor + 1) (if byte = 0 then nuls + 1 else nuls) (next :: rest)

/-- The text split at each line ending. -/
def splitLines (source : List UInt8) : List CountedLine := splitFrom 0 0 0 source

/-- Where the last complete line ends, byte by byte: a carriage return that ends the text may be
half of an ending. -/
def completeFrom (cursor complete : ℕ) : List UInt8 → ℕ
  | [] => complete
  | [byte] => if byte = lineFeed then cursor + 1 else complete
  | byte :: next :: rest =>
    if byte = carriageReturn ∧ next = lineFeed then completeFrom (cursor + 2) (cursor + 2) rest
    else if ends byte then completeFrom (cursor + 1) (cursor + 1) (next :: rest)
    else completeFrom (cursor + 1) complete (next :: rest)

/-- The lines lie one after another, each from where the one before ended with its terminator. -/
inductive Tiles (source : List UInt8) : ℕ → List CountedLine → ℕ → Prop
  | here (cursor : ℕ) : Tiles source cursor [] cursor
  | line {stop : ℕ} {line : CountedLine} {rest : List CountedLine} (hle : line.start ≤ line.stop)
      (hlt : line.start < pastEnding source line.stop)
      (hrest : Tiles source (pastEnding source line.stop) rest stop) :
      Tiles source line.start (line :: rest) stop

variable {source : List UInt8} {s t start stop cursor : ℕ} {order : ByteOrder}

/-! ### NULs -/

/-- How many NULs are between two offsets. -/
def nulsIn (source : List UInt8) (start stop : ℕ) : ℕ :=
  ((source.drop start).take (stop - start)).count 0

@[simp] lemma nulsIn_self (source : List UInt8) (start : ℕ) : nulsIn source start start = 0 := by
  simp [nulsIn]

lemma nulsIn_add {middle : ℕ} (hle : start ≤ middle) (hle' : middle ≤ stop) :
    nulsIn source start middle + nulsIn source middle stop = nulsIn source start stop := by
  have htake : (source.drop start).take (stop - start) =
      (source.drop start).take (middle - start) ++ (source.drop middle).take (stop - middle) := by
    rw [show stop - start = (middle - start) + (stop - middle) by omega, List.take_add,
      List.drop_drop, Nat.add_sub_cancel' hle]
  rw [nulsIn, nulsIn, nulsIn, htake, List.count_append]

lemma nulsIn_eq_zero (h : ∀ x, start ≤ x → x < stop → source.getD x 0 ≠ 0) :
    nulsIn source start stop = 0 := by
  rw [nulsIn, List.count_eq_zero]
  intro hmem
  obtain ⟨j, hj⟩ := List.mem_iff_getElem?.mp hmem
  rw [List.getElem?_take] at hj
  split at hj
  next hlt =>
    rw [List.getElem?_drop] at hj
    refine h (start + j) (Nat.le_add_right _ _) (by omega) ?_
    rw [List.getD_eq_getElem?_getD, hj]
    rfl
  next => cases hj

lemma nulsIn_succ (h : cursor < source.length) (hzero : source.getD cursor 0 = 0) :
    nulsIn source cursor (cursor + 1) = 1 := by
  have hget : source[cursor] = 0 := by
    rwa [List.getD_eq_getElem?_getD, List.getElem?_eq_getElem h] at hzero
  rw [nulsIn, Nat.add_sub_cancel_left, List.drop_eq_getElem_cons h, hget]
  simp

/-- How many NULs a line has once it has come past one more byte. -/
lemma nulsIn_step {byte : UInt8} {nuls : ℕ} (hle : start ≤ cursor) (hlt : cursor < source.length)
    (hbyte : source.getD cursor 0 = byte) (hnuls : nuls = nulsIn source start cursor) :
    (if byte = 0 then nuls + 1 else nuls) = nulsIn source start (cursor + 1) := by
  have hsum := @nulsIn_add source _ _ _ hle (Nat.le_add_right cursor 1)
  split
  next hzero =>
    rw [nulsIn_succ hlt (hbyte.trans hzero)] at hsum
    omega
  next hne =>
    have hzero : nulsIn source cursor (cursor + 1) = 0 := by
      refine nulsIn_eq_zero fun x hx hx' => ?_
      obtain rfl : x = cursor := by omega
      exact hbyte ▸ hne
    omega

lemma nulsIn_append {more : List UInt8} (h : stop ≤ source.length) :
    nulsIn (source ++ more) start stop = nulsIn source start stop := by
  rw [nulsIn, nulsIn]
  by_cases hle : start ≤ stop
  · rw [List.drop_append_of_le_length (by omega), List.take_append_of_le_length]
    rw [List.length_drop]
    omega
  · rw [show stop - start = 0 by omega, List.take_zero, List.take_zero]

/-! ### The scan of a line -/

/-- A line's scan stops where the first byte that ends it is. -/
lemma spanEnd_stops (h : cursor ≤ source.length) :
    Stops ends source cursor (spanEnd source cursor) := by
  have hspan := spanLength_le (source.drop cursor)
  rw [List.length_drop] at hspan
  have heq : spanEnd source cursor = cursor + spanLength (source.drop cursor) := rfl
  have hget : ∀ j, source.getD (cursor + j) 0 = (source.drop cursor).getD j 0 := by
    intro j
    rw [List.getD_eq_getElem?_getD, List.getD_eq_getElem?_getD, List.getElem?_drop]
  refine ⟨by omega, by omega, fun x hx hlt => ?_, fun hlt => ?_⟩
  · obtain ⟨j, rfl⟩ := Nat.exists_eq_add_of_le hx
    have hj : j < spanLength (source.drop cursor) := by omega
    rw [hget]
    have hmem := List.getElem_mem hj
    have hpasses := List.mem_takeWhile_imp hmem
    have hstarts := (List.takeWhile_prefix (fun b => !ends b) (l := source.drop cursor)).getElem hj
    rw [List.getD_eq_getElem?_getD, List.getElem?_eq_getElem (lt_of_lt_of_le hj
      (spanLength_le _)), Option.getD_some, ← hstarts]
    simpa using hpasses
  · obtain ⟨b, hb, hends⟩ := @ends_at_span (source.drop cursor) (by rw [List.length_drop]; omega)
    rw [heq, hget, List.getD_eq_getElem?_getD, hb]
    exact hends

/-- The spans of a line go up to its end, and the NULs between them are its NULs. -/
lemma scanSpans_eq {fuel nuls : ℕ} (h : cursor ≤ source.length)
    (hfuel : source.length - cursor < fuel) :
    scanSpans order source fuel cursor nuls =
      (spanEnd source cursor, nuls + nulsIn source cursor (spanEnd source cursor)) := by
  induction fuel generalizing cursor nuls with
  | zero => exact absurd hfuel (Nat.not_lt_zero _)
  | succ fuel ih =>
    have hspan := @sourceSpanEnd_stops source cursor order h
    generalize hnext : sourceSpanEnd order source cursor = next at hspan
    have hlines : ∀ x, cursor ≤ x → x < next → ends (source.getD x 0) = false := by
      intro x hx hlt
      have hpassed := hspan.passed x hx hlt
      rw [endsSpan, Bool.or_eq_false_iff] at hpassed
      exact hpassed.2
    have hnuls : nulsIn source cursor next = 0 := by
      refine nulsIn_eq_zero fun x hx hlt => ?_
      have hpassed := hspan.passed x hx hlt
      rw [endsSpan, Bool.or_eq_false_iff, beq_eq_false_iff_ne] at hpassed
      exact hpassed.1
    rw [scanSpans, hnext]
    split
    next hstop =>
      -- the span ends the line
      have hends : Stops ends source cursor next := by
        refine ⟨hspan.le, hspan.le_length, hlines, fun hlt => ?_⟩
        have hholds := hspan.holds hlt
        rw [endsSpan, Bool.or_eq_true, beq_iff_eq] at hholds
        rcases hstop with heq | hne
        · exact absurd heq (ne_of_lt hlt)
        · exact hholds.resolve_left hne
      rw [← hends.unique (spanEnd_stops h), hnuls, Nat.add_zero]
    next hgo =>
      rw [not_or, not_not] at hgo
      obtain ⟨hne, hzero⟩ := hgo
      have hlt : next < source.length := lt_of_le_of_ne hspan.le_length hne
      have hle := hspan.le
      have hrest := @spanEnd_stops source (next + 1) hlt
      have hends : Stops ends source cursor (spanEnd source (next + 1)) := by
        refine hrest.of_passed (by omega) fun x hx hlt' => ?_
        rcases Nat.lt_or_eq_of_le (Nat.le_of_lt_succ hlt') with hlt'' | rfl
        · exact hlines x hx hlt''
        · rw [hzero]
          decide
      rw [ih (show next + 1 ≤ source.length from hlt) (by omega), ← hends.unique (spanEnd_stops h)]
      have hsum := @nulsIn_add source _ _ _ hle (Nat.le_add_right next 1)
      have hsum' := @nulsIn_add source _ _ _ (show cursor ≤ next + 1 by omega) hrest.le
      have hone := nulsIn_succ hlt hzero
      rw [Prod.mk.injEq]
      exact ⟨rfl, by omega⟩

/-- A line as it is scanned from its start. -/
def countedLine (source : List UInt8) (start : ℕ) : CountedLine :=
  ⟨start, spanEnd source start, nulsIn source start (spanEnd source start)⟩

/-- A line scanned on from a place before which nothing ends it, and where its NULs are counted, is
scanned as from its start. -/
lemma scanFrom_eq (hle : start ≤ cursor) (hlength : cursor ≤ source.length) {entry : CountedLine}
    (hstart : entry.start = start) (hnuls : entry.nuls = nulsIn source start cursor)
    (hpassed : ∀ x, start ≤ x → x < cursor → ends (source.getD x 0) = false) :
    scanFrom order source entry cursor =
      (countedLine source start, (scanLine source start).2) := by
  have hends := (spanEnd_stops hlength).of_passed hle hpassed
  have heq := hends.unique (spanEnd_stops (le_trans hle hlength))
  have hsum := @nulsIn_add source _ _ _ hle (spanEnd_stops hlength).le
  rw [scanFrom, scanSpans_eq hlength (Nat.lt_succ_self _)]
  dsimp only
  rw [Nat.zero_add, heq] at *
  rw [hnuls, hsum, hstart]
  rfl

lemma scanFrom_start (h : start ≤ source.length) :
    scanFrom order source ⟨start, 0, 0⟩ start =
      (countedLine source start, (scanLine source start).2) :=
  scanFrom_eq (le_refl _) h rfl (nulsIn_self source start).symm
    fun _ hx hlt => absurd hx (Nat.not_le.mpr hlt)

/-! ### Splitting byte by byte -/

lemma getD_of_drop {byte : UInt8} {rest : List UInt8} (h : source.drop cursor = byte :: rest) :
    cursor < source.length ∧ source[cursor]? = some byte ∧ source.getD cursor 0 = byte ∧
      source.drop (cursor + 1) = rest := by
  have hget : source[cursor]? = some byte := by
    have hzero := @List.getElem?_drop _ source cursor 0
    rw [h, Nat.add_zero] at hzero
    exact hzero.symm
  obtain ⟨hlt, -⟩ := List.getElem?_eq_some_iff.mp hget
  refine ⟨hlt, hget, ?_, ?_⟩
  · rw [List.getD_eq_getElem?_getD, hget]
    rfl
  · rw [← List.drop_drop, h]
    rfl

lemma pastEnding_eq {byte : UInt8} (hbyte : source[cursor]? = some byte)
    (hends : ends byte = true) :
    pastEnding source cursor =
      if byte = carriageReturn ∧ source[cursor + 1]? = some lineFeed then cursor + 2
      else cursor + 1 := by
  rw [ends, Bool.or_eq_true, beq_iff_eq, beq_iff_eq] at hends
  rw [pastEnding, pastByte, pastByte, hbyte]
  rcases hends with rfl | rfl
  · simp only [if_true, true_and]
  · have hne : ¬ (some lineFeed = some carriageReturn) := by decide
    have hboth : ¬ (lineFeed = carriageReturn ∧ source[cursor + 1]? = some lineFeed) := by
      rintro ⟨heq, -⟩
      exact hne (congrArg some heq)
    rw [if_neg hne, hbyte, if_pos rfl, if_neg hboth]

lemma pastEnding_length (source : List UInt8) : pastEnding source source.length = source.length :=
  le_antisymm (pastEnding_le (le_refl _)) (le_pastEnding source _)

lemma passed_succ (hpassed : ∀ x, start ≤ x → x < cursor → ends (source.getD x 0) = false)
    (hlast : ends (source.getD cursor 0) = false) :
    ∀ x, start ≤ x → x < cursor + 1 → ends (source.getD x 0) = false := by
  intro x hx hlt
  rcases Nat.lt_or_eq_of_le (Nat.le_of_lt_succ hlt) with hlt' | rfl
  · exact hpassed x hx hlt'
  · exact hlast

/-- A line that is scanned up to `cursor`, and the lines from past its terminator on. -/
lemma map_lines_cons {next nuls : ℕ} (hlt : start < source.length) (hle : start ≤ cursor)
    (hlength : cursor ≤ source.length) (hnuls : nuls = nulsIn source start cursor)
    (hpassed : ∀ x, start ≤ x → x < cursor → ends (source.getD x 0) = false)
    (hholds : cursor < source.length → ends (source.getD cursor 0) = true)
    (hnext : pastEnding source cursor = next) :
    (lines source start).map (fun line => countedLine source line.start) =
      ⟨start, cursor, nuls⟩ ::
        (lines source next).map fun line => countedLine source line.start := by
  have hspan : spanEnd source start = cursor :=
    (spanEnd_stops (le_trans hle hlength)).unique ⟨hle, hlength, hpassed, hholds⟩
  rw [lines_cons hlt, List.map_cons, scanLine]
  dsimp only
  rw [hspan, hnext, countedLine, hspan, hnuls]

/-- The text split from a place of a line is the lines the scan makes from the line's start. -/
lemma splitFrom_eq {bytes : List UInt8} {nuls : ℕ} (hdrop : source.drop cursor = bytes)
    (hle : start ≤ cursor) (hlength : cursor ≤ source.length)
    (hnuls : nuls = nulsIn source start cursor)
    (hpassed : ∀ x, start ≤ x → x < cursor → ends (source.getD x 0) = false) :
    splitFrom start cursor nuls bytes =
      (lines source start).map fun line => countedLine source line.start := by
  have hself : ∀ next, nulsIn source next next = 0 := nulsIn_self source
  have hnone : ∀ next x, next ≤ x → x < next → ends (source.getD x 0) = false :=
    fun next x hx hlt => absurd hx (Nat.not_le.mpr hlt)
  induction start, cursor, nuls, bytes using splitFrom.induct with
  | case1 start cursor nuls hlt =>
    have hend : cursor = source.length := le_antisymm hlength (List.drop_eq_nil_iff.mp hdrop)
    have hpast := pastEnding_length source
    rw [← hend] at hpast
    rw [splitFrom, if_pos hlt, map_lines_cons (lt_of_lt_of_le hlt hlength) hle hlength hnuls hpassed
      (fun hlt' => absurd hend (ne_of_lt hlt')) hpast, lines_nil (le_of_eq hend.symm)]
    rfl
  | case2 start cursor nuls hge =>
    have hend := List.drop_eq_nil_iff.mp hdrop
    rw [splitFrom, if_neg hge, lines_nil (by omega)]
    rfl
  | case3 start cursor nuls byte hends =>
    obtain ⟨hlt, hget, hgetD, hrest⟩ := getD_of_drop hdrop
    have hend := List.drop_eq_nil_iff.mp hrest
    have hnext : source[cursor + 1]? = none := List.getElem?_eq_none hend
    have hpast := pastEnding_eq hget hends
    rw [if_neg (by rw [hnext]; simp)] at hpast
    rw [splitFrom, if_pos hends, map_lines_cons (lt_of_le_of_lt hle hlt) hle hlength hnuls hpassed
      (fun _ => hgetD ▸ hends) hpast, lines_nil hend]
    rfl
  | case4 start cursor nuls byte hends =>
    obtain ⟨hlt, hget, hgetD, hrest⟩ := getD_of_drop hdrop
    have hend : cursor + 1 = source.length :=
      le_antisymm hlt (List.drop_eq_nil_iff.mp hrest)
    have hpast := pastEnding_length source
    rw [← hend] at hpast
    have hpassed' : ∀ x, start ≤ x → x < cursor + 1 → ends (source.getD x 0) = false :=
      passed_succ hpassed (hgetD ▸ Bool.eq_false_iff.mpr hends)
    rw [splitFrom, if_neg hends, map_lines_cons (lt_of_le_of_lt hle hlt)
      (le_trans hle (Nat.le_succ cursor)) hlt (nulsIn_step hle hlt hgetD hnuls) hpassed'
      (fun hlt' => absurd hend (ne_of_lt hlt')) hpast, lines_nil (le_of_eq hend.symm)]
    rfl
  | case5 start cursor nuls byte next rest hboth ih =>
    obtain ⟨hlt, hget, hgetD, hrest⟩ := getD_of_drop hdrop
    obtain ⟨hlt', hget', hgetD', hrest'⟩ := getD_of_drop hrest
    obtain ⟨rfl, rfl⟩ := hboth
    have hends : ends carriageReturn = true := by decide
    have hpast := pastEnding_eq hget hends
    rw [if_pos ⟨rfl, hget'⟩] at hpast
    rw [splitFrom, if_pos ⟨rfl, rfl⟩, ih hrest' (le_refl _) hlt' (hself _).symm (hnone _),
      map_lines_cons (lt_of_le_of_lt hle hlt) hle hlength hnuls hpassed (fun _ => hgetD ▸ hends)
        hpast]
  | case6 start cursor nuls byte next rest hboth hends ih =>
    obtain ⟨hlt, hget, hgetD, hrest⟩ := getD_of_drop hdrop
    obtain ⟨hlt', hget', hgetD', hrest'⟩ := getD_of_drop hrest
    have hpast := pastEnding_eq hget hends
    have hboth' : ¬ (byte = carriageReturn ∧ source[cursor + 1]? = some lineFeed) := by
      rw [hget', Option.some.injEq]
      exact hboth
    rw [if_neg hboth'] at hpast
    rw [splitFrom, if_neg hboth, if_pos hends, ih hrest (le_refl _) hlt (hself _).symm (hnone _),
      map_lines_cons (lt_of_le_of_lt hle hlt) hle hlength hnuls hpassed (fun _ => hgetD ▸ hends)
        hpast]
  | case7 start cursor nuls byte next rest hboth hends ih =>
    obtain ⟨hlt, hget, hgetD, hrest⟩ := getD_of_drop hdrop
    have hpassed' : ∀ x, start ≤ x → x < cursor + 1 → ends (source.getD x 0) = false :=
      passed_succ hpassed (hgetD ▸ Bool.eq_false_iff.mpr hends)
    rw [splitFrom, if_neg hboth, if_neg hends]
    exact ih hrest (le_trans hle (Nat.le_succ cursor)) hlt (nulsIn_step hle hlt hgetD hnuls) hpassed'

lemma splitLines_eq (source : List UInt8) :
    splitLines source = (lines source 0).map fun line => countedLine source line.start :=
  splitFrom_eq rfl (le_refl _) (Nat.zero_le _) (nulsIn_self source 0).symm
    fun x _ hlt => absurd hlt (Nat.not_lt_zero x)

lemma Scans.tiles {row : List Line} (h : Scans source s row t) :
    Tiles source s (row.map fun line => countedLine source line.start) t := by
  induction h with
  | here s => exact Tiles.here s
  | @line s t rest hs _ ih =>
    have hpos := lineLength_drop_pos hs
    have hnext : pastEnding source (spanEnd source s) = (scanLine source s).2 := rfl
    refine @Tiles.line source t (countedLine source s) _ (spanEnd_stops (le_of_lt hs)).le ?_ ih
    have heq := scanLine_eq source s
    rw [Prod.ext_iff] at heq
    rw [show (countedLine source s).stop = spanEnd source s from rfl, hnext, heq.2]
    exact Nat.lt_add_of_pos_right hpos

/-! ### The complete lines -/

/-- Where a text ends but for a carriage return that may be half of an ending. -/
def settledEnd (source : List UInt8) : ℕ :=
  if 0 < source.length ∧ source.getD (source.length - 1) 0 = carriageReturn then source.length - 1
  else source.length

lemma StopsBack.self_of_ends (hends : ends (source.getD (stop - 1) 0) = true) :
    StopsBack source 0 stop stop :=
  ⟨le_refl _, Nat.zero_le _, fun _ hx hlt => absurd hx (Nat.not_le.mpr hlt), fun _ => hends⟩

/-- Byte by byte, the last complete line ends past the last byte that ends a line. -/
lemma completeFrom_stops {bytes : List UInt8} {complete : ℕ} (hdrop : source.drop cursor = bytes)
    (hlength : cursor ≤ source.length) (hcomplete : StopsBack source 0 cursor complete)
    (hlast : bytes = [] → settledEnd source = cursor) :
    StopsBack source 0 (settledEnd source) (completeFrom cursor complete bytes) := by
  induction cursor, complete, bytes using completeFrom.induct with
  | case1 cursor complete =>
    rw [completeFrom, hlast rfl]
    exact hcomplete
  | case2 cursor complete =>
    obtain ⟨hlt, hget, hgetD, hrest⟩ := getD_of_drop hdrop
    have hend : cursor + 1 = source.length := le_antisymm hlt (List.drop_eq_nil_iff.mp hrest)
    have hsettled : settledEnd source = cursor + 1 := by
      rw [settledEnd, ← hend, Nat.add_sub_cancel, hgetD, if_neg]
      rintro ⟨-, heq⟩
      exact absurd heq (by decide)
    rw [completeFrom, if_pos rfl, hsettled]
    refine StopsBack.self_of_ends ?_
    rw [Nat.add_sub_cancel, hgetD]
    decide
  | case3 cursor complete byte hne =>
    obtain ⟨hlt, hget, hgetD, hrest⟩ := getD_of_drop hdrop
    have hend : cursor + 1 = source.length := le_antisymm hlt (List.drop_eq_nil_iff.mp hrest)
    rw [completeFrom, if_neg hne, settledEnd, ← hend, Nat.add_sub_cancel, hgetD]
    split
    next => exact hcomplete
    next hcr =>
      refine ⟨le_trans hcomplete.le (Nat.le_succ cursor), Nat.zero_le _, ?_, hcomplete.holds⟩
      refine passed_succ hcomplete.passed ?_
      rw [hgetD, ends, Bool.or_eq_false_iff, beq_eq_false_iff_ne, beq_eq_false_iff_ne]
      exact ⟨fun heq => hcr ⟨Nat.succ_pos _, heq⟩, hne⟩
  | case4 cursor complete byte next rest hboth ih =>
    obtain ⟨hlt, hget, hgetD, hrest⟩ := getD_of_drop hdrop
    obtain ⟨hlt', hget', hgetD', hrest'⟩ := getD_of_drop hrest
    obtain ⟨rfl, rfl⟩ := hboth
    rw [completeFrom, if_pos ⟨rfl, rfl⟩]
    refine ih hrest' hlt' (StopsBack.self_of_ends ?_) fun hnil => ?_
    · rw [show cursor + 2 - 1 = cursor + 1 by omega, hgetD']
      decide
    · have hend : cursor + 2 = source.length :=
        le_antisymm hlt' (List.drop_eq_nil_iff.mp (hrest'.trans hnil))
      rw [settledEnd, ← hend, show cursor + 2 - 1 = cursor + 1 by omega, hgetD', if_neg]
      rintro ⟨-, heq⟩
      exact absurd heq (by decide)
  | case5 cursor complete byte next rest hboth hends ih =>
    obtain ⟨hlt, hget, hgetD, hrest⟩ := getD_of_drop hdrop
    rw [completeFrom, if_neg hboth, if_pos hends]
    refine ih hrest hlt (StopsBack.self_of_ends ?_) fun hnil => ?_
    · rw [Nat.add_sub_cancel, hgetD]
      exact hends
    · cases hnil
  | case6 cursor complete byte next rest hboth hends ih =>
    obtain ⟨hlt, hget, hgetD, hrest⟩ := getD_of_drop hdrop
    rw [completeFrom, if_neg hboth, if_neg hends]
    refine ih hrest hlt ?_ fun hnil => ?_
    · refine ⟨le_trans hcomplete.le (Nat.le_succ cursor), Nat.zero_le _, ?_, hcomplete.holds⟩
      exact passed_succ hcomplete.passed (hgetD ▸ Bool.eq_false_iff.mpr hends)
    · cases hnil

lemma complete_stops (source : List UInt8) :
    StopsBack source 0 (settledEnd source) (completeFrom 0 0 source) := by
  refine completeFrom_stops rfl (Nat.zero_le _) ?_ ?_
  · exact ⟨le_refl _, le_refl _, fun x _ hlt => absurd hlt (Nat.not_lt_zero x),
      fun hlt => absurd hlt (lt_irrefl _)⟩
  · rintro rfl
    rfl

lemma getD_append {more : List UInt8} (h : cursor < source.length) :
    (source ++ more).getD cursor 0 = source.getD cursor 0 := by
  rw [List.getD_eq_getElem?_getD, List.getD_eq_getElem?_getD, List.getElem?_append_left h]

lemma settledEnd_le (source : List UInt8) : settledEnd source ≤ source.length := by
  rw [settledEnd]
  split <;> omega

/-- The search goes back no further than the bytes that are new, and the last that was not. -/
theorem completeEnd_eq (source more : List UInt8) :
    completeEnd order (source ++ more) source.length (completeFrom 0 0 source) =
      completeFrom 0 0 (source ++ more) := by
  have hold := complete_stops source
  refine StopsBack.unique ?_ (complete_stops (source ++ more))
  have hlength : (source ++ more).length = source.length + more.length := List.length_append
  rw [completeEnd]
  dsimp only
  split
  next hlf =>
    -- the text ends with a line feed
    have hsettled : settledEnd (source ++ more) = (source ++ more).length := by
      rw [settledEnd, if_neg]
      rintro ⟨-, hcr⟩
      rw [hlf.2] at hcr
      exact absurd hcr (by decide)
    rw [hsettled]
    refine StopsBack.self_of_ends ?_
    rw [hlf.2]
    decide
  next hlf =>
    have hstop : (if source.length - 1 < (source ++ more).length ∧
        (source ++ more).getD ((source ++ more).length - 1) 0 = carriageReturn then
          (source ++ more).length - 1 else (source ++ more).length) =
        settledEnd (source ++ more) := by
      rw [settledEnd]
      by_cases hpos : 0 < (source ++ more).length
      · have hfloor : source.length - 1 < (source ++ more).length := by omega
        simp only [hpos, hfloor, true_and]
      · rw [if_neg fun h => hpos (Nat.zero_lt_of_lt h.1), if_neg fun h => hpos h.1]
    rw [hstop]
    have hle := settledEnd_le (source ++ more)
    have hfloor : source.length - 1 ≤ settledEnd (source ++ more) := by
      rw [settledEnd]
      split <;> omega
    have hback := @backWords_stops (source ++ more) _ _ order hle hfloor
      (settledEnd (source ++ more))
    generalize backBytes (source ++ more) (source.length - 1) (backWords order (source ++ more)
      (source.length - 1) (settledEnd (source ++ more)) (settledEnd (source ++ more))) = back
      at hback ⊢
    split
    next hlt =>
      exact ⟨hback.le, Nat.zero_le _, hback.passed, fun _ => hback.holds hlt⟩
    next hge =>
      -- nothing new ends a line: the last that was complete is
      have hbackEq : back = source.length - 1 :=
        le_antisymm (Nat.le_of_not_lt hge) hback.floor_le
      have holdLe := le_trans hold.le (settledEnd_le source)
      have hsettled : source.length - 1 ≤ settledEnd source := by
        rw [settledEnd]
        split <;> omega
      have hgrows : settledEnd source ≤ settledEnd (source ++ more) := by
        cases more with
        | nil => rw [List.append_nil]
        | cons byte more =>
          have := settledEnd_le source
          rw [List.length_cons] at hlength
          rw [settledEnd.eq_def (source ++ byte :: more)]
          split <;> omega
      refine ⟨le_trans hold.le hgrows, Nat.zero_le _, fun x hx hlt => ?_, fun hpos => ?_⟩
      · by_cases hx' : x < source.length - 1
        · rw [getD_append (by omega)]
          exact hold.passed x hx (lt_of_lt_of_le hx' hsettled)
        · exact hback.passed x (by omega) hlt
      · rw [getD_append (by omega)]
        exact hold.holds hpos

/-! ### Growing -/

lemma Scans.tail {row : List Line} {line : Line} (h : Scans source s (line :: row) t) :
    Scans source (scanLine source s).2 row t := by
  cases h with
  | line _ hrest => exact hrest

/-- The last line of a scan. -/
lemma Scans.of_concat {init : List Line} {line : Line} (h : Scans source s (init ++ [line]) t) :
    ∃ u, Scans source s init u ∧ u < source.length ∧ line = (scanLine source u).1 ∧
      t = (scanLine source u).2 := by
  have hget : (init ++ [line])[init.length]? = some line := by simp
  obtain ⟨hinit, hlt, hlast, hline⟩ := h.at_index hget
  rw [List.take_left] at hinit
  rw [List.drop_left] at hlast
  exact ⟨line.start, hinit, hlt, hline, hlast.tail.eq_of_nil.symm⟩

/-- The lines before the last stay as they are when more text comes. -/
lemma Scans.append {row : List Line} (h : Scans source s row t) (ht : t < source.length)
    (more : List UInt8) :
    Scans (source ++ more) s row t ∧ row.map (fun line => countedLine (source ++ more) line.start) =
      row.map fun line => countedLine source line.start := by
  have happend : Scans (source ++ more) s row t := by
    have h' : Scans (source ++ []) s row t := (List.append_nil source).symm ▸ h
    exact h'.of_append ht more
  refine ⟨happend, List.map_congr_left fun line hline => ?_⟩
  obtain ⟨index, hindex⟩ := List.mem_iff_getElem?.mp hline
  obtain ⟨-, hlt, -, hold⟩ := h.at_index hindex
  obtain ⟨-, -, -, hnew⟩ := happend.at_index hindex
  have hstop : spanEnd (source ++ more) line.start = spanEnd source line.start := by
    rw [hnew] at hold
    exact congrArg Line.stop hold
  have hle := (@spanEnd_stops source line.start (le_of_lt hlt)).le_length
  rw [countedLine, countedLine, hstop, nulsIn_append hle]

/-- A line that ends with a line feed, or with the text where no more comes, is scanned. -/
lemma scanLine_append {u : ℕ} (hu : u < source.length) {more : List UInt8}
    (h : ¬ ((scanLine source u).2 < (source ++ more).length ∧
      (source ++ more).getD ((scanLine source u).2 - 1) 0 ≠ lineFeed)) :
    scanLine (source ++ more) u = scanLine source u ∧
      countedLine (source ++ more) u = countedLine source u := by
  have hspan := @spanEnd_stops source u (le_of_lt hu)
  have hnext : (scanLine source u).2 = pastEnding source (spanEnd source u) := rfl
  have hle := le_pastEnding source (spanEnd source u)
  have hle' := pastEnding_le hspan.le_length
  -- the line's end and its terminator are as they were
  have hsame : spanEnd (source ++ more) u = spanEnd source u ∧
      pastEnding (source ++ more) (spanEnd source u) = pastEnding source (spanEnd source u) := by
    by_cases hlast : (scanLine source u).2 < (source ++ more).length
    · have hlf : (source ++ more).getD ((scanLine source u).2 - 1) 0 = lineFeed := by
        by_contra hne
        exact h ⟨hlast, hne⟩
      have hpos : 0 < lineLength (source.drop u) := lineLength_drop_pos hu
      have heq := congrArg Prod.snd (scanLine_eq source u)
      dsimp only at heq
      rw [getD_append (by omega)] at hlf
      have hends : spanEnd source u < source.length := by
        refine lt_of_le_of_ne hspan.le_length fun hend => ?_
        rw [hend, pastEnding_length] at hnext
        have hpassed := hspan.passed ((scanLine source u).2 - 1) (by omega) (by omega)
        rw [hlf] at hpassed
        exact absurd hpassed (by decide)
      have hholds := hspan.holds hends
      have hbyte := List.getElem?_eq_getElem hends
      have hgetD : source.getD (spanEnd source u) 0 = source[spanEnd source u] := by
        rw [List.getD_eq_getElem?_getD, hbyte]
        rfl
      rw [hgetD] at hholds
      have hbyte' : (source ++ more)[spanEnd source u]? = some source[spanEnd source u] := by
        rw [List.getElem?_append_left hends, hbyte]
      have hold := pastEnding_eq hbyte hholds
      have hnew := pastEnding_eq hbyte' hholds
      constructor
      · have happend : (source ++ more).length = source.length + more.length :=
          List.length_append
        refine (spanEnd_stops (by omega)).unique ⟨hspan.le, by omega, fun x hx hlt => ?_,
          fun _ => ?_⟩
        · rw [getD_append (by omega)]
          exact hspan.passed x hx hlt
        · rw [getD_append hends, hgetD]
          exact hholds
      · rw [hnew, hold]
        by_cases hcr : source[spanEnd source u] = carriageReturn ∧
            source[spanEnd source u + 1]? = some lineFeed
        · obtain ⟨hlt, -⟩ := List.getElem?_eq_some_iff.mp hcr.2
          rw [if_pos hcr, if_pos ⟨hcr.1, (List.getElem?_append_left hlt).trans hcr.2⟩]
        · rw [if_neg hcr, if_neg]
          rintro ⟨hcr', -⟩
          -- a carriage return alone is not a line feed
          rw [hnext, hold, if_neg hcr, Nat.add_sub_cancel, hgetD, hcr'] at hlf
          exact absurd hlf (by decide)
    · have hmore : more = [] := by
        rw [List.length_append] at hlast
        exact List.length_eq_zero_iff.mp (by omega)
      rw [hmore, List.append_nil]
      exact ⟨rfl, rfl⟩
  constructor
  · rw [scanLine, scanLine, hsame.1, hsame.2]
  · rw [countedLine, countedLine, hsame.1, nulsIn_append hspan.le_length]

/-- The lines are those the scan of the text makes up to where it is, and the complete end is
that of the text. -/
structure Grown (input : GrowingInput) : Prop where
  scans : ∃ row, Scans input.source 0 row input.scanned ∧
    input.lines = row.map fun line => countedLine input.source line.start
  complete : input.complete = completeFrom 0 0 input.source

variable {input : GrowingInput}

namespace Grown

lemma scanned_le (h : Grown input) : input.scanned ≤ input.source.length := by
  obtain ⟨row, hscans, -⟩ := h.scans
  exact hscans.le_length (Nat.zero_le _)

lemma extend (h : Grown input) (index fuel : ℕ) :
    Grown (input.extend order index fuel) ∧
      (input.extend order index fuel).source = input.source := by
  induction fuel generalizing input with
  | zero => exact ⟨h, rfl⟩
  | succ fuel ih =>
    rw [GrowingInput.extend]
    split
    next hgo =>
      obtain ⟨row, hscans, hlines⟩ := h.scans
      rw [scanFrom_start h.scanned_le]
      refine ih ⟨⟨_, hscans.trans (Scans.single hgo.2), ?_⟩, h.complete⟩
      rw [hlines, List.map_append]
      rfl
    next => exact ⟨h, rfl⟩

/-- As many turns as the text has bytes bring the line or the text's end. -/
lemma extend_done (h : Grown input) {index fuel : ℕ}
    (hfuel : input.source.length - input.scanned ≤ fuel) :
    index < (input.extend order index fuel).lines.length ∨
      (input.extend order index fuel).scanned = input.source.length := by
  induction fuel generalizing input with
  | zero =>
    have hle := h.scanned_le
    exact Or.inr (show input.scanned = _ by omega)
  | succ fuel ih =>
    rw [GrowingInput.extend]
    split
    next hgo =>
      obtain ⟨row, hscans, hlines⟩ := h.scans
      have hpos := lineLength_drop_pos hgo.2
      have heq := congrArg Prod.snd (scanLine_eq input.source input.scanned)
      rw [scanFrom_start h.scanned_le]
      refine ih ⟨⟨_, hscans.trans (Scans.single hgo.2), ?_⟩, h.complete⟩ ?_
      · rw [hlines, List.map_append]
        rfl
      · dsimp only at heq ⊢
        omega
    next hstop =>
      have hle := h.scanned_le
      by_cases hindex : input.lines.length ≤ index
      · exact Or.inr (le_antisymm hle (Nat.le_of_not_lt fun hlt => hstop ⟨hindex, hlt⟩))
      · exact Or.inl (Nat.lt_of_not_le hindex)

lemma grow (h : Grown input) (more : List UInt8) : Grown (input.grow order more) := by
  obtain ⟨row, hscans, hlines⟩ := h.scans
  have hcomplete : completeEnd order (input.source ++ more) input.source.length input.complete =
      completeFrom 0 0 (input.source ++ more) := by
    rw [h.complete]
    exact completeEnd_eq _ _
  rcases List.eq_nil_or_concat row with rfl | ⟨init, line, rfl⟩
  · have hnil : input.lines = [] := hlines
    rw [GrowingInput.grow, if_neg fun hgo => hgo.1 hnil]
    refine ⟨⟨[], ?_, hnil⟩, hcomplete⟩
    rw [← hscans.eq_of_nil]
    exact Scans.here 0
  · rw [List.concat_eq_append] at hscans hlines
    obtain ⟨u, hinit, hu, rfl, hscanned⟩ := hscans.of_concat
    obtain ⟨hinit', hsame⟩ := hinit.append hu more
    have hu' : u < (input.source ++ more).length := by
      rw [List.length_append]
      omega
    rw [List.map_append, ← hsame] at hlines
    have hlines : input.lines = init.map (fun line => countedLine (input.source ++ more) line.start) ++
      [countedLine input.source u] := hlines
    rw [GrowingInput.grow]
    split
    next =>
      have hspan := @spanEnd_stops input.source u (le_of_lt hu)
      have hscan : scanFrom order (input.source ++ more) (countedLine input.source u)
          (countedLine input.source u).stop =
          (countedLine (input.source ++ more) u, (scanLine (input.source ++ more) u).2) := by
        refine scanFrom_eq hspan.le ?_ rfl (nulsIn_append hspan.le_length).symm fun x hx hlt => ?_
        · rw [List.length_append]
          exact le_trans hspan.le_length (Nat.le_add_right _ _)
        · rw [getD_append (lt_of_lt_of_le hlt hspan.le_length)]
          exact hspan.passed x hx hlt
      have hlast : input.lines.getLast? = some (countedLine input.source u) := by
        rw [hlines]
        simp
      have hdrop : input.lines.dropLast =
          init.map fun line => countedLine (input.source ++ more) line.start := by
        rw [hlines]
        simp
      rw [GrowingInput.scanLastLine]
      simp only [hlast, hscan, hdrop]
      refine ⟨⟨_, hinit'.trans (Scans.single hu'), ?_⟩, hcomplete⟩
      rw [List.map_append]
      rfl
    next hstop =>
      have hne : input.lines ≠ [] := by
        rw [hlines]
        simp
      rw [hscanned] at hstop
      obtain ⟨hscan, hcounted⟩ := scanLine_append hu (not_and.mp hstop hne)
      have hsingle := hinit'.trans (Scans.single hu')
      refine ⟨⟨init ++ [(scanLine (input.source ++ more) u).1], ?_, ?_⟩, hcomplete⟩
      · dsimp only
        rw [hscanned, ← hscan]
        exact hsingle
      · dsimp only
        rw [hlines, List.map_append, ← hcounted]
        rfl

end Grown

/-- The inputs of a text that comes piece by piece, its lines scanned in between as far as readings
ask. -/
inductive Grows (order : ByteOrder) : GrowingInput → Prop
  | start : Grows order ⟨[], [], 0, 0⟩
  | grow {input : GrowingInput} (h : Grows order input) (more : List UInt8) :
      Grows order (input.grow order more)
  | extend {input : GrowingInput} (h : Grows order input) (index : ℕ) :
      Grows order (input.extend order index input.source.length)

lemma Grows.grown (h : Grows order input) : Grown input := by
  induction h with
  | start => exact ⟨⟨[], Scans.here 0, rfl⟩, rfl⟩
  | grow _ more ih => exact ih.grow more
  | extend _ index ih => exact (ih.extend index _).1

/-- However a text arrived, its lines are the first of those it splits into byte by byte, and all
when it is scanned; they lie one after another up to where the scan is; a line that is asked is
found, or the text has none; and its complete lines end where they do byte by byte. The scans that
compare words stop where those that step bytewise do. -/
theorem lines_of_growth (order : ByteOrder) :
    (∀ input, Grows order input →
      input.lines <+: splitLines input.source ∧
      (input.scanned = input.source.length → input.lines = splitLines input.source) ∧
      Tiles input.source 0 input.lines input.scanned ∧
      (∀ index, (input.extend order index input.source.length).lines[index]? =
        (splitLines input.source)[index]?) ∧
      input.complete = completeFrom 0 0 input.source) ∧
    (∀ source cursor, cursor ≤ source.length →
      sourceSpanEnd order source cursor = spanBytes source (source.length - cursor) cursor) ∧
    ∀ source floor stop fuel, stop ≤ source.length → floor ≤ stop →
      backBytes source floor (backWords order source floor fuel stop) =
        backBytes source floor stop := by
  have hstarts : ∀ input, Grown input → input.lines <+: splitLines input.source ∧
      (input.scanned = input.source.length → input.lines = splitLines input.source) := by
    intro input h
    obtain ⟨row, hscans, hlines⟩ := h.scans
    rw [splitLines_eq, hscans.lines_eq, hlines, List.map_append]
    refine ⟨List.prefix_append _ _, fun hend => ?_⟩
    rw [lines_nil (le_of_eq hend.symm), List.map_nil, List.append_nil]
  refine ⟨fun input hgrows => ?_, fun source cursor h => sourceSpanEnd_eq h,
    fun source floor stop fuel h hfloor => backWords_eq h hfloor fuel⟩
  have h := hgrows.grown
  refine ⟨(hstarts input h).1, (hstarts input h).2, ?_, fun index => ?_, h.complete⟩
  · obtain ⟨row, hscans, hlines⟩ := h.scans
    rw [hlines]
    exact hscans.tiles
  · obtain ⟨hextended, hsource⟩ := @Grown.extend order input h index input.source.length
    obtain ⟨hbegins, hall⟩ := hstarts _ hextended
    rw [hsource] at hbegins hall
    rcases @Grown.extend_done order input h index input.source.length (Nat.sub_le _ _) with
      hlt | hend
    · obtain ⟨rest, hrest⟩ := hbegins
      rw [← hrest, List.getElem?_append_left hlt]
    · rw [hall hend]

theorem lines_of_growth_sample :
    (((((⟨[], [], 0, 0⟩ : GrowingInput).grow .little [0x61, 0, 0x0d]).extend .little 0 3).grow
      .little [0x0a, 0x62]).extend .little 0 5).lines[0]? = some ⟨0, 2, 1⟩ := by
  have h := ((Grows.start : Grows .little _).grow [0x61, 0, 0x0d]).extend 0
  have hline := ((lines_of_growth .little).1 _ (h.grow [0x0a, 0x62])).2.2.2.1 0
  exact hline.trans (by decide)

end MarkdownCore.Text
