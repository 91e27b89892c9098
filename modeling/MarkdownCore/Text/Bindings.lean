import MarkdownCore.Text.Scope

/-!
# Source lines in the bindings

`es-markdown-core/src/common/source-lines.ts`: a binding counts lines and columns on its own, over
the bytes of a source, with loops that stop elsewhere than the engine's. It answers as the engine
does (`binding_agrees`).
-/

namespace MarkdownCore.Text.Binding

/-- The class `SourceLines`. -/
structure SourceLines where
  bytes : List UInt8
  starts : List ℕ

/-- What the constructor's loop pushes at one index. -/
def push (bytes : List UInt8) (starts : List ℕ) (index : ℕ) : List ℕ :=
  if bytes[index]? = some 0x0a ∨ (bytes[index]? = some 0x0d ∧ bytes[index + 1]? ≠ some 0x0a) then
    starts ++ [index + 1]
  else starts

/-- The constructor. -/
def new (bytes : List UInt8) : SourceLines :=
  ⟨bytes, (List.range bytes.length).foldl (push bytes) [0]⟩

/-- The loop of `lineOf`. -/
def between (starts : List ℕ) (offset : ℕ) : ℕ → ℕ → ℕ → ℕ
  | 0, lower, _ => lower
  | fuel + 1, lower, upper =>
    if 1 < upper - lower then
      let middle := lower + (upper - lower) / 2
      if starts.getD middle 0 ≤ offset then between starts offset fuel middle upper
      else between starts offset fuel lower middle
    else lower

/-- The loop of `columns`, over so many bytes. -/
def unitsFrom (bytes : List UInt8) : ℕ → ℕ → ℕ → ℕ
  | 0, _, units => units
  | count + 1, index, units =>
    unitsFrom bytes count (index + 1) (units + ((bytes[index]?).map width).getD 1)

/-- Past the bytes that go on a scalar. -/
def past (bytes : List UInt8) (stop : ℕ) : ℕ → ℕ → ℕ
  | 0, next => next
  | fuel + 1, next =>
    if next < stop ∧ (bytes[next]?).any continues then past bytes stop fuel (next + 1) else next

namespace SourceLines

variable (lines : SourceLines)

def lineOf (offset : ℕ) : ℕ :=
  between lines.starts offset lines.starts.length 0 lines.starts.length

def columns (start stop : ℕ) : TextUnit → ℕ
  | .utf8 => stop - start
  | .utf16 => unitsFrom lines.bytes (stop - start) start 0

def scope (start stop : ℕ) (unit : TextUnit) : Scope :=
  let first := lines.lineOf start
  let last := lines.lineOf stop
  { start := ⟨first + 1, lines.columns (lines.starts.getD first 0) start unit + 1⟩
    stop := ⟨last + 1, lines.columns (lines.starts.getD last 0) stop unit⟩ }

/-- The loop of `offset`, which gives up where the line ends before the column. -/
def stepOver (unit : TextUnit) (column stop : ℕ) : ℕ → ℕ → ℕ → Option (ℕ × ℕ)
  | 0, _, _ => none
  | fuel + 1, at', offset =>
    if at' < column then
      if stop ≤ offset then none
      else
        let next := past lines.bytes stop (stop - offset) (offset + 1)
        stepOver unit column stop fuel (at' + lines.columns offset next unit) next
    else some (at', offset)

def offset (position : Cursor) (unit : TextUnit) : Option ℕ :=
  if lines.starts.length < position.line then none
  else
    let start := lines.starts.getD (position.line - 1) 0
    let stop :=
      if position.line < lines.starts.length then lines.starts.getD position.line 0
      else lines.bytes.length
    (lines.stepOver unit position.column stop (stop - start + 1) 1 start).bind fun walk =>
      if walk.1 = position.column ∧ walk.2 < stop then some walk.2 else none

end SourceLines

/-! ### The loops -/

variable {bytes : List UInt8}

lemma foldl_push (indexes starts : List ℕ) :
    indexes.foldl (push bytes) starts =
      starts ++ (indexes.filter (startsAfter bytes)).map (· + 1) := by
  induction indexes generalizing starts with
  | nil => simp
  | cons index indexes ih =>
    have hstarts : startsAfter bytes index = true ↔ bytes[index]? = some 0x0a ∨
        (bytes[index]? = some 0x0d ∧ bytes[index + 1]? ≠ some 0x0a) := by
      simp [startsAfter, lineFeed, carriageReturn]
    rw [List.foldl_cons, ih, push, List.filter_cons]
    by_cases h : startsAfter bytes index = true
    · simp [h, hstarts.mp h]
    · rw [if_neg (hstarts.not.mp h), if_neg h]

lemma starts_new (bytes : List UInt8) : (new bytes).starts = (sourceLinesRead bytes).starts :=
  foldl_push (List.range bytes.length) [0]

/-- The engine's search bounds the lines by the last. -/
lemma between_eq (starts : List ℕ) (offset fuel lower upper : ℕ) :
    between starts offset fuel lower upper =
      Bisect.last (fun k => starts.getD k 0 ≤ offset) fuel lower (upper - 1) := by
  induction fuel generalizing lower upper with
  | zero => rfl
  | succ fuel ih =>
    rw [between, Bisect.last]
    by_cases h : 1 < upper - lower
    · have hmiddle : upper - 1 - lower + 1 = upper - lower := by omega
      have hlower : lower < upper - 1 := by omega
      simp only [if_pos h, if_pos hlower, ih, hmiddle, decide_eq_true_eq]
    · have hlower : ¬lower < upper - 1 := by omega
      simp only [if_neg h, if_neg hlower]

lemma unitsFrom_eq {count index : ℕ} (units : ℕ) (h : index + count ≤ bytes.length) :
    unitsFrom bytes count index units =
      units + (((bytes.drop index).take count).map width).sum := by
  induction count generalizing index units with
  | zero => simp [unitsFrom]
  | succ count ih =>
    have hlt : index < bytes.length := by omega
    rw [unitsFrom, ih _ (by omega), List.drop_eq_getElem_cons hlt, List.take_succ_cons,
      List.map_cons, List.sum_cons, List.getElem?_eq_getElem hlt, Option.map_some,
      Option.getD_some, Nat.add_assoc]

lemma columns_new {start stop : ℕ} (hstop : stop ≤ bytes.length) (unit : TextUnit) :
    (new bytes).columns start stop unit = Text.columns bytes start stop unit := by
  cases unit with
  | utf8 => rfl
  | utf16 =>
    rcases Nat.le_total start stop with hle | hle
    · have hcount : start + (stop - start) ≤ bytes.length := by omega
      exact (unitsFrom_eq 0 hcount).trans (Nat.zero_add _)
    · rw [SourceLines.columns, Text.columns, Nat.sub_eq_zero_of_le hle]
      rfl

lemma past_eq {stop fuel next : ℕ} (hstop : stop ≤ bytes.length) (hfuel : stop - next ≤ fuel) :
    past bytes stop fuel next =
      next + (((bytes.drop next).take (stop - next)).takeWhile continues).length := by
  induction fuel generalizing next with
  | zero =>
    rw [Nat.le_zero.mp hfuel]
    rfl
  | succ fuel ih =>
    rw [past]
    by_cases hlt : next < stop
    · have hin : next < bytes.length := lt_of_lt_of_le hlt hstop
      rw [show stop - next = stop - (next + 1) + 1 by omega, List.drop_eq_getElem_cons hin,
        List.take_succ_cons, List.takeWhile_cons, List.getElem?_eq_getElem hin, Option.any_some]
      cases hgoes : continues bytes[next] with
      | true =>
        rw [if_pos ⟨hlt, rfl⟩, ih (by omega)]
        simp
        omega
      | false =>
        rw [if_neg (fun h => Bool.false_ne_true h.2)]
        rfl
    · rw [if_neg fun h => hlt h.1, Nat.sub_eq_zero_of_le (Nat.le_of_not_lt hlt)]
      rfl

lemma next_le {at' stop : ℕ} (h : at' < stop) : next bytes at' stop ≤ stop := by
  have hlength := (List.takeWhile_prefix (p := continues)
    (l := (bytes.drop (at' + 1)).take (stop - (at' + 1)))).length_le
  rw [List.length_take] at hlength
  rw [next]
  omega

/-- The engine's walk ends where the binding's does, short of the column where that gives up. -/
lemma stepOver_eq {unit : TextUnit} {column stop fuel at' offset : ℕ}
    (hstop : stop ≤ bytes.length) (hfuel : stop - offset ≤ fuel) :
    (new bytes).stepOver unit column stop (fuel + 1) at' offset =
      if (walkColumn bytes unit column stop fuel at' offset).1 < column then none
      else some (walkColumn bytes unit column stop fuel at' offset) := by
  induction fuel generalizing at' offset with
  | zero =>
    rw [SourceLines.stepOver, walkColumn, if_pos (show stop ≤ offset by omega)]
  | succ fuel ih =>
    rw [SourceLines.stepOver, walkColumn]
    by_cases hcolumn : at' < column
    · by_cases hle : stop ≤ offset
      · have hstay : ¬(at' < column ∧ offset < stop) := fun h => Nat.not_lt.mpr hle h.2
        rw [if_pos hcolumn, if_pos hle, if_neg hstay, if_pos hcolumn]
      · have hlt : offset < stop := Nat.lt_of_not_le hle
        have hpast : past bytes stop (stop - offset) (offset + 1) = next bytes offset stop :=
          past_eq hstop (by omega)
        have hnext : next bytes offset stop ≤ stop := next_le hlt
        have hgoes : offset < next bytes offset stop := by
          rw [next]
          omega
        have hcols : (new bytes).columns offset (next bytes offset stop) unit =
            Text.columns bytes offset (next bytes offset stop) unit :=
          columns_new (hnext.trans hstop) unit
        have hgo : at' < column ∧ offset < stop := ⟨hcolumn, hlt⟩
        rw [if_pos hcolumn, if_neg hle, if_pos hgo]
        dsimp only
        rw [show (new bytes).bytes = bytes from rfl, hpast, hcols, ih (by omega)]
    · have hstay : ¬(at' < column ∧ offset < stop) := fun h => hcolumn h.1
      rw [if_neg hcolumn, if_neg hstay, if_neg hcolumn]

/-- Over one line, the two walks name the same byte. -/
lemma walk_line {stop : ℕ} (hstop : stop ≤ bytes.length) (start column : ℕ) (unit : TextUnit) :
    ((new bytes).stepOver unit column stop (stop - start + 1) 1 start).bind (fun walk =>
      if walk.1 = column ∧ walk.2 < stop then some walk.2 else none) =
      columnOffset bytes start stop column unit false := by
  rw [stepOver_eq hstop (le_refl _), columnOffset]
  simp only [Bool.false_eq_true, if_false]
  generalize walkColumn bytes unit column stop (stop - start) 1 start = walk
  by_cases hshort : walk.1 < column
  · have hnot : ¬(walk.1 = column ∧ walk.2 < stop) := fun h => Nat.ne_of_lt hshort h.1
    rw [if_pos hshort]
    exact (if_neg hnot).symm
  · rw [if_neg hshort]
    rfl

lemma starts_le {line : ℕ} (h : line < (sourceLinesRead bytes).starts.length) :
    (sourceLinesRead bytes).starts.getD line 0 ≤ bytes.length := by
  have hmem := List.getElem_mem h
  rw [List.getD_eq_getElem?_getD, List.getElem?_eq_getElem h, Option.getD_some]
  rcases List.mem_cons.mp hmem with heq | hin
  · rw [heq]
    exact Nat.zero_le _
  · obtain ⟨i, hi, heq⟩ := List.mem_map.mp hin
    rw [← heq]
    exact List.mem_range.mp (List.mem_filter.mp hi).1

/-- A binding's table of a source's lines is the engine's, and so is every scope that it reads off
its ranges and every byte that its positions name. -/
theorem binding_agrees (bytes : List UInt8) (unit : TextUnit) :
    (new bytes).starts = (sourceLinesRead bytes).starts ∧
      (∀ start stop, start ≤ bytes.length → stop ≤ bytes.length →
        (new bytes).scope start stop unit =
          sourceScope (sourceLinesRead bytes) bytes start stop unit) ∧
      ∀ position : Cursor, 1 ≤ position.line → (new bytes).offset position unit =
        positionOffset (sourceLinesRead bytes) bytes position unit false := by
  have hstarts := starts_new bytes
  have hline : ∀ offset,
      (new bytes).lineOf offset = sourceLineOf (sourceLinesRead bytes) offset := by
    intro offset
    rw [SourceLines.lineOf, hstarts, between_eq, sourceLineOf]
  refine ⟨hstarts, fun start stop hstart hstop => ?_, fun position hposition => ?_⟩
  · rw [SourceLines.scope, sourceScope, hline, hline, hstarts, columns_new hstart,
      columns_new hstop]
    simp [sourceLinesRead]
  · obtain ⟨line, hline⟩ : ∃ line, position.line = line + 1 := ⟨position.line - 1, by omega⟩
    have hbase : (sourceLinesRead bytes).base = 0 := rfl
    rw [SourceLines.offset, positionOffset, hstarts, hline, hbase]
    by_cases hlast : (sourceLinesRead bytes).starts.length < line + 1
    · rw [if_pos hlast, if_pos (by omega)]
    · have hin : ¬(line + 1 = 0 ∨ line + 1 - 1 < 0 ∨
          (sourceLinesRead bytes).starts.length ≤ line + 1 - 1 - 0) := by omega
      rw [if_neg hlast, if_neg hin]
      simp only [Nat.add_sub_cancel, Nat.sub_zero]
      apply walk_line
      split
      next hnext => exact starts_le hnext
      next => exact le_refl _

/-- A line that ends in both terminators, and a scalar of two units. -/
def smile : List UInt8 := [0x61, 0x0d, 0x0a, 0xf0, 0x9f, 0x98, 0x80]

theorem binding_agrees_smile :
    (new smile).scope 3 7 .utf16 = sourceScope (sourceLinesRead smile) smile 3 7 .utf16 ∧
      (new smile).offset ⟨2, 2⟩ .utf16 =
        positionOffset (sourceLinesRead smile) smile ⟨2, 2⟩ .utf16 false :=
  ⟨(binding_agrees smile .utf16).2.1 3 7 (by decide) (by decide),
    (binding_agrees smile .utf16).2.2 ⟨2, 2⟩ (by decide)⟩

end MarkdownCore.Text.Binding
