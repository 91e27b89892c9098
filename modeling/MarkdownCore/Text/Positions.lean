import MarkdownCore.Text.CharLines

/-!
# Positions

The server turns a protocol position into a byte offset and a cursor, a line and a column of the
session; the session turns a cursor back into a byte offset. Each walks the scalars of one line on
its own. `place` says which character a protocol position denotes, and the two walks agree on it
(`Input.Whole.locate_spec`).
-/

namespace MarkdownCore.Text

/-- `markdown_core_lsp_position`: a line and a character offset, counted from 0. -/
structure Position where
  line : ℕ
  character : ℕ
  deriving DecidableEq, Repr

/-- `markdown_core_position`: a line and a column, counted from 1. -/
structure Cursor where
  line : ℕ
  column : ℕ
  deriving DecidableEq, Repr

/-- Whether `a` stands after `b`. -/
def after (a b : Position) : Bool :=
  if a.line ≠ b.line then decide (b.line < a.line) else decide (b.character < a.character)

/-! ### The session's walk -/

/-- The end of a line before the terminators it ends with. -/
def trim (source : List UInt8) (start : ℕ) : ℕ → ℕ
  | 0 => 0
  | stop + 1 =>
    if start < stop + 1 ∧ (source[stop]?).any ends then trim source start stop else stop + 1

/-- Step over whole scalars up to a column or the line's end. -/
def walkColumn (source : List UInt8) (unit : TextUnit) (column stop : ℕ) : ℕ → ℕ → ℕ → ℕ × ℕ
  | 0, walked, at' => (walked, at')
  | fuel + 1, walked, at' =>
    if walked < column ∧ at' < stop then
      let next := next source at' stop
      walkColumn source unit column stop fuel (walked + columns source at' next unit) next
    else (walked, at')

/-- `markdown_core_column_offset`: the byte a column of a line names, or a cursor there stands
before. -/
def columnOffset (source : List UInt8) (start stop column : ℕ) (unit : TextUnit)
    (cursor : Bool) : Option ℕ :=
  let stop := if cursor then trim source start stop else stop
  let walk := walkColumn source unit column stop (stop - start) 1 start
  if walk.1 = column ∧ (if cursor then walk.2 ≤ stop else walk.2 < stop) then some walk.2 else none

namespace Input

/-- `session_offset`. -/
def offset (input : Input) (unit : TextUnit) (position : Cursor) : Option ℕ :=
  if 1 ≤ position.line ∧ 1 ≤ position.column then
    (input.lineSpan (position.line - 1)).bind fun span =>
      columnOffset input.source span.1 span.2 position.column unit true
  else none

/-- The end of a line before a byte it ends with. -/
def strip (source : List UInt8) (byte : UInt8) (start stop : ℕ) : ℕ :=
  if start < stop ∧ source[stop - 1]? = some byte then stop - 1 else stop

/-- `markdown_core_session_line`: where a line counted from 1 starts, and where it ends before its
terminator. -/
def line (input : Input) (line : ℕ) : Option (ℕ × ℕ) :=
  if line = 0 then none
  else (input.lineSpan (line - 1)).map fun span =>
    (span.1, strip input.source carriageReturn span.1
      (strip input.source lineFeed span.1 span.2))

/-! ### The server's walk -/

/-- Step over whole scalars of a line, and stop before one the character offset lands inside or
at the line's end. -/
def stepTo (bytes : List UInt8) (unit : TextUnit) (character : ℕ) : ℕ → ℕ → ℕ → ℕ × ℕ
  | 0, units, at' => (units, at')
  | fuel + 1, units, at' =>
    if at' < bytes.length ∧ units < character then
      let next := next bytes at' bytes.length
      let width := columns bytes at' next unit
      if character < units + width then (units, at')
      else stepTo bytes unit character fuel (units + width) next
    else (units, at')

/-- `lsp_text_locate`: the byte a protocol position stands before, and its cursor. -/
def locate (input : Input) (unit : TextUnit) (position : Position) : ℕ × Cursor :=
  let lines := input.lineCount
  let past := decide (lines ≤ position.line)
  let line := if past then lines - 1 else position.line
  let text := (input.line (line + 1)).getD (0, 0)
  let bytes := (input.source.drop text.1).take (text.2 - text.1)
  if past then
    (input.source.length, ⟨line + 1, columns bytes 0 bytes.length unit + 1⟩)
  else
    let walk := stepTo bytes unit position.character bytes.length 0 0
    (text.1 + walk.2, ⟨line + 1, walk.1 + 1⟩)

end Input

/-! ### What a position denotes -/

/-- How many whole characters of a row fit in a number of units. -/
def fits (unit : TextUnit) : ℕ → List Char → ℕ
  | _, [] => 0
  | room, c :: text => if units c unit ≤ room then fits unit (room - units c unit) text + 1 else 0

/-- The index a position denotes: of the last character boundary of its line that lies no further
than its character offset, or the text's end past its last line. -/
def place (text : List Char) (unit : TextUnit) (position : Position) : ℕ :=
  match (lineStarts text)[position.line]? with
  | none => text.length
  | some i => i + fits unit position.character ((text.drop i).takeWhile fun c => !breaks c)

lemma fits_le (unit : TextUnit) (room : ℕ) (text : List Char) :
    fits unit room text ≤ text.length := by
  induction text generalizing room with
  | nil => exact le_refl _
  | cons c text ih =>
    rw [fits, List.length_cons]
    split
    · have := ih (room - units c unit)
      omega
    · omega

lemma fits_mono (unit : TextUnit) {room room' : ℕ} (h : room ≤ room') (text : List Char) :
    fits unit room text ≤ fits unit room' text := by
  induction text generalizing room room' with
  | nil => exact le_refl _
  | cons c text ih =>
    rw [fits, fits]
    split
    next hfits =>
      rw [if_pos (hfits.trans h)]
      exact Nat.succ_le_succ (ih (Nat.sub_le_sub_right h _))
    next => exact Nat.zero_le _

/-! ### The walks over characters -/

/-- The session's walk stops where the column is counted up. -/
lemma walkColumn_spec (unit : TextUnit) (pre post : List Char) (before after : List UInt8)
    {fuel walked column stop : ℕ} (hcolumn : column = walked + measure pre unit)
    (hstop : stop = before.length + (encode (pre ++ post)).length)
    (hfuel : (encode pre).length ≤ fuel) :
    walkColumn (before ++ encode (pre ++ post) ++ after) unit column stop fuel walked
      before.length = (column, before.length + (encode pre).length) := by
  induction pre generalizing fuel walked before with
  | nil =>
    rw [measure_nil, Nat.add_zero] at hcolumn
    subst hcolumn
    cases fuel with
    | zero => rfl
    | succ fuel =>
      rw [walkColumn, if_neg fun hand => lt_irrefl _ hand.1]
      rfl
  | cons c pre ih =>
    have hunits := units_pos c unit
    have hbytes := length_encodeChar_pos c
    rw [measure_cons] at hcolumn
    cases fuel with
    | zero =>
      rw [encode_cons, List.length_append] at hfuel
      omega
    | succ fuel =>
      have hnext := next_encode before c (pre ++ post) after
      rw [← List.cons_append, ← hstop] at hnext
      have hcols : columns (before ++ encode (c :: pre ++ post) ++ after) before.length
          (before.length + (String.utf8EncodeChar c).length) unit = units c unit := by
        have h := columns_encode before [c] (encode (pre ++ post) ++ after) unit
        simpa [List.append_assoc] using h
      rw [walkColumn, if_pos]
      dsimp only
      rw [hnext, hcols]
      · have hcount : column = walked + units c unit + measure pre unit := by omega
        have hends : stop = (before ++ String.utf8EncodeChar c).length +
            (encode (pre ++ post)).length := by
          rw [hstop, List.cons_append, encode_cons, List.length_append, List.length_append,
            Nat.add_assoc]
        have hleft : (encode pre).length ≤ fuel := by
          rw [encode_cons, List.length_append] at hfuel
          omega
        have hgo := ih (before ++ String.utf8EncodeChar c) hcount hends hleft
        rw [List.length_append] at hgo
        rw [List.cons_append, encode_cons, encode_cons, List.length_append, ← Nat.add_assoc]
        simpa [List.append_assoc] using hgo
      · rw [hstop, List.cons_append, encode_cons, List.length_append]
        omega

/-- The server's walk steps over the characters that fit. -/
lemma stepTo_spec (unit : TextUnit) (text : List Char) (before : List UInt8)
    {fuel units' character : ℕ} (hunits : units' ≤ character)
    (hfuel : (encode text).length ≤ fuel) :
    Input.stepTo (before ++ encode text) unit character fuel units' before.length =
      (units' + measure (text.take (fits unit (character - units') text)) unit,
        before.length + (encode (text.take (fits unit (character - units') text))).length) := by
  induction text generalizing fuel units' before with
  | nil =>
    have hend : (before ++ encode []).length = before.length := by simp
    cases fuel with
    | zero => rfl
    | succ fuel =>
      rw [Input.stepTo, if_neg]
      · rfl
      · rw [hend]
        exact fun hand => lt_irrefl _ hand.1
  | cons c text ih =>
    have hpos := units_pos c unit
    have hbytes := length_encodeChar_pos c
    cases fuel with
    | zero =>
      rw [encode_cons, List.length_append] at hfuel
      omega
    | succ fuel =>
      have hlen : (before ++ encode (c :: text)).length =
          before.length + (encode (c :: text)).length := List.length_append
      have hnext := next_encode before c text []
      rw [List.append_nil, ← hlen] at hnext
      have hcols : columns (before ++ encode (c :: text)) before.length
          (before.length + (String.utf8EncodeChar c).length) unit = units c unit := by
        have h := columns_encode before [c] (encode text) unit
        simpa [List.append_assoc] using h
      rw [Input.stepTo, fits]
      split
      next hmore =>
        dsimp only
        rw [hnext, hcols]
        split
        next hover =>
          rw [if_neg (by omega)]
          rfl
        next hfits =>
          rw [if_pos (by omega)]
          have hcount : units' + units c unit ≤ character := not_lt.mp hfits
          have hleft : (encode text).length ≤ fuel := by
            rw [encode_cons, List.length_append] at hfuel
            omega
          have hgo := ih (before ++ String.utf8EncodeChar c) hcount hleft
          rw [Nat.sub_add_eq] at hgo
          rw [List.take_succ_cons, measure_cons, encode_cons, encode_cons, List.length_append,
            ← Nat.add_assoc, ← Nat.add_assoc]
          simpa [List.append_assoc] using hgo
      next hstop =>
        have hroom : character - units' = 0 := by
          rw [hlen, encode_cons, List.length_append] at hstop
          omega
        rw [hroom, if_neg (by omega)]
        rfl

/-! ### The bytes of a line -/

/-- The terminators a line ends with are trimmed, and nothing before them. -/
lemma trim_eq {source : List UInt8} {start m n : ℕ} (hm : start ≤ m) (hn : m ≤ n)
    (hends : ∀ j, m ≤ j → j < n → (source[j]?).any ends = true)
    (hlast : start < m → (source[m - 1]?).any ends = false) : trim source start n = m := by
  induction n with
  | zero => rw [trim, Nat.le_zero.mp hn]
  | succ n ih =>
    rw [trim]
    rcases Nat.lt_or_eq_of_le hn with hlt | rfl
    · rw [if_pos ⟨by omega, hends n (by omega) (by omega)⟩]
      exact ih (by omega) fun j hj hjn => hends j hj (by omega)
    · rw [if_neg]
      rintro ⟨hstart, hany⟩
      rw [Nat.add_sub_cancel] at hlast
      rw [hlast hstart] at hany
      exact absurd hany (by simp)

lemma FirstLine.ends_ending {text content ending rest : List Char}
    (h : FirstLine text content ending rest) {b : UInt8} (hb : b ∈ encode ending) :
    ends b = true := by
  rcases h.closed with ⟨rfl, -⟩ | rfl | rfl | ⟨rfl, -⟩
  · exact absurd hb (by simp)
  · rw [encode_lineFeed, List.mem_singleton] at hb
    exact hb ▸ by decide
  · rw [encode_both, List.mem_pair] at hb
    rcases hb with rfl | rfl <;> decide
  · rw [encode_carriageReturn, List.mem_singleton] at hb
    exact hb ▸ by decide

namespace LineAt

variable {text content ending rest : List Char} {k i : ℕ}

/-- The text's bytes about a line. -/
lemma encode_eq (h : LineAt text k i content ending rest) :
    encode text = encode (text.take i) ++ encode content ++ (encode ending ++ encode rest) := by
  have hsplit := congrArg encode (List.take_append_drop i text)
  rw [encode_append, h.first.text_eq, encode_append, encode_append] at hsplit
  rw [← hsplit]
  simp only [List.append_assoc]

/-- The byte at an offset past a line's content. -/
lemma getElem?_ending (h : LineAt text k i content ending rest) (j : ℕ) :
    (encode text)[(encode (text.take i)).length + (encode content).length + j]? =
      (encode ending ++ encode rest)[j]? := by
  rw [h.encode_eq, List.getElem?_append_right (by rw [List.length_append]; omega),
    List.length_append, Nat.add_sub_cancel_left]

/-- The byte before a line's end is one of its content. -/
lemma getElem?_content (h : LineAt text k i content ending rest) {j : ℕ}
    (hj : j < (encode content).length) :
    ∃ b, (encode text)[(encode (text.take i)).length + j]? = some b ∧ ends b = false := by
  refine ⟨(encode content)[j], ?_, ends_encode h.first.content_goes_on (List.getElem_mem hj)⟩
  rw [h.encode_eq, List.append_assoc, List.getElem?_append_right (Nat.le_add_right _ _),
    Nat.add_sub_cancel_left, List.getElem?_append_left hj, List.getElem?_eq_getElem hj]

lemma any_content (h : LineAt text k i content ending rest)
    (hpos : 0 < (encode content).length) :
    ((encode text)[(encode (text.take i)).length + (encode content).length - 1]?).any ends =
      false := by
  obtain ⟨b, hb, hends⟩ := h.getElem?_content (j := (encode content).length - 1) (by omega)
  rw [Nat.add_sub_assoc hpos, hb, Option.any_some, hends]

/-- The bytes that end a line are line endings. -/
lemma any_ending (h : LineAt text k i content ending rest) {j : ℕ}
    (hj : j < (encode ending).length) :
    ((encode text)[(encode (text.take i)).length + (encode content).length + j]?).any ends =
      true := by
  rw [h.getElem?_ending, List.getElem?_append_left hj, List.getElem?_eq_getElem hj,
    Option.any_some]
  exact h.first.ends_ending (List.getElem_mem hj)

/-- The line's end before its terminators is the end of its content. -/
lemma trim_eq (h : LineAt text k i content ending rest) :
    trim (encode text) (encode (text.take i)).length
        ((encode (text.take i)).length + (encode (content ++ ending)).length) =
      (encode (text.take i)).length + (encode content).length := by
  rw [encode_append, List.length_append]
  refine Text.trim_eq (by omega) (by omega) ?_ fun hlt => h.any_content (by omega)
  intro j hj hlt
  obtain ⟨d, rfl⟩ := Nat.exists_eq_add_of_le hj
  exact h.any_ending (by omega)

/-- A cursor of a line stands before the byte its column counts up to. -/
lemma columnOffset_eq (h : LineAt text k i content ending rest) (unit : TextUnit) {f : ℕ} :
    columnOffset (encode text) (encode (text.take i)).length
        ((encode (text.take i)).length + (encode (content ++ ending)).length)
        (measure (content.take f) unit + 1) unit true =
      some ((encode (text.take i)).length + (encode (content.take f)).length) := by
  have hstop : (encode (text.take i)).length + (encode content).length =
      (encode (text.take i)).length + (encode (content.take f ++ content.drop f)).length := by
    rw [List.take_append_drop]
  have hwalk := walkColumn_spec unit (content.take f) (content.drop f) (encode (text.take i))
    (encode ending ++ encode rest) (Nat.add_comm (measure (content.take f) unit) 1) hstop
    (length_encode_take_le content f)
  rw [List.take_append_drop, ← h.encode_eq] at hwalk
  have hle := length_encode_take_le content f
  rw [columnOffset]
  simp only [if_true, h.trim_eq, Nat.add_sub_cancel_left, hwalk]
  rw [if_pos ⟨trivial, by omega⟩]

end LineAt

namespace Input

variable {input : Input} {text : List Char}

/-- The session's line is the line's content. -/
lemma Whole.line_eq (h : Whole input) (htext : input.source = encode text) {k i : ℕ}
    {content ending rest : List Char} (hline : LineAt text k i content ending rest) :
    input.line (k + 1) = some ((encode (text.take i)).length,
      (encode (text.take i)).length + (encode content).length) := by
  have hending := hline.getElem?_ending
  have hcontent := hline.any_content
  rw [line, if_neg (Nat.succ_ne_zero k), Nat.add_sub_cancel, h.lineSpan_eq, htext, hline.span_eq,
    Option.map_some, encode_append, List.length_append]
  dsimp only
  set n := (encode (text.take i)).length
  set m := (encode content).length
  -- What ends no line is neither of the two bytes.
  have hkeep : ∀ b, ends b = true → strip (encode text) b n (n + m) = n + m := by
    intro b hb
    rw [strip, if_neg]
    rintro ⟨hlt, hget⟩
    have := hcontent (by omega)
    rw [hget, Option.any_some, hb] at this
    exact absurd this (by simp)
  have hcr : ends carriageReturn = true := by decide
  have hlf : ends lineFeed = true := by decide
  have h₀ := hending 0
  have h₁ := hending 1
  rw [Nat.add_zero] at h₀
  rcases hline.first.closed with ⟨rfl, rfl⟩ | rfl | rfl | ⟨rfl, hrest⟩
  · rw [encode_nil, List.length_nil, Nat.add_zero, hkeep _ hlf, hkeep _ hcr]
  · rw [encode_lineFeed] at h₀ ⊢
    have hstrip : strip (encode text) lineFeed n (n + (m + 1)) = n + m := by
      rw [strip, if_pos ⟨by omega, h₀⟩]
      rfl
    rw [List.length_singleton, hstrip, hkeep _ hcr]
  · rw [encode_both] at h₀ h₁ ⊢
    have hstrip₁ : strip (encode text) lineFeed n (n + (m + 2)) = n + m + 1 := by
      rw [strip, if_pos ⟨by omega, h₁⟩]
      rfl
    have hstrip₂ : strip (encode text) carriageReturn n (n + m + 1) = n + m := by
      rw [strip, if_pos ⟨by omega, h₀⟩]
      rfl
    rw [List.length_cons, List.length_singleton, hstrip₁, hstrip₂]
  · rw [encode_carriageReturn] at h₀ ⊢
    have hstrip₁ : strip (encode text) lineFeed n (n + (m + 1)) = n + m + 1 := by
      rw [strip, if_neg]
      · rfl
      · rintro ⟨-, hget⟩
        rw [show n + (m + 1) - 1 = n + m from rfl, h₀] at hget
        exact absurd (Option.some.inj hget) (by decide)
    have hstrip₂ : strip (encode text) carriageReturn n (n + m + 1) = n + m := by
      rw [strip, if_pos ⟨by omega, h₀⟩]
      rfl
    rw [List.length_singleton, hstrip₁, hstrip₂]

/-- A cursor of the text's line and a column counted up over its content. -/
lemma Whole.offset_eq (h : Whole input) (htext : input.source = encode text) {k i : ℕ}
    {content ending rest : List Char} (hline : LineAt text k i content ending rest)
    (unit : TextUnit) (f : ℕ) :
    input.offset unit ⟨k + 1, measure (content.take f) unit + 1⟩ =
      some ((encode (text.take i)).length + (encode (content.take f)).length) := by
  rw [offset, if_pos ⟨Nat.le_add_left _ _, Nat.le_add_left _ _⟩]
  dsimp only
  rw [Nat.add_sub_cancel, h.lineSpan_eq, htext, hline.span_eq, Option.bind_some]
  exact hline.columnOffset_eq unit

end Input

/-! ### Where a position stands -/

lemma lineStarts_pos (text : List Char) : 0 < (lineStarts text).length := by
  obtain ⟨hlt, -⟩ := List.getElem?_eq_some_iff.mp (lineStarts_zero text)
  exact hlt

/-- The last line ends the text. -/
lemma LineAt.of_last {text content ending rest : List Char} {k i : ℕ}
    (h : LineAt text k i content ending rest) (hlast : (lineStarts text).length = k + 1) :
    ending = [] ∧ text = text.take i ++ content := by
  have hnext := h.next
  rw [List.getElem?_eq_none (le_of_eq hlast)] at hnext
  have hending : ending = [] := by
    by_contra hne
    rw [if_neg hne] at hnext
    exact absurd hnext (by simp)
  subst hending
  have hrest : rest = [] := by
    rcases h.first.closed with ⟨-, hrest⟩ | hcase | hcase | ⟨hcase, -⟩
    · exact hrest
    all_goals exact absurd hcase (by simp)
  have htext := h.first.text_eq
  rw [hrest, List.append_nil, List.append_nil] at htext
  exact ⟨rfl, by rw [← htext, List.take_append_drop]⟩

/-- A line's content is the characters from its start up to the first that ends a line. -/
lemma FirstLine.takeWhile_eq {text content ending rest : List Char}
    (h : FirstLine text content ending rest) :
    text.takeWhile (fun c => !breaks c) = content := by
  have hgoes : ∀ c ∈ content, (!breaks c) = true := by
    intro c hc
    rw [h.content_goes_on c hc]
    rfl
  have hstop : (ending ++ rest).takeWhile (fun c => !breaks c) = [] := by
    rcases h.closed with ⟨rfl, rfl⟩ | rfl | rfl | ⟨rfl, -⟩
    · rfl
    all_goals exact List.takeWhile_cons_of_neg (by decide)
  rw [h.text_eq, List.append_assoc, List.takeWhile_append_of_pos hgoes, hstop, List.append_nil]

/-- A position of a line denotes one of the line's characters, or its end. -/
lemma LineAt.place_eq {text content ending rest : List Char} {k i : ℕ}
    (h : LineAt text k i content ending rest) (hi : (lineStarts text)[k]? = some i)
    (unit : TextUnit) (character : ℕ) :
    place text unit ⟨k, character⟩ = i + fits unit character content ∧
      text.take (i + fits unit character content) =
        text.take i ++ content.take (fits unit character content) := by
  have hfits := fits_le unit character content
  constructor
  · rw [place, hi]
    dsimp only
    rw [h.first.takeWhile_eq]
  · rw [List.take_add, h.first.text_eq, List.append_assoc, List.take_append_of_le_length hfits]

/-! ### Positions in order -/

lemma place_le (text : List Char) (unit : TextUnit) (position : Position) :
    place text unit position ≤ text.length := by
  rw [place]
  cases hi : (lineStarts text)[position.line]? with
  | none => exact le_refl _
  | some i =>
    obtain ⟨content, ending, rest, h⟩ := (exists_lineAt text position.line).2 i hi
    have hrow := (List.takeWhile_prefix (fun c => !breaks c) (l := text.drop i)).length_le
    have hfits := fits_le unit position.character ((text.drop i).takeWhile fun c => !breaks c)
    rw [List.length_drop] at hrow
    have := h.le_length
    dsimp only
    omega

lemma lineStarts_increasing (text : List Char) : (lineStarts text).Pairwise (· < ·) :=
  List.pairwise_lt_range.sublist List.filter_sublist

/-- A line's positions stand no further than the next line's start. -/
lemma place_le_next {text : List Char} {position : Position} {j : ℕ}
    (hj : (lineStarts text)[position.line + 1]? = some j) (unit : TextUnit) :
    place text unit position ≤ j := by
  obtain ⟨hlt, -⟩ := List.getElem?_eq_some_iff.mp hj
  have hi := List.getElem?_eq_getElem (Nat.lt_of_succ_lt hlt)
  obtain ⟨content, ending, rest, h⟩ := (exists_lineAt text position.line).2 _ hi
  have hnext := h.next
  rw [hj] at hnext
  have hplace := (h.place_eq hi unit position.character).1
  have hfits := fits_le unit position.character content
  split at hnext
  next => exact absurd hnext (by simp)
  next =>
    rw [List.length_append] at hnext
    rw [show position = ⟨position.line, position.character⟩ from rfl, hplace]
    have := Option.some.inj hnext
    omega

/-- Of two positions in order, the first denotes no later place. -/
theorem place_mono (text : List Char) (unit : TextUnit) {a b : Position}
    (h : after a b = false) : place text unit a ≤ place text unit b := by
  rw [after] at h
  split at h
  next hne =>
    have hline : a.line < b.line := by
      have := of_decide_eq_false h
      omega
    cases hb : (lineStarts text)[b.line]? with
    | none =>
      have hend : place text unit b = text.length := by rw [place, hb]
      rw [hend]
      exact place_le text unit a
    | some j =>
      obtain ⟨hlt, hget⟩ := List.getElem?_eq_some_iff.mp hb
      have hnext : a.line + 1 < (lineStarts text).length := by omega
      have hstart : (lineStarts text)[a.line + 1] ≤ j := by
        rcases Nat.lt_or_eq_of_le (Nat.succ_le_of_lt hline) with hbefore | heq
        · rw [← hget]
          exact (List.pairwise_iff_getElem.mp (lineStarts_increasing text) _ _ hnext hlt
            hbefore).le
        · rw [← hget]
          exact le_of_eq (getElem_congr_idx heq)
      have hplace : j ≤ place text unit b := by
        rw [place, hb]
        exact Nat.le_add_right _ _
      exact (place_le_next (List.getElem?_eq_getElem hnext) unit).trans (hstart.trans hplace)
  next heq =>
    rw [not_not] at heq
    have hchar := not_lt.mp (of_decide_eq_false h)
    rw [place, place, heq]
    cases (lineStarts text)[b.line]? with
    | none => exact le_refl _
    | some i => exact Nat.add_le_add_left (fits_mono unit hchar _) i

/-! ### The cursors of the session -/

lemma trim_le (source : List UInt8) (start stop : ℕ) : trim source start stop ≤ stop := by
  induction stop with
  | zero => exact le_refl _
  | succ stop ih =>
    rw [trim]
    split
    · exact ih.trans (Nat.le_succ _)
    · exact le_refl _

lemma le_walkColumn (source : List UInt8) (unit : TextUnit) (column stop fuel walked at' : ℕ) :
    at' ≤ (walkColumn source unit column stop fuel walked at').2 := by
  induction fuel generalizing walked at' with
  | zero => exact le_refl _
  | succ fuel ih =>
    rw [walkColumn]
    split
    · refine le_trans ?_ (ih _ _)
      rw [next]
      omega
    · exact le_refl _

lemma width_le (byte : UInt8) : width byte ≤ 2 := by
  rw [width]
  split
  · exact Nat.zero_le _
  · split
    · exact le_refl _
    · exact Nat.le_succ _

lemma columns_le (source : List UInt8) (start stop : ℕ) (unit : TextUnit) :
    columns source start stop unit ≤ 2 * (stop - start) := by
  cases unit with
  | utf8 =>
    rw [columns]
    omega
  | utf16 =>
    have hsum : ∀ bytes : List UInt8, (bytes.map width).sum ≤ 2 * bytes.length := by
      intro bytes
      induction bytes with
      | nil => exact Nat.zero_le _
      | cons byte bytes ih =>
        have := width_le byte
        rw [List.map_cons, List.sum_cons, List.length_cons]
        omega
    have hlength := List.length_take_le (stop - start) (source.drop start)
    exact (hsum _).trans (Nat.mul_le_mul_left 2 hlength)

/-- A walk counts no more than two columns for each byte it passes. -/
lemma walkColumn_le (source : List UInt8) (unit : TextUnit)
    (column stop fuel walked at' : ℕ) :
    (walkColumn source unit column stop fuel walked at').1 ≤
      walked + 2 * ((walkColumn source unit column stop fuel walked at').2 - at') := by
  induction fuel generalizing walked at' with
  | zero => exact Nat.le_add_right _ _
  | succ fuel ih =>
    rw [walkColumn]
    split
    · dsimp only
      have hstep := columns_le source at' (next source at' stop) unit
      have hnext : at' + 1 ≤ next source at' stop := by
        rw [next]
        exact Nat.le_add_right _ _
      have hrest := le_walkColumn source unit column stop fuel
        (walked + columns source at' (next source at' stop) unit) (next source at' stop)
      refine (ih _ _).trans ?_
      omega
    · exact Nat.le_add_right _ _

/-- A cursor's column counts no more than two for each byte before its offset. -/
lemma column_le {source : List UInt8} {start stop column offset : ℕ} {unit : TextUnit}
    (h : columnOffset source start stop column unit true = some offset) :
    column ≤ 2 * offset + 1 := by
  rw [columnOffset] at h
  simp only [if_true] at h
  split at h
  next hwalk =>
    have hoffset := Option.some.inj h
    have hle := walkColumn_le source unit column (trim source start stop)
      (trim source start stop - start) 1 start
    rw [hwalk.1, hoffset] at hle
    omega
  next => exact absurd h (by simp)

/-- A cursor's offset lies on its line. -/
lemma columnOffset_bounds {source : List UInt8} {start stop column offset : ℕ} {unit : TextUnit}
    (h : columnOffset source start stop column unit true = some offset) :
    start ≤ offset ∧ offset ≤ stop := by
  rw [columnOffset] at h
  simp only [if_true] at h
  split at h
  next hwalk =>
    have hoffset := Option.some.inj h
    rw [← hoffset]
    exact ⟨le_walkColumn source unit column _ _ 1 start, hwalk.2.trans (trim_le source start stop)⟩
  next => exact absurd h (by simp)

namespace Input

/-- A line starts before the lines after it. -/
lemma lineStart_lt {source : List UInt8} {k j : ℕ} (hk : k < (Text.lines source 0).length)
    (hkj : k < j) : lineStart source k < lineStart source j := by
  rw [lineStart, lineStart, List.getElem?_eq_getElem hk, Option.map_some, Option.getD_some]
  have hscan : Scans source 0 (Text.lines source 0) source.length := scans_all (Nat.zero_le _)
  rcases Nat.lt_or_ge j (Text.lines source 0).length with hj | hj
  · rw [List.getElem?_eq_getElem hj, Option.map_some, Option.getD_some]
    exact List.pairwise_iff_getElem.mp hscan.increasing _ _ hk hj hkj
  · rw [List.getElem?_eq_none hj, Option.map_none, Option.getD_none]
    exact (hscan.start_lt (List.getElem_mem hk)).2.1

/-- A cursor the session takes is on a line of the text, and its offset there. -/
lemma Whole.offset_bounds {input : Input} (h : Whole input) {unit : TextUnit} {cursor : Cursor}
    {offset : ℕ} (hoffset : input.offset unit cursor = some offset) :
    cursor.line - 1 ≤ (Text.lines input.source 0).length ∧
      lineStart input.source (cursor.line - 1) ≤ offset ∧ offset ≤ input.source.length := by
  rw [Input.offset] at hoffset
  split at hoffset
  next =>
    rw [h.lineSpan_eq, span] at hoffset
    split at hoffset
    next hlt =>
      obtain ⟨hstart, hstop⟩ := columnOffset_bounds hoffset
      exact ⟨hlt.le, hstart, hstop.trans (lineStart_le _ _)⟩
    next =>
      split at hoffset
      next hlast =>
        obtain ⟨hstart, hstop⟩ := columnOffset_bounds hoffset
        exact ⟨hlast.1.le, (lineStart_le _ _).trans hstart, hstop⟩
      next => exact absurd hoffset (by simp)
  next => exact absurd hoffset (by simp)

lemma length_lines_le (source : List UInt8) : (Text.lines source 0).length ≤ source.length := by
  have hfuel : ∀ fuel start, (linesFrom source fuel start).length ≤ fuel := by
    intro fuel
    induction fuel with
    | zero => exact fun _ => le_refl _
    | succ fuel ih =>
      intro start
      rw [linesFrom]
      split
      · exact Nat.succ_le_succ (ih _)
      · exact Nat.zero_le _
  exact hfuel _ _

/-- The line and the column of a cursor the session takes are bounded by the text. -/
lemma Whole.cursor_le {input : Input} (h : Whole input) {unit : TextUnit} {cursor : Cursor}
    {offset : ℕ} (hoffset : input.offset unit cursor = some offset) :
    cursor.line ≤ input.source.length + 1 ∧ cursor.column ≤ 2 * input.source.length + 1 := by
  obtain ⟨hline, -, hle⟩ := h.offset_bounds hoffset
  have hlines := length_lines_le input.source
  refine ⟨by omega, ?_⟩
  rw [Input.offset] at hoffset
  split at hoffset
  next =>
    obtain ⟨span, -, hcolumn⟩ := Option.bind_eq_some_iff.mp hoffset
    have := column_le hcolumn
    omega
  next => exact absurd hoffset (by simp)

variable {input : Input} {text : List Char}

lemma Whole.lineCount_text (h : Whole input) (htext : input.source = encode text) :
    input.lineCount = (lineStarts text).length := by
  rw [h.lineCount_eq, htext, length_lineStarts]

/-- The server's offset is the byte before the character the position denotes, and its cursor is
one the session takes and turns into the same offset. -/
theorem Whole.locate_spec (h : Whole input) (htext : input.source = encode text)
    (unit : TextUnit) (position : Position) :
    (input.locate unit position).1 = (encode (text.take (place text unit position))).length ∧
      input.offset unit (input.locate unit position).2 = some (input.locate unit position).1 := by
  have hcount := h.lineCount_text htext
  have hpos := lineStarts_pos text
  -- The bytes the server reads of a line are its content's.
  have hbytes : ∀ {k i : ℕ} {content ending rest : List Char},
      LineAt text k i content ending rest →
      ((input.source.drop (encode (text.take i)).length).take
        ((encode (text.take i)).length + (encode content).length -
          (encode (text.take i)).length)) = encode content := by
    intro k i content ending rest hline
    rw [htext, hline.encode_eq, Nat.add_sub_cancel_left, List.append_assoc, List.drop_left,
      List.take_left]
  rw [locate]
  dsimp only
  rw [hcount]
  by_cases hpast : (lineStarts text).length ≤ position.line
  · have hlast : (lineStarts text).length - 1 < (lineStarts text).length := by omega
    obtain ⟨content, ending, rest, hline⟩ :=
      (exists_lineAt text _).2 _ (List.getElem?_eq_getElem hlast)
    obtain ⟨hending, hwhole⟩ := hline.of_last (by omega)
    have hplace : place text unit position = text.length := by
      rw [place, List.getElem?_eq_none hpast]
    simp only [hpast, decide_true, if_true]
    rw [h.line_eq htext hline, Option.getD_some, hbytes hline, hplace, List.take_length, htext]
    refine ⟨rfl, ?_⟩
    have hcols := columns_encode [] content [] unit
    simp only [List.nil_append, List.append_nil, List.length_nil, Nat.zero_add] at hcols
    have hoffset := h.offset_eq htext hline unit content.length
    rw [List.take_length] at hoffset
    rw [hcols, hoffset, ← List.length_append, ← encode_append, ← hwhole]
  · have hlt := not_le.mp hpast
    have hstart := List.getElem?_eq_getElem hlt
    obtain ⟨content, ending, rest, hline⟩ := (exists_lineAt text _).2 _ hstart
    obtain ⟨hplace, htake⟩ := hline.place_eq hstart unit position.character
    have hwalk := stepTo_spec unit content [] (Nat.zero_le position.character) (le_refl _)
    simp only [List.nil_append, List.length_nil, Nat.zero_add, Nat.sub_zero] at hwalk
    simp only [hpast, decide_false, Bool.false_eq_true, if_false]
    rw [h.line_eq htext hline, Option.getD_some, hbytes hline, hwalk]
    dsimp only
    have hoffset := h.offset_eq htext hline unit (fits unit position.character content)
    rw [hoffset]
    refine ⟨?_, rfl⟩
    rw [← List.length_append, ← encode_append, ← htake, ← hplace]

end Input

end MarkdownCore.Text
