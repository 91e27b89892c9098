import MarkdownCore.Library.Bisect
import MarkdownCore.Text.Positions

/-!
# Source scopes

A tree's positions are read off a table of the source's line starts: a byte's line is the last that
starts at it or before, and its column counts what the line has before it. A position names a byte
by a walk over its line. The two are inverse to each other at every scalar of the source, and a
cursor stands again where a scope ends (`scope_positions`).
-/

namespace MarkdownCore.Text

/-- `markdown_core_source_lines`: where lines start, and how many lines are before the first. -/
structure SourceLines where
  starts : List ℕ
  base : ℕ
deriving DecidableEq, Repr

/-- A line starts after a line feed, and after a carriage return that no line feed follows. -/
def startsAfter (source : List UInt8) (i : ℕ) : Bool :=
  source[i]? == some lineFeed ||
    (source[i]? == some carriageReturn && !(source[i + 1]? == some lineFeed))

/-- `markdown_core_source_lines_read`. -/
def sourceLinesRead (source : List UInt8) : SourceLines where
  starts := 0 :: ((List.range source.length).filter (startsAfter source)).map (· + 1)
  base := 0

/-- `source_line_of`, its upper bound one less. -/
def sourceLineOf (lines : SourceLines) (offset : ℕ) : ℕ :=
  Bisect.last (fun k => lines.starts.getD k 0 ≤ offset) lines.starts.length 0
    (lines.starts.length - 1)

/-- `markdown_core_scope`. -/
structure Scope where
  start : Cursor
  stop : Cursor
deriving DecidableEq, Repr

/-- `markdown_core_source_scope`, of the bytes from `start` to `stop`. -/
def sourceScope (lines : SourceLines) (source : List UInt8) (start stop : ℕ) (unit : TextUnit) :
    Scope :=
  let startLine := sourceLineOf lines start
  let endLine := sourceLineOf lines stop
  { start := ⟨lines.base + startLine + 1,
      columns source (lines.starts.getD startLine 0) start unit + 1⟩
    stop := ⟨lines.base + endLine + 1, columns source (lines.starts.getD endLine 0) stop unit⟩ }

/-- `markdown_core_position_offset`: a line of `0` is past every line. -/
def positionOffset (lines : SourceLines) (source : List UInt8) (position : Cursor)
    (unit : TextUnit) (cursor : Bool) : Option ℕ :=
  let line := position.line - 1 - lines.base
  if position.line = 0 ∨ position.line - 1 < lines.base ∨ lines.starts.length ≤ line then none
  else
    columnOffset source (lines.starts.getD line 0)
      (if line + 1 < lines.starts.length then lines.starts.getD (line + 1) 0 else source.length)
      position.column unit cursor

/-! ### Where the table's lines start -/

/-- The byte a character starts at. -/
def byteOf (text : List Char) (i : ℕ) : ℕ := (encode (text.take i)).length

lemma length_encode_pos {text : List Char} (h : text ≠ []) : 0 < (encode text).length := by
  obtain ⟨c, rest, rfl⟩ := List.exists_cons_of_ne_nil h
  rw [encode_cons, List.length_append]
  exact Nat.add_pos_left (length_encodeChar_pos c) _

lemma byteOf_length (text : List Char) : byteOf text text.length = (encode text).length := by
  rw [byteOf, List.take_length]

lemma byteOf_lt {text : List Char} {i j : ℕ} (h : i < j) (hj : j ≤ text.length) :
    byteOf text i < byteOf text j := by
  obtain ⟨d, rfl⟩ := Nat.exists_eq_add_of_lt h
  rw [byteOf, byteOf, Nat.add_assoc, List.take_add, encode_append, List.length_append]
  refine Nat.lt_add_of_pos_right (length_encode_pos fun hnil => ?_)
  have hlength := congrArg List.length hnil
  rw [List.length_take, List.length_drop, List.length_nil] at hlength
  omega

lemma byteOf_le_iff {text : List Char} {i j : ℕ} (hi : i ≤ text.length) (hj : j ≤ text.length) :
    byteOf text i ≤ byteOf text j ↔ i ≤ j := by
  constructor
  · intro hle
    exact Nat.le_of_not_lt fun hlt => absurd (byteOf_lt hlt hi) (Nat.not_lt.mpr hle)
  · intro hle
    rcases Nat.lt_or_eq_of_le hle with hlt | rfl
    · exact le_of_lt (byteOf_lt hlt hj)
    · exact le_refl _

lemma startsAfter_append (before source : List UInt8) (j : ℕ) :
    startsAfter (before ++ source) (before.length + j) = startsAfter source j := by
  rw [startsAfter, startsAfter, Nat.add_assoc, List.getElem?_append_right (Nat.le_add_right _ _),
    List.getElem?_append_right (Nat.le_add_right _ _), Nat.add_sub_cancel_left,
    Nat.add_sub_cancel_left]

lemma startsAfter_of_not_ends {source : List UInt8} {i : ℕ} {b : UInt8}
    (hb : source[i]? = some b) (hends : ends b = false) : startsAfter source i = false := by
  rw [ends, Bool.or_eq_false_iff, beq_eq_false_iff_ne, beq_eq_false_iff_ne] at hends
  simp [startsAfter, hb, hends.1, hends.2]

lemma filter_range_add (p : ℕ → Bool) (m n : ℕ) :
    (List.range (m + n)).filter p =
      (List.range m).filter p ++ ((List.range n).filter (fun j => p (m + j))).map (m + ·) := by
  rw [List.range_add, List.filter_append, List.filter_map]
  rfl

/-- The bytes a line starts after, of two texts of which the first ends one. -/
lemma filter_startsAfter_append (before source : List UInt8) :
    (List.range (before ++ source).length).filter (startsAfter (before ++ source)) =
      (List.range before.length).filter (startsAfter (before ++ source)) ++
        ((List.range source.length).filter (startsAfter source)).map (before.length + ·) := by
  rw [List.length_append, filter_range_add]
  simp only [startsAfter_append]

/-- A line without an ending is the last. -/
lemma FirstLine.rest_eq_nil {text content ending rest : List Char}
    (h : FirstLine text content ending rest) (hending : ending = []) : rest = [] := by
  rcases h.closed with ⟨-, hrest⟩ | hcase | hcase | ⟨hcase, -⟩
  · exact hrest
  all_goals exact absurd (hending ▸ hcase) (by simp)

/-- The last byte of a line's ending is what the next line starts after. -/
lemma FirstLine.filter_eq {text content ending rest : List Char}
    (h : FirstLine text content ending rest) :
    (List.range (encode (content ++ ending)).length).filter (startsAfter (encode text)) =
      if ending = [] then [] else [(encode (content ++ ending)).length - 1] := by
  have htext : encode text = encode content ++ (encode ending ++ encode rest) := by
    rw [h.text_eq, encode_append, encode_append, List.append_assoc]
  have hcontent : (List.range (encode content).length).filter (startsAfter (encode text)) = [] := by
    refine List.filter_eq_nil_iff.mpr fun i hi => ?_
    have hlt := List.mem_range.mp hi
    have hget : (encode text)[i]? = some (encode content)[i] := by
      rw [htext, List.getElem?_append_left hlt, List.getElem?_eq_getElem hlt]
    rw [startsAfter_of_not_ends hget (ends_encode h.content_goes_on (List.getElem_mem hlt))]
    simp
  rw [encode_append, List.length_append, filter_range_add, hcontent, List.nil_append]
  simp only [htext, startsAfter_append]
  rcases h.closed with ⟨rfl, -⟩ | rfl | rfl | ⟨rfl, hrest⟩
  · simp
  · rw [encode_lineFeed]
    simp [startsAfter]
  · rw [encode_both]
    simp [startsAfter, List.range_succ, carriageReturn, lineFeed]
  · have hhead := head_encode hrest
    rw [encode_carriageReturn]
    rw [List.head?_eq_getElem?] at hhead
    simp [startsAfter, hhead]

lemma byteOf_add {text content ending rest : List Char} (h : FirstLine text content ending rest)
    (j : ℕ) : byteOf text ((content ++ ending).length + j) =
      (encode (content ++ ending)).length + byteOf rest j := by
  rw [byteOf, byteOf, h.text_eq, List.take_length_add_append, encode_append (content ++ ending),
    List.length_append]

lemma FirstLine.starts_eq {text content ending rest : List Char}
    (h : FirstLine text content ending rest) :
    (sourceLinesRead (encode text)).starts = 0 :: if ending = [] then []
      else (sourceLinesRead (encode rest)).starts.map ((encode (content ++ ending)).length + ·) := by
  have hbytes : encode text = encode (content ++ ending) ++ encode rest := by
    rw [h.text_eq, encode_append]
  have hfirst := h.filter_eq
  rw [sourceLinesRead, sourceLinesRead]
  dsimp only
  rw [hbytes, filter_startsAfter_append, ← hbytes, hfirst]
  by_cases hending : ending = []
  · have hrest := h.rest_eq_nil hending
    simp [hending, hrest]
  · have hpos : 0 < (encode (content ++ ending)).length :=
      length_encode_pos fun hnil => hending (List.append_eq_nil_iff.mp hnil).2
    rw [if_neg hending, if_neg hending, List.singleton_append, List.map_cons, List.map_cons,
      List.map_map, List.map_map, Nat.sub_add_cancel hpos, Nat.add_zero]
    rfl

/-- The table's lines start where the text's do. -/
lemma starts_eq (text : List Char) :
    (sourceLinesRead (encode text)).starts = (lineStarts text).map (byteOf text) := by
  induction hn : text.length using Nat.strong_induction_on generalizing text with
  | _ n ih =>
    obtain ⟨content, ending, rest, h⟩ := exists_firstLine text
    rw [h.starts_eq, h.lineStarts_eq, List.map_cons]
    refine congrArg₂ List.cons (by simp [byteOf]) ?_
    split
    next => rfl
    next hending =>
      have hlt : rest.length < n := by
        rw [← hn, h.text_eq, List.length_append, List.length_append]
        have := List.length_pos_of_ne_nil hending
        omega
      rw [ih _ hlt rest rfl, List.map_map, List.map_map]
      refine List.map_congr_left fun j _ => ?_
      exact (byteOf_add h j).symm

/-! ### The line of a byte -/

variable {text content ending rest : List Char} {p k i f : ℕ} {unit : TextUnit}

/-- The table of a text's bytes, whatever lines are before the first. -/
def table (text : List Char) (base : ℕ) : SourceLines :=
  { sourceLinesRead (encode text) with base := base }

lemma table_getD {base : ℕ} (h : (lineStarts text)[k]? = some i) :
    k < (table text base).starts.length ∧ (table text base).starts.getD k 0 = byteOf text i := by
  have hget : (table text base).starts[k]? = some (byteOf text i) := by
    rw [table, starts_eq, List.getElem?_map, h]
    rfl
  obtain ⟨hlt, -⟩ := List.getElem?_eq_some_iff.mp hget
  refine ⟨hlt, ?_⟩
  rw [List.getD_eq_getElem?_getD, hget]
  rfl

lemma length_table (text : List Char) (base : ℕ) :
    (table text base).starts.length = (lineStarts text).length := by
  rw [table, starts_eq, List.length_map]

lemma start_le_length (h : (lineStarts text)[k]? = some i) : i ≤ text.length := by
  obtain ⟨content, ending, rest, hline⟩ := (exists_lineAt text k).2 i h
  exact hline.le_length

lemma lineStarts_lt {k' i' : ℕ} (h : (lineStarts text)[k]? = some i)
    (h' : (lineStarts text)[k']? = some i') (hlt : k < k') : i < i' := by
  obtain ⟨hk, rfl⟩ := List.getElem?_eq_some_iff.mp h
  obtain ⟨hk', rfl⟩ := List.getElem?_eq_some_iff.mp h'
  exact List.pairwise_iff_getElem.mp (lineStarts_increasing text) k k' hk hk' hlt

/-- The search finds the last line that starts at a character or before it. -/
lemma sourceLineOf_spec (base : ℕ) (hp : p ≤ text.length) :
    ∃ i, (lineStarts text)[sourceLineOf (table text base) (byteOf text p)]? = some i ∧ i ≤ p ∧
      ∀ j, (lineStarts text)[sourceLineOf (table text base) (byteOf text p) + 1]? = some j →
        p < j := by
  have hcount := lineStarts_pos text
  have hbefore : ∀ k i, (lineStarts text)[k]? = some i →
      (decide ((table text base).starts.getD k 0 ≤ byteOf text p) = true ↔ i ≤ p) := by
    intro k i hk
    rw [decide_eq_true_eq, (table_getD hk).2, byteOf_le_iff (start_le_length hk) hp]
  have hfalls : ∀ ⦃a b⦄, a ≤ b → b ≤ (table text base).starts.length - 1 →
      decide ((table text base).starts.getD b 0 ≤ byteOf text p) = true →
      decide ((table text base).starts.getD a 0 ≤ byteOf text p) = true := by
    intro a b hab hb hle
    rw [length_table] at hb
    have hb' : b < (lineStarts text).length := by omega
    have hgetb := List.getElem?_eq_getElem hb'
    have hgeta := List.getElem?_eq_getElem (lt_of_le_of_lt hab hb')
    rw [hbefore b _ hgetb] at hle
    rw [hbefore a _ hgeta]
    rcases Nat.lt_or_eq_of_le hab with hlt | rfl
    · exact le_trans (le_of_lt (lineStarts_lt hgeta hgetb hlt)) hle
    · exact hle
  have hzero : decide ((table text base).starts.getD 0 0 ≤ byteOf text p) = true :=
    (hbefore 0 0 (lineStarts_zero text)).mpr (Nat.zero_le p)
  obtain ⟨hle, hfound, hpast⟩ := @Bisect.last_spec _ (table text base).starts.length 0
    ((table text base).starts.length - 1) hfalls (by omega) (Nat.zero_le _) hzero
  generalize hr : sourceLineOf (table text base) (byteOf text p) = r
  rw [sourceLineOf] at hr
  rw [hr, length_table] at hle
  rw [hr] at hfound hpast
  have hlt : r < (lineStarts text).length := lt_of_le_of_lt hle (Nat.sub_lt hcount Nat.one_pos)
  refine ⟨_, List.getElem?_eq_getElem hlt, ?_, fun j hj => ?_⟩
  · exact (hbefore _ _ (List.getElem?_eq_getElem hlt)).mp hfound
  · obtain ⟨hlt', -⟩ := List.getElem?_eq_some_iff.mp hj
    have hnot := hpast _ (Nat.lt_succ_self r) (by rw [length_table]; omega)
    refine Nat.lt_of_not_le fun hle' => ?_
    rw [(hbefore _ j hj).mpr hle'] at hnot
    cases hnot

lemma sourceLineOf_eq (base : ℕ) (hp : p ≤ text.length) (hk : (lineStarts text)[k]? = some i)
    (hle : i ≤ p) (hnext : ∀ j, (lineStarts text)[k + 1]? = some j → p < j) :
    sourceLineOf (table text base) (byteOf text p) = k := by
  obtain ⟨i', hk', hle', hnext'⟩ := sourceLineOf_spec base hp
  -- a line that starts past another starts at the one after it or later
  have hpast : ∀ a b u v w, (lineStarts text)[a]? = some u → (lineStarts text)[b]? = some v →
      a < b → (lineStarts text)[a + 1]? = some w → w ≤ v := by
    intro a b u v w _ hb hab hw
    rcases Nat.lt_or_eq_of_le (Nat.succ_le_of_lt hab) with hlt | rfl
    · exact le_of_lt (lineStarts_lt hw hb hlt)
    · exact le_of_eq (Option.some.inj (hw.symm.trans hb))
  have hsome : ∀ a b v, (lineStarts text)[b]? = some v → a < b →
      ∃ w, (lineStarts text)[a + 1]? = some w := by
    intro a b v hb hab
    obtain ⟨hlt, -⟩ := List.getElem?_eq_some_iff.mp hb
    exact ⟨_, List.getElem?_eq_getElem (lt_of_le_of_lt (Nat.succ_le_of_lt hab) hlt)⟩
  rcases Nat.lt_trichotomy (sourceLineOf (table text base) (byteOf text p)) k with hlt | heq | hlt
  · obtain ⟨w, hw⟩ := hsome _ k i hk hlt
    have := hpast _ k i' i w hk' hk hlt hw
    have := hnext' w hw
    omega
  · exact heq
  · obtain ⟨w, hw⟩ := hsome k _ i' hk' hlt
    have := hpast k _ i i' w hk hk' hlt hw
    have := hnext w hw
    omega

/-- Character `p` is the one numbered `f` of line `k`, or the text's end. -/
structure Stands (text : List Char) (p k i f : ℕ) (content ending rest : List Char) : Prop where
  start : (lineStarts text)[k]? = some i
  line : LineAt text k i content ending rest
  eq : p = i + f
  le : f ≤ (content ++ ending).length
  lt : ending ≠ [] → f < (content ++ ending).length

lemma exists_stands (hp : p ≤ text.length) :
    ∃ k i f content ending rest, Stands text p k i f content ending rest := by
  obtain ⟨i, hk, hle, hnext⟩ := sourceLineOf_spec 0 hp
  obtain ⟨content, ending, rest, hline⟩ := (exists_lineAt text _).2 i hk
  have hlt : ending ≠ [] → p - i < (content ++ ending).length := by
    intro hending
    have hnext' := hline.next
    rw [if_neg hending] at hnext'
    have := hnext _ hnext'
    omega
  refine ⟨_, i, p - i, content, ending, rest, hk, hline, (Nat.add_sub_cancel' hle).symm, ?_, hlt⟩
  by_cases hending : ending = []
  · have hdrop := congrArg List.length hline.first.text_eq
    have hrest := hline.first.rest_eq_nil hending
    rw [hrest, List.append_nil, List.length_drop] at hdrop
    omega
  · exact le_of_lt (hlt hending)

namespace Stands

lemma text_eq (h : Stands text p k i f content ending rest) :
    text = text.take i ++ (content ++ ending) ++ rest := by
  rw [List.append_assoc, ← h.line.first.text_eq, List.take_append_drop]

lemma length_take (h : Stands text p k i f content ending rest) : (text.take i).length = i :=
  List.length_take_of_le h.line.le_length

lemma le_length (h : Stands text p k i f content ending rest) : p ≤ text.length := by
  have hlength := congrArg List.length h.text_eq
  rw [List.length_append, List.length_append, h.length_take] at hlength
  have := h.le
  have := h.eq
  omega

lemma take_eq (h : Stands text p k i f content ending rest) :
    text.take p = text.take i ++ (content ++ ending).take f := by
  rw [h.eq, List.take_add, h.line.first.text_eq, List.take_append_of_le_length h.le]

lemma byteOf_eq (h : Stands text p k i f content ending rest) :
    byteOf text p = byteOf text i + (encode ((content ++ ending).take f)).length := by
  rw [byteOf, h.take_eq, encode_append, List.length_append]
  rfl

lemma lineOf_eq (h : Stands text p k i f content ending rest) (base : ℕ) :
    sourceLineOf (table text base) (byteOf text p) = k := by
  have hp := h.eq
  refine sourceLineOf_eq base h.le_length h.start (by omega) fun j hj => ?_
  have hnext := h.line.next
  rw [hj] at hnext
  split at hnext
  next => cases hnext
  next hending =>
    have := Option.some.inj hnext
    have := h.lt hending
    omega

lemma columns_eq (h : Stands text p k i f content ending rest) (unit : TextUnit) :
    columns (encode text) (byteOf text i) (byteOf text p) unit =
      measure ((content ++ ending).take f) unit := by
  have hbytes : encode text = encode (text.take i) ++ encode ((content ++ ending).take f) ++
      encode ((content ++ ending).drop f ++ rest) := by
    rw [← encode_append, ← encode_append, List.append_assoc, ← List.append_assoc _ _ rest,
      List.take_append_drop, ← List.append_assoc]
    exact congrArg encode h.text_eq
  rw [h.byteOf_eq, hbytes]
  exact columns_encode _ _ _ unit

/-- The line the position of a character is on, and the bytes it is walked over. -/
lemma span_eq (h : Stands text p k i f content ending rest) (base : ℕ) :
    k < (table text base).starts.length ∧ (table text base).starts.getD k 0 = byteOf text i ∧
      (if k + 1 < (table text base).starts.length then (table text base).starts.getD (k + 1) 0
        else (encode text).length) =
        byteOf text i + (encode (content ++ ending)).length := by
  obtain ⟨hlt, hget⟩ := @table_getD _ _ _ base h.start
  refine ⟨hlt, hget, ?_⟩
  have hnext := h.line.next
  have hafter : (encode text).length =
      byteOf text i + (encode (content ++ ending)).length + (encode rest).length := by
    conv_lhs => rw [h.text_eq]
    rw [encode_append, encode_append, List.length_append, List.length_append]
    rfl
  split at hnext
  next hending =>
    have hrest := h.line.first.rest_eq_nil hending
    rw [List.getElem?_eq_none_iff, ← length_table text base] at hnext
    rw [if_neg (Nat.not_lt.mpr hnext), hafter, hrest]
    rfl
  next hending =>
    obtain ⟨hlt', hget'⟩ := @table_getD _ _ _ base hnext
    rw [if_pos hlt', hget', byteOf, List.take_add, h.line.first.text_eq, List.take_left,
      encode_append, List.length_append]
    rfl

end Stands

/-! ### The byte of a position -/

/-- A walk over characters stops before one of them, or at their end. -/
lemma exists_walkColumn (unit : TextUnit) (row : List Char) (before after : List UInt8)
    {fuel walked column stop : ℕ} (hstop : stop = before.length + (encode row).length)
    (hfuel : (encode row).length ≤ fuel) :
    ∃ f ≤ row.length, walkColumn (before ++ encode row ++ after) unit column stop fuel walked
      before.length =
        (walked + measure (row.take f) unit, before.length + (encode (row.take f)).length) := by
  induction row generalizing fuel walked before with
  | nil =>
    refine ⟨0, le_refl _, ?_⟩
    cases fuel with
    | zero => rfl
    | succ fuel =>
      rw [walkColumn, if_neg]
      · rfl
      · rintro ⟨-, hlt⟩
        rw [hstop] at hlt
        exact absurd hlt (by simp)
  | cons c row ih =>
    have hbytes := length_encodeChar_pos c
    rw [encode_cons, List.length_append] at hfuel
    cases fuel with
    | zero => omega
    | succ fuel =>
      rw [walkColumn]
      split
      next =>
        have hnext := next_encode before c row after
        rw [← hstop] at hnext
        have hcols : columns (before ++ encode (c :: row) ++ after) before.length
            (before.length + (String.utf8EncodeChar c).length) unit = units c unit := by
          have h := columns_encode before [c] (encode row ++ after) unit
          simpa [List.append_assoc] using h
        have hends : stop =
            (before ++ String.utf8EncodeChar c).length + (encode row).length := by
          rw [hstop, encode_cons, List.length_append, List.length_append, Nat.add_assoc]
        obtain ⟨f, hf, hwalk⟩ := @ih (before ++ String.utf8EncodeChar c) fuel
          (walked + units c unit) hends (by omega)
        refine ⟨f + 1, Nat.succ_le_succ hf, ?_⟩
        dsimp only
        rw [hnext, hcols, encode_cons, List.take_succ_cons, measure_cons, encode_cons,
          List.length_append, ← Nat.add_assoc, ← Nat.add_assoc]
        rw [List.length_append] at hwalk
        simpa [List.append_assoc] using hwalk
      next => exact ⟨0, Nat.zero_le _, by simp⟩

namespace Stands

/-- The walk over a character's line. -/
lemma walk_eq (h : Stands text p k i f content ending rest) (unit : TextUnit) :
    columnOffset (encode text) (byteOf text i) (byteOf text i + (encode (content ++ ending)).length)
        (measure ((content ++ ending).take f) unit + 1) unit false =
      if f < (content ++ ending).length then some (byteOf text p) else none := by
  have hlength := length_encode_take_le (content ++ ending) f
  have hstop : byteOf text i + (encode (content ++ ending)).length =
      (encode (text.take i)).length +
        (encode ((content ++ ending).take f ++ (content ++ ending).drop f)).length := by
    rw [List.take_append_drop]
    rfl
  have hwalk := walkColumn_spec unit ((content ++ ending).take f) ((content ++ ending).drop f)
    (encode (text.take i)) (encode rest)
    (Nat.add_comm (measure ((content ++ ending).take f) unit) 1) hstop hlength
  have hbytes : encode (text.take i) ++ encode (content ++ ending) ++ encode rest =
      encode text := by
    rw [← encode_append, ← encode_append, ← h.text_eq]
  rw [List.take_append_drop, hbytes] at hwalk
  have hiff : byteOf text i + (encode ((content ++ ending).take f)).length <
      byteOf text i + (encode (content ++ ending)).length ↔ f < (content ++ ending).length := by
    rw [Nat.add_lt_add_iff_left, ← byteOf_length (content ++ ending)]
    constructor
    · intro hlt
      refine lt_of_le_of_ne h.le fun heq => ?_
      rw [heq] at hlt
      exact lt_irrefl _ hlt
    · intro hlt
      exact byteOf_lt hlt (le_refl _)
  rw [columnOffset]
  simp only [Bool.false_eq_true, if_false, Nat.add_sub_cancel_left]
  rw [show (encode (text.take i)).length = byteOf text i from rfl] at hwalk
  rw [hwalk, h.byteOf_eq]
  simp only [hiff, true_and]

/-- The position of a character is on its line, at what the line has before it. -/
lemma scope_eq (h : Stands text p k i f content ending rest) (base : ℕ) (other : ℕ)
    (unit : TextUnit) :
    (sourceScope (table text base) (encode text) (byteOf text p) other unit).start =
        ⟨base + k + 1, measure ((content ++ ending).take f) unit + 1⟩ ∧
      (sourceScope (table text base) (encode text) other (byteOf text p) unit).stop =
        ⟨base + k + 1, measure ((content ++ ending).take f) unit⟩ := by
  obtain ⟨-, hget, -⟩ := h.span_eq base
  rw [sourceScope, sourceScope]
  dsimp only
  rw [h.lineOf_eq base, hget, h.columns_eq unit]
  exact ⟨rfl, rfl⟩

lemma positionOffset_eq (h : Stands text p k i f content ending rest) (base column : ℕ)
    (unit : TextUnit) (cursor : Bool) :
    positionOffset (table text base) (encode text) ⟨base + k + 1, column⟩ unit cursor =
      columnOffset (encode text) (byteOf text i)
        (byteOf text i + (encode (content ++ ending)).length) column unit cursor := by
  obtain ⟨hlt, hget, hstop⟩ := h.span_eq base
  have hline : base + k + 1 - 1 - (table text base).base = k := by
    rw [Nat.add_sub_cancel]
    exact Nat.add_sub_cancel_left base k
  rw [positionOffset]
  dsimp only
  rw [hline, hget, hstop, if_neg]
  rintro (hzero | hbase | hle)
  · exact absurd hzero (Nat.succ_ne_zero _)
  · rw [Nat.add_sub_cancel] at hbase
    exact absurd hbase (Nat.not_lt.mpr (Nat.le_add_right base k))
  · exact absurd hlt (Nat.not_lt.mpr hle)

end Stands

/-- A position that names a byte is that of a character. -/
lemma exists_of_positionOffset {base offset : ℕ} {position : Cursor}
    (h : positionOffset (table text base) (encode text) position unit false = some offset) :
    ∃ p k i f content ending rest, Stands text p k i f content ending rest ∧ p < text.length ∧
      offset = byteOf text p ∧
      position = ⟨base + k + 1, measure ((content ++ ending).take f) unit + 1⟩ := by
  obtain ⟨line, column⟩ := position
  have hin : ¬ (line = 0 ∨ line - 1 < base ∨ (table text base).starts.length ≤ line - 1 - base) := by
    intro hout
    have hnone : positionOffset (table text base) (encode text) ⟨line, column⟩ unit false = none :=
      if_pos hout
    rw [hnone] at h
    cases h
  rw [not_or, not_or, Nat.not_lt, Nat.not_le, length_table] at hin
  obtain ⟨k, rfl⟩ : ∃ k, line = base + k + 1 := ⟨line - 1 - base, by omega⟩
  have hlt : k < (lineStarts text).length := by omega
  have hstart := List.getElem?_eq_getElem hlt
  generalize (lineStarts text)[k] = i at hstart
  obtain ⟨content, ending, rest, hat⟩ := (exists_lineAt text k).2 i hstart
  -- the character the line starts with, or its end
  have hfirst : Stands text (i + 0) k i 0 content ending rest := by
    refine ⟨hstart, hat, rfl, Nat.zero_le _, fun hending => ?_⟩
    rw [List.length_append]
    exact Nat.add_pos_right _ (List.length_pos_of_ne_nil hending)
  have hbytes : encode (text.take i) ++ encode (content ++ ending) ++ encode rest =
      encode text := by
    rw [← encode_append, ← encode_append, ← hfirst.text_eq]
  obtain ⟨f, hf, hwalk⟩ := @exists_walkColumn unit (content ++ ending) (encode (text.take i))
    (encode rest) (encode (content ++ ending)).length 1 column _ rfl (le_refl _)
  rw [hbytes] at hwalk
  rw [hfirst.positionOffset_eq, columnOffset] at h
  simp only [Bool.false_eq_true, if_false, Nat.add_sub_cancel_left] at h
  rw [show byteOf text i = (encode (text.take i)).length from rfl, hwalk] at h
  split at h
  next hcolumn =>
    obtain ⟨hcolumn, hstop⟩ := hcolumn
    have hlt : f < (content ++ ending).length := by
      refine lt_of_le_of_ne hf fun heq => ?_
      rw [heq, List.take_length] at hstop
      exact lt_irrefl _ hstop
    have hstands : Stands text (i + f) k i f content ending rest :=
      ⟨hstart, hat, rfl, hf, fun _ => hlt⟩
    have hlength := congrArg List.length hstands.text_eq
    rw [List.length_append, List.length_append, hstands.length_take] at hlength
    refine ⟨i + f, k, i, f, content, ending, rest, hstands, by omega, ?_, ?_⟩
    · rw [hstands.byteOf_eq]
      exact (Option.some.inj h).symm
    · rw [← hcolumn, Nat.add_comm 1]
  next => cases h

/-- A cursor stands where the scope of bytes that end at a character of a line's content does. -/
lemma Stands.cursor_eq (h : Stands text p k i f content ending rest) (hf : f ≤ content.length)
    (base : ℕ) (unit : TextUnit) :
    positionOffset (table text base) (encode text)
      ⟨base + k + 1, measure ((content ++ ending).take f) unit + 1⟩ unit true =
      some (byteOf text p) := by
  rw [h.positionOffset_eq, h.byteOf_eq, List.take_append_of_le_length hf]
  exact h.line.columnOffset_eq unit

/-- No byte of a line before its terminator's first ends one. -/
lemma Stands.le_content (h : Stands text p k i f content ending rest)
    (hbefore : ∀ x b, byteOf text i ≤ x → x < byteOf text p → (encode text)[x]? = some b →
      ends b = false) : f ≤ content.length := by
  by_contra hgt
  have hgt := Nat.lt_of_not_le hgt
  have hending : ending ≠ [] := by
    rintro rfl
    have hle := h.le
    rw [List.append_nil] at hle
    omega
  have hany := h.line.any_ending (length_encode_pos hending)
  rw [Nat.add_zero] at hany
  have hlt : byteOf text i + (encode content).length < byteOf text p := by
    rw [h.byteOf_eq, Nat.add_lt_add_iff_left]
    have hbyte := byteOf_lt hgt h.le
    rwa [byteOf, List.take_left' rfl] at hbyte
  cases hget : (encode text)[byteOf text i + (encode content).length]? with
  | none =>
    rw [byteOf] at hget
    rw [hget] at hany
    cases hany
  | some b =>
    have hends := hbefore _ b (Nat.le_add_right _ _) hlt hget
    rw [byteOf] at hget
    rw [hget, Option.any_some, hends] at hany
    cases hany

/-- The start of the scope of bytes that start at a scalar names that byte, and every position
that names a byte is the start of the scopes that start there; where a scope ends at a scalar of a
line's content or at its terminator, the cursor past its last column stands there again; no two
scalars have one position. -/
theorem scope_positions (text : List Char) (base : ℕ) (unit : TextUnit) :
    (∀ p < text.length, ∀ stop, positionOffset (table text base) (encode text)
      (sourceScope (table text base) (encode text) (byteOf text p) stop unit).start unit false =
        some (byteOf text p)) ∧
    (∀ position offset,
      positionOffset (table text base) (encode text) position unit false = some offset →
      (∃ p < text.length, offset = byteOf text p) ∧
      ∀ stop, (sourceScope (table text base) (encode text) offset stop unit).start = position) ∧
    (∀ p ≤ text.length,
      (∀ x b, (table text base).starts.getD
          (sourceLineOf (table text base) (byteOf text p)) 0 ≤ x → x < byteOf text p →
        (encode text)[x]? = some b → ends b = false) →
      ∀ start line column,
        (sourceScope (table text base) (encode text) start (byteOf text p) unit).stop =
          ⟨line, column⟩ →
        positionOffset (table text base) (encode text) ⟨line, column + 1⟩ unit true =
          some (byteOf text p)) ∧
    ∀ p q, p < text.length → q < text.length → ∀ stop stop',
      (sourceScope (table text base) (encode text) (byteOf text p) stop unit).start =
        (sourceScope (table text base) (encode text) (byteOf text q) stop' unit).start →
      byteOf text p = byteOf text q := by
  have hnames : ∀ p < text.length, ∀ stop, positionOffset (table text base) (encode text)
      (sourceScope (table text base) (encode text) (byteOf text p) stop unit).start unit false =
        some (byteOf text p) := by
    intro p hp stop
    obtain ⟨k, i, f, content, ending, rest, h⟩ := exists_stands (le_of_lt hp)
    have hlt : f < (content ++ ending).length := by
      refine lt_of_le_of_ne h.le fun heq => ?_
      by_cases hending : ending = []
      · -- the last line's end is the text's
        have hrest := h.line.first.rest_eq_nil hending
        have hlength := congrArg List.length h.text_eq
        rw [hrest, List.append_nil, List.length_append, h.length_take] at hlength
        have := h.eq
        omega
      · exact absurd heq (ne_of_lt (h.lt hending))
    rw [(h.scope_eq base stop unit).1, h.positionOffset_eq, h.walk_eq, if_pos hlt]
  refine ⟨hnames, ?_, ?_, ?_⟩
  · intro position offset h
    obtain ⟨p, k, i, f, content, ending, rest, hstands, hp, rfl, rfl⟩ := exists_of_positionOffset h
    refine ⟨⟨p, hp, rfl⟩, fun stop => ?_⟩
    exact (hstands.scope_eq base stop unit).1
  · intro p hp hbefore start line column hstop
    obtain ⟨k, i, f, content, ending, rest, h⟩ := exists_stands hp
    obtain ⟨-, hget, -⟩ := h.span_eq base
    rw [h.lineOf_eq base, hget] at hbefore
    rw [(h.scope_eq base start unit).2] at hstop
    cases hstop
    exact h.cursor_eq (h.le_content hbefore) base unit
  · intro p q hp hq stop stop' heq
    have hleft := hnames p hp stop
    rw [heq, hnames q hq stop'] at hleft
    exact (Option.some.inj hleft).symm

theorem scope_positions_sample :
    positionOffset (table "a\r\n𝄞b".toList 0) (encode "a\r\n𝄞b".toList) ⟨2, 3⟩ .utf16 false =
      some 7 := by
  have h := (scope_positions "a\r\n𝄞b".toList 0 .utf16).1 4 (by decide) 8
  have hbyte : byteOf "a\r\n𝄞b".toList 4 = 7 := by decide
  rw [hbyte] at h
  exact h

end MarkdownCore.Text
