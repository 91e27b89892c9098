import Mathlib.Data.List.TakeWhile
import MarkdownCore.Text.Scalars

/-!
# Lines

A line ends at a carriage return, a line feed or the two together. The scanner reads one line
after another; where it stands at the start of a line, what it reads on depends on the text from
there alone (`lines_drop`), and what it read before on the text before alone (`Scans.of_append`).
-/

namespace MarkdownCore.Text

/-- `markdown_core_input_line`: where a line starts, and where it ends before its terminator. -/
structure Line where
  start : ℕ
  stop : ℕ
  deriving DecidableEq, Repr

def carriageReturn : UInt8 := 13

def lineFeed : UInt8 := 10

/-- A byte that ends a line. -/
def ends (byte : UInt8) : Bool := byte == carriageReturn || byte == lineFeed

/-- The offset past a byte, when it stands at `cursor`. -/
def pastByte (source : List UInt8) (byte : UInt8) (cursor : ℕ) : ℕ :=
  if source[cursor]? = some byte then cursor + 1 else cursor

/-- The offset past a carriage return and then a line feed at `cursor`. -/
def pastEnding (source : List UInt8) (cursor : ℕ) : ℕ :=
  pastByte source lineFeed (pastByte source carriageReturn cursor)

/-- Where the line from `start` on ends: `S_source_span_end`, and on past each NUL. -/
def spanEnd (source : List UInt8) (start : ℕ) : ℕ :=
  start + ((source.drop start).takeWhile fun b => !ends b).length

/-- `S_scan_line`: the line that starts at `scanned`, and where the next starts. -/
def scanLine (source : List UInt8) (scanned : ℕ) : Line × ℕ :=
  (⟨scanned, spanEnd source scanned⟩, pastEnding source (spanEnd source scanned))

/-- The lines of a text from `scanned` on. The second argument bounds their number. -/
@[grind =] def linesFrom (source : List UInt8) : ℕ → ℕ → List Line
  | 0, _ => []
  | fuel + 1, scanned =>
    if scanned < source.length then
      (scanLine source scanned).1 :: linesFrom source fuel (scanLine source scanned).2
    else []

/-- The lines of a text from an offset on. -/
def lines (source : List UInt8) (start : ℕ) : List Line :=
  linesFrom source (source.length - start) start

/-! ### One line -/

/-- How long a text's first line is before its terminator. -/
def spanLength (bytes : List UInt8) : ℕ := (bytes.takeWhile fun b => !ends b).length

/-- How long it is through its terminator. -/
def lineLength (bytes : List UInt8) : ℕ := pastEnding bytes (spanLength bytes)

lemma pastByte_drop (source : List UInt8) (byte : UInt8) (s cursor : ℕ) :
    pastByte source byte (s + cursor) = s + pastByte (source.drop s) byte cursor := by
  rw [pastByte, pastByte, List.getElem?_drop]
  split <;> omega

lemma pastEnding_drop (source : List UInt8) (s cursor : ℕ) :
    pastEnding source (s + cursor) = s + pastEnding (source.drop s) cursor := by
  rw [pastEnding, pastEnding, pastByte_drop, pastByte_drop]

lemma le_pastByte (source : List UInt8) (byte : UInt8) (cursor : ℕ) :
    cursor ≤ pastByte source byte cursor := by
  rw [pastByte]
  split <;> omega

lemma pastByte_le {source : List UInt8} {byte : UInt8} {cursor : ℕ} (h : cursor ≤ source.length) :
    pastByte source byte cursor ≤ source.length := by
  rw [pastByte]
  split
  next hbyte =>
    obtain ⟨hlt, -⟩ := List.getElem?_eq_some_iff.mp hbyte
    omega
  next => exact h

lemma le_pastEnding (source : List UInt8) (cursor : ℕ) : cursor ≤ pastEnding source cursor :=
  (le_pastByte source _ cursor).trans (le_pastByte source _ _)

lemma pastEnding_le {source : List UInt8} {cursor : ℕ} (h : cursor ≤ source.length) :
    pastEnding source cursor ≤ source.length := pastByte_le (pastByte_le h)

/-- A terminator is passed. -/
lemma lt_pastEnding {source : List UInt8} {cursor : ℕ} {b : UInt8}
    (h : source[cursor]? = some b) (hb : ends b = true) : cursor < pastEnding source cursor := by
  rw [ends, Bool.or_eq_true, beq_iff_eq, beq_iff_eq] at hb
  rcases hb with rfl | rfl
  · refine lt_of_lt_of_le ?_ (le_pastByte source _ _)
    rw [pastByte, if_pos h]
    exact Nat.lt_succ_self cursor
  · have hcr : pastByte source carriageReturn cursor = cursor := by
      rw [pastByte, if_neg]
      rw [h]
      decide
    rw [pastEnding, hcr, pastByte, if_pos h]
    exact Nat.lt_succ_self cursor

lemma spanLength_le (bytes : List UInt8) : spanLength bytes ≤ bytes.length :=
  (List.takeWhile_prefix _).length_le

lemma ends_at_span {bytes : List UInt8} (h : spanLength bytes < bytes.length) :
    ∃ b, bytes[spanLength bytes]? = some b ∧ ends b = true := by
  have hget := @List.getElem?_append_right _ (bytes.takeWhile fun b => !ends b)
    (bytes.dropWhile fun b => !ends b) _ (le_refl _)
  rw [List.takeWhile_append_dropWhile, Nat.sub_self] at hget
  cases hdrop : bytes.dropWhile fun b => !ends b with
  | nil =>
    have hlen := congrArg List.length
      (List.takeWhile_append_dropWhile (p := fun b => !ends b) (l := bytes))
    rw [hdrop, List.append_nil] at hlen
    exact absurd hlen (ne_of_lt h)
  | cons b rest =>
    refine ⟨b, by rw [spanLength, hget, hdrop]; rfl, ?_⟩
    have := List.head?_dropWhile_not (fun b => !ends b) bytes
    rw [hdrop] at this
    simpa using this

lemma lineLength_le (bytes : List UInt8) : lineLength bytes ≤ bytes.length :=
  pastEnding_le (spanLength_le bytes)

lemma spanLength_le_lineLength (bytes : List UInt8) : spanLength bytes ≤ lineLength bytes :=
  le_pastEnding bytes _

lemma lineLength_pos {bytes : List UInt8} (h : bytes ≠ []) : 0 < lineLength bytes := by
  rcases Nat.lt_or_ge (spanLength bytes) bytes.length with hlt | hge
  · obtain ⟨b, hb, hends⟩ := ends_at_span hlt
    exact lt_of_le_of_lt (Nat.zero_le _) (lt_pastEnding hb hends)
  · exact lt_of_lt_of_le (lt_of_lt_of_le (List.length_pos_of_ne_nil h) hge)
      (spanLength_le_lineLength bytes)

lemma lineLength_drop_pos {source : List UInt8} {s : ℕ} (h : s < source.length) :
    0 < lineLength (source.drop s) := by
  refine lineLength_pos fun hnil => ?_
  rw [List.drop_eq_nil_iff] at hnil
  omega

lemma pastByte_append {bytes : List UInt8} {cursor : ℕ} (h : cursor < bytes.length)
    (more : List UInt8) (byte : UInt8) :
    pastByte (bytes ++ more) byte cursor = pastByte bytes byte cursor := by
  rw [pastByte, pastByte, List.getElem?_append_left h]

/-- A line that ends before a text's prefix does is a line of every text with that prefix. -/
lemma lineLength_append {bytes more : List UInt8} (h : lineLength (bytes ++ more) < bytes.length)
    (more' : List UInt8) :
    spanLength (bytes ++ more') = spanLength (bytes ++ more) ∧
      lineLength (bytes ++ more') = lineLength (bytes ++ more) := by
  have hspan := lt_of_le_of_lt (spanLength_le_lineLength (bytes ++ more)) h
  have hne : (bytes.takeWhile fun b => !ends b).length ≠ bytes.length := by
    intro heq
    rw [spanLength, List.takeWhile_append, if_pos heq, List.length_append] at hspan
    omega
  have hsame : ∀ l, spanLength (bytes ++ l) = spanLength bytes := by
    intro l
    rw [spanLength, spanLength, List.takeWhile_append, if_neg hne]
  have hcr := le_pastByte (bytes ++ more) lineFeed
    (pastByte (bytes ++ more) carriageReturn (spanLength bytes))
  refine ⟨by rw [hsame, hsame], ?_⟩
  rw [hsame] at hspan
  rw [lineLength, pastEnding, hsame] at h
  rw [lineLength, lineLength, pastEnding, pastEnding, hsame, hsame]
  rw [pastByte_append hspan] at h hcr ⊢
  rw [pastByte_append (lt_of_le_of_lt hcr h), pastByte_append hspan,
    pastByte_append (lt_of_le_of_lt hcr h)]

lemma scanLine_eq (source : List UInt8) (s : ℕ) :
    scanLine source s =
      (⟨s, s + spanLength (source.drop s)⟩, s + lineLength (source.drop s)) := by
  rw [scanLine, spanEnd, lineLength, ← pastEnding_drop, spanLength]

/-! ### The lines of a text -/

lemma linesFrom_eq {source : List UInt8} {fuel fuel' s : ℕ} (h : source.length - s ≤ fuel)
    (h' : source.length - s ≤ fuel') : linesFrom source fuel s = linesFrom source fuel' s := by
  induction fuel generalizing fuel' s with
  | zero =>
    cases fuel' with
    | zero => rfl
    | succ fuel' => rw [linesFrom, linesFrom, if_neg (by omega)]
  | succ fuel ih =>
    cases fuel' with
    | zero => rw [linesFrom, linesFrom, if_neg (by omega)]
    | succ fuel' =>
      rw [linesFrom, linesFrom]
      split
      next hlt =>
        have hpos := lineLength_drop_pos hlt
        have hnext : ∀ fuel, source.length - s ≤ fuel + 1 →
            source.length - (scanLine source s).2 ≤ fuel := by
          intro fuel hfuel
          rw [scanLine_eq]
          dsimp only
          omega
        rw [ih (hnext fuel h) (hnext fuel' h')]
      next => rfl

lemma lines_cons {source : List UInt8} {s : ℕ} (h : s < source.length) :
    lines source s = (scanLine source s).1 :: lines source (scanLine source s).2 := by
  have hpos := lineLength_drop_pos h
  obtain ⟨fuel, hfuel⟩ : ∃ fuel, source.length - s = fuel + 1 := ⟨source.length - s - 1, by omega⟩
  rw [lines, hfuel, linesFrom, if_pos h, lines]
  refine congrArg _ (linesFrom_eq ?_ (le_refl _))
  rw [scanLine_eq]
  dsimp only
  omega

lemma lines_nil {source : List UInt8} {s : ℕ} (h : source.length ≤ s) : lines source s = [] := by
  rw [lines, Nat.sub_eq_zero_of_le h, linesFrom]

/-- The scan of a text from one line start to another, and the lines it makes. -/
inductive Scans (source : List UInt8) : ℕ → List Line → ℕ → Prop
  | here (s : ℕ) : Scans source s [] s
  | line {s t : ℕ} {rest : List Line} (hs : s < source.length)
      (hrest : Scans source (scanLine source s).2 rest t) :
      Scans source s ((scanLine source s).1 :: rest) t

namespace Scans

variable {source : List UInt8} {s t u : ℕ} {row row' : List Line}

lemma lines_eq (h : Scans source s row t) : lines source s = row ++ lines source t := by
  induction h with
  | here => rfl
  | line hs _ ih => rw [lines_cons hs, ih, List.cons_append]

lemma trans (h : Scans source s row t) (h' : Scans source t row' u) :
    Scans source s (row ++ row') u := by
  induction h with
  | here => exact h'
  | line hs _ ih => exact Scans.line hs (ih h')

lemma single (hs : s < source.length) :
    Scans source s [(scanLine source s).1] (scanLine source s).2 := Scans.line hs (Scans.here _)

lemma eq_of_nil (h : Scans source s [] t) : s = t := by
  cases h
  rfl

lemma head_eq {line : Line} (h : Scans source s (line :: row) t) :
    line = (scanLine source s).1 ∧ s < source.length := by
  cases h with
  | line hs _ => exact ⟨rfl, hs⟩

lemma le (h : Scans source s row t) : s ≤ t := by
  induction h with
  | here => exact le_refl _
  | line _ _ ih =>
    rw [scanLine_eq] at ih
    dsimp only at ih
    omega

lemma le_length (h : Scans source s row t) (hs : s ≤ source.length) : t ≤ source.length := by
  induction h with
  | here => exact hs
  | @line s _ _ _ _ ih =>
    refine ih ?_
    have := lineLength_le (source.drop s)
    rw [List.length_drop] at this
    rw [scanLine_eq]
    dsimp only
    omega

/-- A line of a scan starts where the scan of the lines before it comes to. -/
lemma at_index (h : Scans source s row t) {index : ℕ} {line : Line}
    (hline : row[index]? = some line) :
    Scans source s (row.take index) line.start ∧ line.start < source.length ∧
      Scans source line.start (row.drop index) t ∧ line = (scanLine source line.start).1 := by
  induction h generalizing index with
  | here => exact absurd hline (by simp)
  | line hs hrest ih =>
    cases index with
    | zero =>
      rw [List.getElem?_cons_zero, Option.some.injEq] at hline
      subst hline
      exact ⟨Scans.here _, hs, Scans.line hs hrest, rfl⟩
    | succ index =>
      obtain ⟨h₁, h₂, h₃, h₄⟩ := ih hline
      exact ⟨Scans.line hs h₁, h₂, h₃, h₄⟩

/-- A scan of a text from one of its line starts to the end of a prefix is a scan of every text
with that prefix, when it goes on. -/
lemma of_append {bytes more : List UInt8} (h : Scans (bytes ++ more) s row t)
    (ht : t < bytes.length) (more' : List UInt8) : Scans (bytes ++ more') s row t := by
  induction h with
  | here => exact Scans.here _
  | @line s t row hs hrest ih =>
    have hle := hrest.le
    rw [scanLine_eq] at hle
    dsimp only at hle
    have hlen := lineLength_drop_pos hs
    have hdrop : ∀ l, (bytes ++ l).drop s = bytes.drop s ++ l :=
      fun l => List.drop_append_of_le_length (by omega)
    rw [hdrop] at hle hlen
    have hshort : lineLength (bytes.drop s ++ more) < (bytes.drop s).length := by
      rw [List.length_drop]
      omega
    obtain ⟨hspan, hline⟩ := lineLength_append hshort more'
    have hscan : scanLine (bytes ++ more') s = scanLine (bytes ++ more) s := by
      rw [scanLine_eq, scanLine_eq, hdrop, hdrop, hspan, hline]
    rw [← hscan]
    refine Scans.line (by rw [List.length_append]; omega) ?_
    rw [hscan]
    exact ih ht

end Scans

/-- The first lines of a text are those a scan makes up to the next one's start. -/
lemma scans_take (source : List UInt8) (n : ℕ) {s : ℕ} (hs : s ≤ source.length) :
    Scans source s ((lines source s).take n)
      (((lines source s)[n]?.map Line.start).getD source.length) := by
  induction n generalizing s with
  | zero =>
    rw [List.take_zero]
    rcases Nat.lt_or_eq_of_le hs with hlt | rfl
    · rw [lines_cons hlt]
      exact Scans.here _
    · rw [lines_nil (le_refl _)]
      exact Scans.here _
  | succ n ih =>
    rcases Nat.lt_or_eq_of_le hs with hlt | rfl
    · rw [lines_cons hlt]
      exact Scans.line hlt (ih ((Scans.single hlt).le_length hs))
    · rw [lines_nil (le_refl _)]
      exact Scans.here _

lemma scans_all {source : List UInt8} {s : ℕ} (hs : s ≤ source.length) :
    Scans source s (lines source s) source.length := by
  have h := scans_take source (lines source s).length hs
  rwa [List.take_length, List.getElem?_eq_none (le_refl _), Option.map_none, Option.getD_none] at h

/-! ### The lines from an offset on -/

/-- A line of the text after a prefix. -/
def Line.shift (n : ℕ) (line : Line) : Line := ⟨n + line.start, n + line.stop⟩

lemma scanLine_drop (source : List UInt8) (s k : ℕ) :
    scanLine source (s + k) =
      ((scanLine (source.drop s) k).1.shift s, s + (scanLine (source.drop s) k).2) := by
  simp only [scanLine_eq, Line.shift, List.drop_drop, Nat.add_assoc]

/-- From the start of a line on, the lines are those of the text from there on. -/
lemma lines_drop {source : List UInt8} {s k : ℕ} (hs : s ≤ source.length) :
    lines source (s + k) = (lines (source.drop s) k).map (Line.shift s) := by
  induction hn : source.length - (s + k) using Nat.strong_induction_on generalizing k with
  | _ n ih =>
    rcases Nat.lt_or_ge (s + k) source.length with hlt | hge
    · have hlt' : k < (source.drop s).length := by
        rw [List.length_drop]
        omega
      have hnext := (Scans.single hlt').le
      have hpos : k < (scanLine (source.drop s) k).2 := by
        have := lineLength_drop_pos hlt'
        rw [scanLine_eq]
        dsimp only
        omega
      rw [lines_cons hlt, lines_cons hlt', scanLine_drop, List.map_cons]
      dsimp only
      rw [ih _ (by omega) rfl]
    · rw [lines_nil hge, lines_nil (by rw [List.length_drop]; omega), List.map_nil]

/-- Lines start one after another, inside the text, and end there. -/
lemma Scans.start_lt {source : List UInt8} {s t : ℕ} {row : List Line} (h : Scans source s row t)
    {line : Line} (hline : line ∈ row) :
    s ≤ line.start ∧ line.start < t ∧ line.start < source.length ∧ line.stop ≤ source.length := by
  obtain ⟨i, hi⟩ := List.mem_iff_getElem?.mp hline
  obtain ⟨hbefore, hlt, hafter, heq⟩ := h.at_index hi
  refine ⟨hbefore.le, ?_, hlt, ?_⟩
  · cases hrow : row.drop i with
    | nil =>
      rw [List.drop_eq_nil_iff] at hrow
      rw [List.getElem?_eq_none hrow] at hi
      exact absurd hi (by simp)
    | cons first rest =>
      rw [hrow] at hafter
      cases hafter with
      | line hs hrest =>
        have hle := hrest.le
        have hpos := lineLength_drop_pos hs
        rw [scanLine_eq] at hle
        dsimp only at hle
        omega
  · have hle := spanLength_le (source.drop line.start)
    rw [List.length_drop] at hle
    rw [heq, scanLine_eq]
    dsimp only
    omega

lemma Scans.increasing {source : List UInt8} {s t : ℕ} {row : List Line}
    (h : Scans source s row t) : row.Pairwise fun a b => a.start < b.start := by
  rw [List.pairwise_iff_getElem]
  intro i j hi hj hij
  obtain ⟨hbefore, -⟩ := h.at_index (List.getElem?_eq_getElem hj)
  refine (hbefore.start_lt ?_).2.1
  rw [List.mem_take_iff_getElem]
  exact ⟨i, by omega, rfl⟩

end MarkdownCore.Text
