import MarkdownCore.Library.Zipper
import MarkdownCore.Text.Lines

/-!
# The line table

The parse of a text scans its lines one after another and keeps where each starts and ends. An
edit reads again from the start of a line before it: the lines from there on go to the back of a
zipper, and the reading may take those back that start past the edit. Which line an edit reads
from, how far ahead the reading scans and where it takes the old lines back are decisions of the
block parse, taken here as given; whatever they are, the table an edit leaves is the one a scan of
the new text makes (`Input.Whole.reread`).
-/

namespace MarkdownCore.Text

/-- `S_line_flip`, `S_line_start`. -/
def linePlaces : Places Line where
  start line := line.start
  flip line n := ⟨n - line.start, n - line.stop⟩
  Within n line := line.start ≤ n ∧ line.stop ≤ n
  start_le h := h.1
  start_flip _ := rfl
  flip_flip := by
    rintro n ⟨start, stop⟩ ⟨h₁, h₂⟩
    dsimp only at h₁ h₂ ⊢
    rw [Nat.sub_sub_self h₁, Nat.sub_sub_self h₂]
  within_flip _ := ⟨Nat.sub_le _ _, Nat.sub_le _ _⟩

/-- `markdown_core_parser_input`: the text, its lines about the place an edit reads from, and how
far it is scanned. -/
structure Input where
  source : List UInt8
  lines : Zipper Line
  scanned : ℕ

namespace Input

/-- `S_extend_source_lines`: scan lines until line `index` is among them or the text ends. -/
def extend (input : Input) (index : ℕ) : ℕ → Input
  | 0 => input
  | fuel + 1 =>
    if input.lines.front.length ≤ index ∧ input.scanned < input.source.length then
      let scan := scanLine input.source input.scanned
      extend { input with
        lines := { input.lines with front := input.lines.front ++ [scan.1] }
        scanned := scan.2 } index fuel
    else input

/-- Whether the text's last line is an empty one after a line ending, or the empty text's. -/
def closing (source : List UInt8) : Bool := source.getLast?.all ends

/-- `markdown_core_parser_line_count`. -/
def lineCount (input : Input) : ℕ :=
  input.lines.count + if closing input.source then 1 else 0

/-- `markdown_core_parser_line_span`. -/
def lineSpan (input : Input) (line : ℕ) : Option (ℕ × ℕ) :=
  let front := input.lines.front.length
  let back := input.lines.back.length
  if line < front then
    let start := (input.lines.front[line]?).map Line.start
    let stop :=
      if line + 1 < front then (input.lines.front[line + 1]?).map Line.start
      else if back ≠ 0 then input.lines.backStart linePlaces 0
      else some input.source.length
    start.bind fun start => stop.map fun stop => (start, stop)
  else if line - front < back then
    let index := line - front
    let start := input.lines.backStart linePlaces index
    let stop :=
      if index + 1 < back then input.lines.backStart linePlaces (index + 1)
      else some input.source.length
    start.bind fun start => stop.map fun stop => (start, stop)
  else if line = front + back ∧ closing input.source then
    some (input.source.length, input.source.length)
  else none

/-- `S_edit_line`: the old line that starts at `start`, or the one before the first that starts
past it. -/
def editLine (input : Input) (start : ℕ) : ℕ := input.lines.backFrom linePlaces (start + 1) - 1

end Input

/-- What replaced what: the old text from `start` to `stop` gave way to `length` bytes. `past` is
a place of the old text the reading takes nothing back before. -/
structure Replaced where
  start : ℕ
  stop : ℕ
  length : ℕ
  past : ℕ

/-- How far what follows moved. -/
def Replaced.delta (edit : Replaced) : ℤ := (edit.length : ℤ) - ((edit.stop : ℤ) - edit.start)

/-- What the block parse decides as it reads lines again: how many lines past line `index` it
scans ahead, and whether it takes the old lines back at a line that starts at an offset. -/
structure Decisions where
  ahead : ℕ → ℕ
  resumes : ℕ → Bool

namespace Input

/-- `markdown_core_parser_reopen`: the parse put back at the start of line `line`, the lines from
there on in the back. -/
def reopen (input : Input) (line : ℕ) (source : List UInt8) (whole : Bool) : Input :=
  let start := (input.lines.startAt linePlaces line).getD input.scanned
  let lines := (input.lines.move linePlaces start input.source.length).truncate line
  { source
    lines := if whole then lines.leave lines.back.length else lines
    scanned := start }

/-- `S_splice`: the old lines from the one that starts at `old` on are taken back as line
`index` on. -/
def splice (input : Input) (edit : Replaced) (old index : ℕ) : Input :=
  { input with
    lines := ((input.lines.truncate index).leave (input.editLine old)).resize
      ((input.lines.size : ℤ) + edit.delta).toNat
    scanned := input.source.length }

/-- The line loop of `S_parse_source` over an edit's new text: each line is read in turn, and at
the start of one that an old line past the edit started, the old lines may be taken back
(`S_edit_next`, `S_resume`). A reading that takes none back lets them go at the text's end. -/
def readLines (decide : Decisions) (edit : Replaced) (input : Input) (index : ℕ) : ℕ → Input
  | 0 => input
  | fuel + 1 =>
    let start := ((input.lines.front[index]?).map Line.start).getD input.scanned
    let old := ((start : ℤ) - edit.delta).toNat
    if input.source.length ≤ start then
      { input with lines := input.lines.leave input.lines.back.length }
    else if input.lines.backStart linePlaces (input.editLine old) = some old ∧
        max edit.past edit.stop ≤ old ∧ (old : ℤ) + edit.delta = start ∧ 0 < start ∧
        decide.resumes start then
      input.splice edit old index
    else
      readLines decide edit
        (input.extend (index + decide.ahead index) (input.source.length - input.scanned))
        (index + 1) fuel

/-- `session_reread`: the text read again from line `line`. -/
def reread (input : Input) (decide : Decisions) (line : ℕ) (edit : Replaced)
    (source : List UInt8) (whole : Bool) : Input :=
  let opened := input.reopen line source whole
  opened.readLines decide edit line (source.length + 1)

/-- A text read for the first time. -/
def read (decide : Decisions) (source : List UInt8) : Input :=
  readLines decide ⟨0, 0, 0, 0⟩ ⟨source, ⟨[], [], source.length⟩, 0⟩ 0 (source.length + 1)

end Input

/-! ### A table that holds a text's lines -/

lemma within_lines {source : List UInt8} {line : Line} (h : line ∈ lines source 0) :
    linePlaces.Within source.length line := by
  obtain ⟨-, -, hlt, hle⟩ := (scans_all (Nat.zero_le _)).start_lt h
  exact ⟨hlt.le, hle⟩

lemma ordered_lines (source : List UInt8) :
    (lines source 0).Pairwise fun a b => linePlaces.start a ≤ linePlaces.start b :=
  (scans_all (Nat.zero_le _)).increasing.imp fun h => h.le

/-- The lines from an offset on, measured from the text's end, depend on the text from there on
alone. -/
lemma map_flip_lines {source : List UInt8} {s : ℕ} (hs : s ≤ source.length) :
    (lines source s).map (linePlaces.flip · source.length) =
      (lines (source.drop s) 0).map (linePlaces.flip · (source.drop s).length) := by
  have h := lines_drop (k := 0) hs
  rw [Nat.add_zero] at h
  rw [h, List.map_map, List.length_drop]
  refine List.map_congr_left fun line _ => ?_
  simp only [Function.comp_apply, linePlaces, Line.shift, Nat.sub_sub]

namespace Input

/-- The table holds the lines of the text, and the text is scanned. -/
structure Whole (input : Input) : Prop where
  size : input.lines.back = [] ∨ input.lines.size = input.source.length
  ok : (input.lines.resize input.source.length).Ok linePlaces
  holds : (input.lines.resize input.source.length).toList linePlaces = Text.lines input.source 0
  scanned : input.scanned = input.source.length

/-- A table that holds the lines of the text about some line. -/
lemma Whole.of_eq {input : Input} {n : ℕ}
    (hfront : input.lines.front = (Text.lines input.source 0).take n)
    (hback : input.lines.back = ((Text.lines input.source 0).drop n).map
      (linePlaces.flip · input.source.length))
    (hsize : input.lines.back = [] ∨ input.lines.size = input.source.length)
    (hscanned : input.scanned = input.source.length) : Whole input := by
  have hz : input.lines.resize input.source.length =
      ⟨(Text.lines input.source 0).take n, ((Text.lines input.source 0).drop n).map
        (linePlaces.flip · input.source.length), input.source.length⟩ := by
    rw [Zipper.resize, hfront, hback]
  obtain ⟨hok, hlist, -⟩ := Zipper.Ok.of_toList (P := linePlaces)
    (fun _ h => within_lines h) (ordered_lines input.source) hz
  exact ⟨hsize, hok, hlist, hscanned⟩

/-! ### The reopen -/

lemma startAt_resize {z : Zipper Line} {n : ℕ} (h : z.back = [] ∨ z.size = n) (index : ℕ) :
    (z.resize n).startAt linePlaces index = z.startAt linePlaces index := by
  rcases h with h | rfl
  · simp only [Zipper.startAt, Zipper.backStart, Zipper.resize, h, List.getElem?_nil,
      Option.map_none]
  · rfl

/-- Up to where a line starts, the lines are those before it. -/
lemma takeWhile_lines (source : List UInt8) (n : ℕ) :
    ((Text.lines source 0).takeWhile fun line =>
      linePlaces.start line < (((Text.lines source 0)[n]?).map Line.start).getD source.length) =
        (Text.lines source 0).take n ∧
    ((Text.lines source 0).dropWhile fun line =>
      linePlaces.start line < (((Text.lines source 0)[n]?).map Line.start).getD source.length) =
        (Text.lines source 0).drop n := by
  set place := (((Text.lines source 0)[n]?).map Line.start).getD source.length with hplace
  have hscan := scans_take source n (Nat.zero_le _)
  rw [← hplace] at hscan
  have hbefore : ∀ line ∈ (Text.lines source 0).take n,
      decide (linePlaces.start line < place) = true := by
    intro line hline
    exact decide_eq_true (hscan.start_lt hline).2.1
  have hfrom : ((Text.lines source 0).drop n).takeWhile
      (fun line => decide (linePlaces.start line < place)) = [] ∧
      ((Text.lines source 0).drop n).dropWhile
      (fun line => decide (linePlaces.start line < place)) = (Text.lines source 0).drop n := by
    cases hdrop : (Text.lines source 0).drop n with
    | nil => exact ⟨rfl, rfl⟩
    | cons line rest =>
      have hget : (Text.lines source 0)[n]? = some line := by
        have h : ((Text.lines source 0).drop n)[0]? = (Text.lines source 0)[n + 0]? :=
          List.getElem?_drop
        rw [hdrop, Nat.add_zero] at h
        exact h.symm
      have hstart : ¬ decide (linePlaces.start line < place) = true := by
        rw [hplace, hget, Option.map_some, Option.getD_some]
        simp [linePlaces]
      exact ⟨List.takeWhile_cons_of_neg hstart, List.dropWhile_cons_of_neg hstart⟩
  have hsplit := List.take_append_drop n (Text.lines source 0)
  constructor
  · rw [← hsplit, List.takeWhile_append_of_pos hbefore, hfrom.1, List.append_nil, hsplit]
  · rw [← hsplit, List.dropWhile_append_of_pos hbefore, hfrom.2, hsplit]

/-- Where line `line` of a text starts, or the text's end. -/
def lineStart (source : List UInt8) (line : ℕ) : ℕ :=
  (((Text.lines source 0)[line]?).map Line.start).getD source.length

lemma lineStart_le (source : List UInt8) (line : ℕ) : lineStart source line ≤ source.length :=
  (scans_take source line (Nat.zero_le _)).le_length (Nat.zero_le _)

/-- The parse put back at a line holds the lines before it, and the others in its back. -/
lemma Whole.reopen {input : Input} (h : Whole input) (line : ℕ) (source : List UInt8)
    (whole : Bool) :
    input.reopen line source whole =
      { source
        lines :=
          { front := (Text.lines input.source 0).take line
            back := if whole then [] else
              (Text.lines input.source (lineStart input.source line)).map
                (linePlaces.flip · input.source.length)
            size := input.source.length }
        scanned := lineStart input.source line } := by
  have hstart : (input.lines.startAt linePlaces line).getD input.scanned =
      lineStart input.source line := by
    rw [← startAt_resize h.size, h.ok.startAt_eq, h.holds, h.scanned]
    rfl
  have hmove : input.lines.move linePlaces (lineStart input.source line) input.source.length =
      ⟨(Text.lines input.source 0).take line, ((Text.lines input.source 0).drop line).map
        (linePlaces.flip · input.source.length), input.source.length⟩ := by
    have hmove := h.ok.move_eq (lineStart input.source line)
    rw [h.holds] at hmove
    obtain ⟨htake, hdrop⟩ := takeWhile_lines input.source line
    rw [lineStart] at hmove ⊢
    rw [htake, hdrop] at hmove
    exact hmove
  have hdrop : (Text.lines input.source 0).drop line =
      Text.lines input.source (lineStart input.source line) := by
    have hscan := (scans_take input.source line (Nat.zero_le _)).lines_eq
    have hsplit := List.take_append_drop line (Text.lines input.source 0)
    exact List.append_cancel_left (hsplit.trans hscan)
  rw [Input.reopen, hstart, hmove, hdrop]
  simp only [Zipper.truncate, Zipper.leave, List.take_take, Nat.min_self]
  cases whole with
  | false => rfl
  | true => simp

end Input

/-! ### The replaced text -/

/-- The new text is the old with the bytes of the edit replaced. -/
structure Replaced.Makes (edit : Replaced) (old new : List UInt8) : Prop where
  le : edit.start ≤ edit.stop
  le_length : edit.stop ≤ old.length
  new_eq : ∃ text : List UInt8, text.length = edit.length ∧
    new = old.take edit.start ++ text ++ old.drop edit.stop

namespace Replaced.Makes

variable {edit : Replaced} {old new : List UInt8}

lemma length_eq (h : edit.Makes old new) : (new.length : ℤ) = old.length + edit.delta := by
  obtain ⟨text, htext, rfl⟩ := h.new_eq
  have h₁ := h.le
  have h₂ := h.le_length
  rw [Replaced.delta, List.length_append, List.length_append, List.length_take, List.length_drop,
    htext]
  omega

/-- What follows the edit is moved, and is as it was. -/
lemma drop_eq (h : edit.Makes old new) {o n : ℕ} (ho : edit.stop ≤ o)
    (hn : (o : ℤ) + edit.delta = n) : new.drop n = old.drop o := by
  obtain ⟨text, htext, rfl⟩ := h.new_eq
  have h₁ := h.le
  have h₂ := h.le_length
  rw [Replaced.delta] at hn
  have hlen : (old.take edit.start ++ text).length = edit.start + edit.length := by
    rw [List.length_append, List.length_take, htext]
    omega
  have hsplit : n = (old.take edit.start ++ text).length + (o - edit.stop) := by
    rw [hlen]
    omega
  rw [hsplit, List.drop_append, List.drop_eq_nil_of_le (Nat.le_add_right _ _), List.nil_append,
    Nat.add_sub_cancel_left, List.drop_drop]
  congr 1
  omega

/-- What comes before the edit is as it was. -/
lemma scans (h : edit.Makes old new) {row : List Line} {t : ℕ} (hscan : Scans old 0 row t)
    (ht : t < edit.start) : Scans new 0 row t := by
  obtain ⟨text, -, rfl⟩ := h.new_eq
  have h₁ := h.le
  have h₂ := h.le_length
  rw [← List.take_append_drop edit.start old] at hscan
  rw [List.append_assoc]
  refine hscan.of_append ?_ _
  rw [List.length_take]
  omega

end Replaced.Makes

/-! ### The reading -/

namespace Input

/-- The reading of an edit's text at line `index`: its front is scanned from the new text, and its
back holds the old text's lines from some line on. -/
structure Rereads (edit : Replaced) (old : List UInt8) (input : Input) (index : ℕ) : Prop where
  makes : edit.Makes old input.source
  scans : Scans input.source 0 input.lines.front input.scanned
  index_le : index ≤ input.lines.front.length
  size : input.lines.size = old.length
  back : ∃ line, input.lines.back =
    (Text.lines old (lineStart old line)).map (linePlaces.flip · old.length)

variable {edit : Replaced} {old : List UInt8} {input : Input} {index : ℕ}

/-- Where the next line of the reading starts. -/
def cursor (input : Input) (index : ℕ) : ℕ :=
  ((input.lines.front[index]?).map Line.start).getD input.scanned

lemma Rereads.cursor_spec (h : Rereads edit old input index) :
    Scans input.source 0 (input.lines.front.take index) (input.cursor index) ∧
      (input.cursor index < input.source.length ∨ index = input.lines.front.length) := by
  rw [cursor]
  cases hline : input.lines.front[index]? with
  | none =>
    rw [List.getElem?_eq_none_iff] at hline
    have hindex := le_antisymm h.index_le hline
    rw [List.take_of_length_le hline]
    exact ⟨h.scans, Or.inr hindex⟩
  | some line =>
    obtain ⟨hscan, hlt, -, -⟩ := h.scans.at_index hline
    exact ⟨hscan, Or.inl hlt⟩

/-- Scanning ahead keeps the lines scanned and goes on from them. -/
lemma extend_spec (input : Input)
    (hscan : Scans input.source 0 input.lines.front input.scanned) (index : ℕ) {fuel : ℕ}
    (hfuel : input.source.length - input.scanned ≤ fuel) :
    (input.extend index fuel).source = input.source ∧
      (input.extend index fuel).lines.size = input.lines.size ∧
      (input.extend index fuel).lines.back = input.lines.back ∧
      Scans input.source 0 (input.extend index fuel).lines.front
        (input.extend index fuel).scanned ∧
      (∃ row, (input.extend index fuel).lines.front = input.lines.front ++ row ∧
        Scans input.source input.scanned row (input.extend index fuel).scanned) ∧
      (index < (input.extend index fuel).lines.front.length ∨
        input.source.length ≤ (input.extend index fuel).scanned) := by
  induction fuel generalizing input with
  | zero =>
    exact ⟨rfl, rfl, rfl, hscan, ⟨[], (List.append_nil _).symm, Scans.here _⟩,
      Or.inr (by rw [Input.extend]; omega)⟩
  | succ fuel ih =>
    rw [Input.extend]
    split
    next hmore =>
      have hnext := Scans.single hmore.2
      have hgoes : input.scanned < (scanLine input.source input.scanned).2 := by
        have hpos := lineLength_drop_pos hmore.2
        rw [scanLine_eq]
        dsimp only
        omega
      have hfrom : Scans input.source 0
          (input.lines.front ++ [(scanLine input.source input.scanned).1])
          (scanLine input.source input.scanned).2 := hscan.trans hnext
      obtain ⟨h₁, h₂, h₃, h₄, ⟨row, h₅, h₆⟩, h₇⟩ := ih
        { input with
          lines := { input.lines with
            front := input.lines.front ++ [(scanLine input.source input.scanned).1] }
          scanned := (scanLine input.source input.scanned).2 } hfrom (by dsimp only; omega)
      refine ⟨h₁, h₂, h₃, h₄, ⟨_, ?_, hnext.trans h₆⟩, h₇⟩
      rw [h₅, List.append_assoc]
    next hmore =>
      refine ⟨rfl, rfl, rfl, hscan, ⟨[], (List.append_nil _).symm, Scans.here _⟩, ?_⟩
      by_cases hindex : index < input.lines.front.length
      · exact Or.inl hindex
      · exact Or.inr (not_lt.mp fun hlt => hmore ⟨not_lt.mp hindex, hlt⟩)

/-- A line read takes the reading to the next. -/
lemma Rereads.extend (h : Rereads edit old input index)
    (hlt : input.cursor index < input.source.length) (ahead : ℕ) :
    Rereads edit old
        (input.extend (index + ahead) (input.source.length - input.scanned)) (index + 1) ∧
      (input.extend (index + ahead) (input.source.length - input.scanned)).source =
        input.source ∧
      input.cursor index <
        (input.extend (index + ahead) (input.source.length - input.scanned)).cursor
          (index + 1) := by
  obtain ⟨hsource, hsize, hback, hscan, ⟨row, hfront, hrow⟩, hreach⟩ :=
    extend_spec input h.scans (index + ahead) (le_refl _)
  set next := input.extend (index + ahead) (input.source.length - input.scanned) with hnext
  have hindex : index < next.lines.front.length := by
    rcases hreach with hlt' | hge
    · omega
    · -- The whole text is scanned, and the line at the cursor with it.
      by_contra hle
      have hrownil : row = [] := by
        have hlen := congrArg List.length hfront
        rw [List.length_append] at hlen
        have := h.index_le
        exact List.eq_nil_of_length_eq_zero (by omega)
      rw [hrownil] at hrow
      have hscanned := hrow.eq_of_nil
      have hcursor : input.cursor index = input.scanned := by
        rw [cursor, List.getElem?_eq_none, Option.map_none, Option.getD_none]
        rw [hfront, hrownil, List.append_nil] at hle
        omega
      omega
  have hreads : Rereads edit old next (index + 1) :=
    { makes := by rw [hsource]; exact h.makes
      scans := by rw [hsource]; exact hscan
      index_le := hindex
      size := hsize.trans h.size
      back := by rw [hback]; exact h.back }
  refine ⟨hreads, hsource, ?_⟩
  -- The line at the index starts where the cursor stood, and the next starts past it.
  obtain ⟨line, hat⟩ : ∃ line, next.lines.front[index]? = some line :=
    ⟨_, List.getElem?_eq_getElem hindex⟩
  have hstart : line.start = input.cursor index := by
    rw [cursor]
    rcases Nat.lt_or_ge index input.lines.front.length with hin | hout
    · rw [hfront, List.getElem?_append_left hin] at hat
      rw [hat, Option.map_some, Option.getD_some]
    · have heq := le_antisymm h.index_le hout
      rw [List.getElem?_eq_none hout, Option.map_none, Option.getD_none]
      rw [hfront, List.getElem?_append_right hout, heq, Nat.sub_self] at hat
      cases row with
      | nil => exact absurd hat (by simp)
      | cons first rest =>
        rw [List.getElem?_cons_zero, Option.some.injEq] at hat
        rw [← hat, hrow.head_eq.1]
        rfl
  have hspec := hreads.cursor_spec.1
  have htake : next.lines.front.take (index + 1) = next.lines.front.take index ++ [line] := by
    rw [List.take_add_one, hat]
    rfl
  rw [← hstart]
  refine (hspec.start_lt ?_).2.1
  rw [htake]
  exact List.mem_append_right _ (List.mem_singleton_self _)

/-- The old lines from the one that starts at `start` on, in the back of a reading. -/
lemma Rereads.drop_back (h : Rereads edit old input index) {k start : ℕ}
    (hstart : input.lines.backStart linePlaces k = some start) :
    input.lines.back.drop k = (Text.lines old start).map (linePlaces.flip · old.length) ∧
      start ≤ old.length := by
  obtain ⟨line, hback⟩ := h.back
  have hle := lineStart_le old line
  have hscan := scans_all hle
  rw [Zipper.backStart, hback, List.getElem?_map, Option.map_map, h.size] at hstart
  obtain ⟨found, hfound, heq⟩ := Option.map_eq_some_iff.mp hstart
  obtain ⟨hbefore, hlt, -, -⟩ := hscan.at_index hfound
  have hself : start = found.start := by
    rw [← heq]
    simp only [Function.comp_apply, linePlaces]
    omega
  have hrest : (Text.lines old (lineStart old line)).drop k = Text.lines old start := by
    have hsplit := List.take_append_drop k (Text.lines old (lineStart old line))
    rw [hself]
    exact List.append_cancel_left (hsplit.trans hbefore.lines_eq)
  rw [hback, ← List.map_drop, hrest]
  exact ⟨rfl, by omega⟩

/-- Taking the old lines back where the new text reads as the old did leaves the new text's
lines. -/
lemma Rereads.splice (h : Rereads edit old input index) {start : ℕ}
    (hback : input.lines.backStart linePlaces (input.editLine start) = some start)
    (hpast : edit.stop ≤ start) (hmoved : (start : ℤ) + edit.delta = input.cursor index) :
    Whole (input.splice edit start index) := by
  obtain ⟨hdrop, hle⟩ := h.drop_back hback
  have hscan := h.cursor_spec.1
  have hlines := hscan.lines_eq
  have hbound := hscan.le_length (Nat.zero_le _)
  have hgrown := h.makes.length_eq
  have hsame : input.source.drop (input.cursor index) = old.drop start :=
    h.makes.drop_eq hpast hmoved
  refine Whole.of_eq (n := (input.lines.front.take index).length) ?_ ?_ (Or.inr ?_) rfl
  · rw [Input.splice]
    dsimp only [Zipper.resize, Zipper.leave, Zipper.truncate]
    rw [hlines, List.take_left]
  · rw [Input.splice]
    dsimp only [Zipper.resize, Zipper.leave, Zipper.truncate]
    rw [hdrop, hlines, List.drop_left, map_flip_lines hle, map_flip_lines hbound, hsame]
  · rw [Input.splice]
    dsimp only [Zipper.resize, Zipper.leave, Zipper.truncate]
    rw [h.size]
    omega

/-- Whatever the block parse decides, the reading leaves the table of its text. -/
lemma Rereads.readLines (h : Rereads edit old input index) (decide : Decisions) {fuel : ℕ}
    (hfuel : input.source.length < fuel + input.cursor index) :
    (input.readLines decide edit index fuel).source = input.source ∧
      Whole (input.readLines decide edit index fuel) := by
  induction fuel generalizing input index with
  | zero =>
    have := h.cursor_spec.1.le_length (Nat.zero_le _)
    omega
  | succ fuel ih =>
    have hunfold : input.readLines decide edit index (fuel + 1) =
        if input.source.length ≤ input.cursor index then
          { input with lines := input.lines.leave input.lines.back.length }
        else if input.lines.backStart linePlaces
              (input.editLine ((input.cursor index : ℤ) - edit.delta).toNat) =
              some ((input.cursor index : ℤ) - edit.delta).toNat ∧
            max edit.past edit.stop ≤ ((input.cursor index : ℤ) - edit.delta).toNat ∧
            ((((input.cursor index : ℤ) - edit.delta).toNat : ℕ) : ℤ) + edit.delta =
              input.cursor index ∧
            0 < input.cursor index ∧ decide.resumes (input.cursor index) = true then
          input.splice edit ((input.cursor index : ℤ) - edit.delta).toNat index
        else
          (input.extend (index + decide.ahead index)
            (input.source.length - input.scanned)).readLines decide edit (index + 1) fuel := rfl
    rw [hunfold]
    split
    next hend =>
      obtain ⟨hscan, hcursor⟩ := h.cursor_spec
      have hindex : index = input.lines.front.length :=
        hcursor.resolve_left (not_lt.mpr hend)
      have hstop : input.cursor index = input.scanned := by
        rw [Input.cursor, hindex, List.getElem?_eq_none (le_refl _), Option.map_none,
          Option.getD_none]
      have hbound := h.scans.le_length (Nat.zero_le _)
      have hlines := h.scans.lines_eq
      rw [lines_nil (s := input.scanned) (by omega), List.append_nil] at hlines
      refine ⟨rfl, Whole.of_eq (n := input.lines.front.length) ?_ ?_ (Or.inl ?_) ?_⟩
      · dsimp only [Zipper.leave]
        rw [hlines, List.take_length]
      · dsimp only [Zipper.leave]
        rw [hlines, List.drop_length, List.drop_length, List.map_nil]
      · exact List.drop_length
      · dsimp only
        omega
    next hlt =>
      split
      next hsplice => exact ⟨rfl, h.splice hsplice.1 (by omega) hsplice.2.2.1⟩
      next =>
        obtain ⟨hnext, hsource, hgoes⟩ := h.extend (not_le.mp hlt) (decide.ahead index)
        obtain ⟨h₁, h₂⟩ := ih hnext (by rw [hsource]; omega)
        exact ⟨h₁.trans hsource, h₂⟩

lemma lineStart_zero (source : List UInt8) : lineStart source 0 = 0 := by
  rw [lineStart]
  rcases Nat.eq_zero_or_pos source.length with hzero | hpos
  · rw [lines_nil (by omega), List.getElem?_nil, Option.map_none, Option.getD_none, hzero]
  · rw [lines_cons hpos]
    rfl

lemma lines_at_end (source : List UInt8) :
    Text.lines source (lineStart source (Text.lines source 0).length) = [] := by
  rw [lineStart, List.getElem?_eq_none (le_refl _), Option.map_none, Option.getD_none,
    lines_nil (le_refl _)]

/-- An edit read again from a line before it leaves the table of the new text. -/
theorem Whole.reread {input : Input} (h : Whole input) (decide : Decisions) {line : ℕ}
    {edit : Replaced} {source : List UInt8} (whole : Bool)
    (hmakes : edit.Makes input.source source) (hline : line ≤ (Text.lines input.source 0).length)
    (hrest : line = 0 ∨ lineStart input.source line < edit.start ∨ source = input.source) :
    (input.reread decide line edit source whole).source = source ∧
      Whole (input.reread decide line edit source whole) := by
  have hopen := h.reopen line source whole
  have hreads : Rereads edit input.source (input.reopen line source whole) line := by
    rw [hopen]
    refine ⟨hmakes, ?_, ?_, rfl, ?_⟩
    · rcases hrest with rfl | hlt | rfl
      · rw [lineStart_zero, List.take_zero]
        exact Scans.here _
      · exact hmakes.scans (scans_take _ _ (Nat.zero_le _)) hlt
      · exact scans_take _ _ (Nat.zero_le _)
    · dsimp only
      rw [List.length_take]
      omega
    · cases whole with
      | false => exact ⟨line, rfl⟩
      | true => exact ⟨_, by rw [lines_at_end]; rfl⟩
  have hsource : (input.reopen line source whole).source = source := by rw [hopen]
  have hfuel : (input.reopen line source whole).source.length <
      source.length + 1 + (input.reopen line source whole).cursor line := by
    rw [hsource]
    omega
  rw [Input.reread]
  obtain ⟨h₁, h₂⟩ := hreads.readLines decide hfuel
  exact ⟨h₁.trans hsource, h₂⟩

/-- A text read for the first time has its table. -/
theorem whole_read (decide : Decisions) (source : List UInt8) :
    (Input.read decide source).source = source ∧ Whole (Input.read decide source) := by
  have hreads : Rereads ⟨0, 0, 0, 0⟩ source ⟨source, ⟨[], [], source.length⟩, 0⟩ 0 := by
    refine ⟨⟨le_refl _, Nat.zero_le _, [], rfl, rfl⟩, Scans.here _, le_refl _, rfl, ?_⟩
    exact ⟨_, by rw [lines_at_end]; rfl⟩
  exact hreads.readLines decide (by dsimp only; omega)

/-! ### The span of a line -/

/-- Where line `line` of a text starts and where the next does, or the text's end. -/
def span (source : List UInt8) (line : ℕ) : Option (ℕ × ℕ) :=
  if line < (Text.lines source 0).length then
    some (lineStart source line, lineStart source (line + 1))
  else if line = (Text.lines source 0).length ∧ closing source then
    some (source.length, source.length)
  else none

lemma Whole.count_eq {input : Input} (h : Whole input) :
    input.lines.count = (Text.lines input.source 0).length := by
  rw [← h.holds, Zipper.length_toList]
  rfl

lemma Whole.startAt_eq {input : Input} (h : Whole input) (line : ℕ) :
    input.lines.startAt linePlaces line = ((Text.lines input.source 0)[line]?).map Line.start := by
  rw [← startAt_resize h.size, h.ok.startAt_eq, h.holds]
  rfl

/-- The table gives the lines of its text. -/
theorem Whole.lineSpan_eq {input : Input} (h : Whole input) (line : ℕ) :
    input.lineSpan line = span input.source line := by
  have hcount := h.count_eq
  have hat := h.startAt_eq
  rw [Zipper.count] at hcount
  have hstart : ∀ k, k < (Text.lines input.source 0).length →
      input.lines.startAt linePlaces k = some (lineStart input.source k) := by
    intro k hk
    rw [hat, lineStart, List.getElem?_eq_getElem hk]
    rfl
  have hnext : ∀ k, (Text.lines input.source 0).length ≤ k →
      lineStart input.source k = input.source.length := by
    intro k hk
    rw [lineStart, List.getElem?_eq_none hk]
    rfl
  have hin : line < (Text.lines input.source 0).length →
      span input.source line =
        some (lineStart input.source line, lineStart input.source (line + 1)) :=
    fun hlt => by rw [span, if_pos hlt]
  have hout : ¬ line < (Text.lines input.source 0).length →
      span input.source line =
        if line = (Text.lines input.source 0).length ∧ closing input.source then
          some (input.source.length, input.source.length)
        else none := fun hge => by rw [span, if_neg hge]
  rw [lineSpan]
  dsimp only
  split
  next hfront =>
    have hself := hstart line (by omega)
    rw [Zipper.startAt, if_pos hfront] at hself
    have hself' : (input.lines.front[line]?).map Line.start = some (lineStart input.source line) :=
      hself
    rw [hin (by omega), hself', Option.bind_some]
    split
    next hmore =>
      have h₁ := hstart (line + 1) (by omega)
      rw [Zipper.startAt, if_pos hmore] at h₁
      have h₁' : (input.lines.front[line + 1]?).map Line.start =
          some (lineStart input.source (line + 1)) := h₁
      rw [h₁', Option.map_some]
    next hmore =>
      split
      next hback =>
        have h₁ := hstart (line + 1) (by omega)
        rw [Zipper.startAt, if_neg hmore, show line + 1 - input.lines.front.length = 0 by omega]
          at h₁
        rw [h₁, Option.map_some]
      next hback => rw [Option.map_some, hnext (line + 1) (by omega)]
  next hfront =>
    split
    next hback =>
      have hself := hstart line (by omega)
      rw [Zipper.startAt, if_neg hfront] at hself
      rw [hin (by omega), hself, Option.bind_some]
      split
      next hmore =>
        have h₁ := hstart (line + 1) (by omega)
        rw [Zipper.startAt, if_neg (by omega), Nat.sub_add_comm (not_lt.mp hfront)] at h₁
        rw [h₁, Option.map_some]
      next hmore => rw [Option.map_some, hnext (line + 1) (by omega)]
    next hback => rw [hout (by omega), hcount]

lemma Whole.lineCount_eq {input : Input} (h : Whole input) :
    input.lineCount =
      (Text.lines input.source 0).length + if closing input.source then 1 else 0 := by
  rw [lineCount, h.count_eq]

lemma span_isSome (source : List UInt8) (line : ℕ) :
    (span source line).isSome ↔
      line < (Text.lines source 0).length + if closing source then 1 else 0 := by
  rw [span]
  split
  · simp only [Option.isSome_some, true_iff]
    omega
  · split
    next hlast =>
      rw [if_pos hlast.2]
      simp only [Option.isSome_some, true_iff]
      omega
    next hlast =>
      simp only [Option.isSome_none, Bool.false_eq_true, false_iff, not_lt]
      split
      next hclosing =>
        have : line ≠ (Text.lines source 0).length := fun heq => hlast ⟨heq, hclosing⟩
        omega
      next => omega

end Input

end MarkdownCore.Text
