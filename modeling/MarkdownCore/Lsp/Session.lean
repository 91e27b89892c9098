import MarkdownCore.Text.Positions

/-!
# Sessions under edits

A session holds a text, its line table and the document parsed from it. An edit names the bytes it
replaces by two cursors, replaces them and reads the text again from a line before the edit, or
from its start when the text has shrunk to less than half. What storage allows and what the block
parse decides stand in `Turn`, one for each edit: a lemma that holds for every turn holds for every
parse and every allocator.
-/

namespace MarkdownCore.Lsp

open Text

/-- The answers of the session's calls that an edit gives. -/
inductive Status where
  | ok
  | allocationFailed
  | outOfBounds
  deriving DecidableEq, Repr

/-- `MARKDOWN_CORE_SOURCE_CAPACITY`: `INT32_MAX / 2`. -/
def sourceCapacity : ℕ := 1073741823

/-- A flushed session: its text and line table, whether it has a document, the unit its columns
count, and the most text it has held since it last read all of it. -/
structure Session where
  input : Input
  unit : TextUnit
  hasRoot : Bool
  peak : ℕ

/-- A reading of kept text again, after an edit, where a label it altered is used: just past the
use at `place`, from line `rest`, and past the use at `past`. -/
structure Refresh where
  place : ℕ
  past : ℕ
  rest : ℕ
  decide : Decisions

/-- What storage allows an edit and what the block parse decides in it. -/
structure Turn where
  /-- Storage for what the edit needs before it changes the text, and for the text. -/
  ready : Bool
  room : Bool
  /-- The line of the rest point the edit reads from. -/
  rest : ℕ
  decide : Decisions
  /-- Storage for the reading. -/
  reads : Bool
  refreshes : List Refresh
  refreshed : Bool

/-- The line an edit reads from: a rest point stands before the line edited, or at the start. -/
def restLine (rest edited : ℕ) : ℕ := if rest < edited then rest else 0

/-- `session_replace`. -/
def replace (source : List UInt8) (start stop : ℕ) (text : List UInt8) : List UInt8 :=
  source.take start ++ text ++ source.drop stop

/-- The last of the front's lines that starts at or before an offset, or the first: the bisection
of `markdown_core_parser_line_of`. -/
def lastStart (row : List Line) (offset : ℕ) : ℕ → ℕ → ℕ → ℕ
  | 0, low, _ => low
  | fuel + 1, low, high =>
    if low + 1 < high then
      let middle := low + (high - low) / 2
      if (row[middle]?).any fun line => line.start ≤ offset then
        lastStart row offset fuel middle high
      else lastStart row offset fuel low middle
    else low

/-- `markdown_core_parser_line_of`. -/
def lineOf (input : Input) (offset : ℕ) : ℕ :=
  if (input.lines.backStart linePlaces 0).any fun start => start ≤ offset then
    input.lines.front.length + input.editLine offset
  else lastStart input.lines.front offset input.lines.front.length 0 input.lines.front.length

/-- `session_refresh`, one of its readings: an edit of nothing. -/
def refresh (input : Input) (turn : Refresh) : Input :=
  if turn.place < input.source.length then
    let inside := turn.place + 1
    input.reread turn.decide (restLine turn.rest (lineOf input inside))
      ⟨inside, inside, 0, turn.past⟩ input.source false
  else input

namespace Session

/-- `markdown_core_session_new` and `markdown_core_session_flush`, when storage can be had. -/
def «open» (text : List UInt8) (unit : TextUnit) (decide : Decisions) : Session :=
  { input := Input.read decide text, unit, hasRoot := true, peak := 0 }

/-- `markdown_core_session_edit`. -/
def edit (session : Session) (turn : Turn) (start stop : Text.Cursor) (text : List UInt8) :
    Status × Session :=
  if ¬ session.hasRoot then (.allocationFailed, session)
  else
    match session.input.offset session.unit start, session.input.offset session.unit stop with
    | some first, some last =>
      let source := session.input.source
      if last < first then (.outOfBounds, session)
      else if sourceCapacity - (source.length - (last - first)) < text.length then
        (.allocationFailed, session)
      else if ¬ turn.ready then (.allocationFailed, session)
      else
        let peak := max session.peak source.length
        if ¬ turn.room then (.allocationFailed, { session with peak })
        else
          let changed := replace source first last text
          let replaced : Replaced := ⟨first, last, text.length, 0⟩
          let compact := decide (changed.length < peak / 2)
          let input :=
            if compact then session.input.reread turn.decide 0 replaced changed true
            else session.input.reread turn.decide (restLine turn.rest (start.line - 1)) replaced
              changed false
          let peak := if compact then changed.length else peak
          if ¬ turn.reads then (.allocationFailed, { session with input, hasRoot := false, peak })
          else if compact then (.ok, { session with input, peak })
          else
            let input := turn.refreshes.foldl refresh input
            if ¬ turn.refreshed then
              (.allocationFailed, { session with input, hasRoot := false, peak })
            else (.ok, { session with input, peak })
    | _, _ => (.outOfBounds, session)

/-! ### What an edit keeps -/

/-- The session has a document, its table holds the lines of its text, and the text is within the
capacity. -/
structure Good (session : Session) : Prop where
  hasRoot : session.hasRoot = true
  whole : session.input.Whole
  bounded : session.input.source.length ≤ sourceCapacity

/-- The session's text. -/
abbrev text (session : Session) : List UInt8 := session.input.source

end Session

/-! ### The line an edit reads from -/

lemma restLine_lt (rest edited : ℕ) : restLine rest edited = 0 ∨ restLine rest edited < edited := by
  rw [restLine]
  split
  next h => exact Or.inr h
  next => exact Or.inl rfl

lemma lastStart_le {row : List Line} {offset fuel low high : ℕ} (h : low ≤ high) :
    lastStart row offset fuel low high ≤ high := by
  induction fuel generalizing low high with
  | zero => exact h
  | succ fuel ih =>
    rw [lastStart]
    dsimp only
    split
    · split
      · exact ih (by omega)
      · exact (ih (by omega)).trans (by omega)
    · exact h

lemma lineOf_le (input : Input) (offset : ℕ) : lineOf input offset ≤ input.lines.count := by
  rw [lineOf, Zipper.count]
  split
  · have hle : input.lines.backFrom linePlaces (offset + 1) ≤ input.lines.back.length :=
      (Bisect.bisect_bounds _ (Nat.zero_le _)).2
    rw [Input.editLine]
    omega
  · exact (lastStart_le (Nat.zero_le _)).trans (Nat.le_add_right _ _)

/-- Reading kept text again leaves the text and its table. -/
lemma refresh_spec {input : Input} (h : input.Whole) (turn : Refresh) :
    (refresh input turn).source = input.source ∧ (refresh input turn).Whole := by
  rw [refresh]
  split
  next hlt =>
    have hline := restLine_lt turn.rest (lineOf input (turn.place + 1))
    have hle := lineOf_le input (turn.place + 1)
    rw [h.count_eq] at hle
    refine h.reread _ _ ⟨le_refl _, hlt, [], rfl, ?_⟩ (by omega) (Or.inr (Or.inr rfl))
    rw [List.append_nil, List.take_append_drop]
  next => exact ⟨rfl, h⟩

lemma foldl_refresh_spec {input : Input} (h : input.Whole) (turns : List Refresh) :
    (turns.foldl refresh input).source = input.source ∧ (turns.foldl refresh input).Whole := by
  induction turns generalizing input with
  | nil => exact ⟨rfl, h⟩
  | cons turn turns ih =>
    obtain ⟨h₁, h₂⟩ := refresh_spec h turn
    obtain ⟨h₃, h₄⟩ := ih h₂
    exact ⟨h₃.trans h₁, h₄⟩

/-! ### An edit -/

/-- The line an edit reads from starts before the edit, or is the first. -/
lemma restLine_spec {input : Input} (h : input.Whole) {unit : TextUnit} {start : Text.Cursor}
    {first : ℕ} (hfirst : input.offset unit start = some first) (rest : ℕ) :
    restLine rest (start.line - 1) ≤ (lines input.source 0).length ∧
      (restLine rest (start.line - 1) = 0 ∨
        Input.lineStart input.source (restLine rest (start.line - 1)) < first) := by
  obtain ⟨hline, hstart, -⟩ := h.offset_bounds hfirst
  rcases restLine_lt rest (start.line - 1) with hzero | hlt
  · refine ⟨?_, Or.inl hzero⟩
    rw [hzero]
    exact Nat.zero_le _
  · have hbefore := Input.lineStart_lt (lt_of_lt_of_le hlt hline) hlt
    exact ⟨hlt.le.trans hline, Or.inr (lt_of_lt_of_le hbefore hstart)⟩

lemma makes_replace {source : List UInt8} {first last : ℕ} (hle : first ≤ last)
    (hlast : last ≤ source.length) (text : List UInt8) :
    Replaced.Makes ⟨first, last, text.length, 0⟩ source (replace source first last text) :=
  ⟨hle, hlast, text, rfl, rfl⟩

lemma length_replace_le {source text : List UInt8} {first last : ℕ}
    (hbounded : source.length ≤ sourceCapacity) (hle : first ≤ last)
    (hlast : last ≤ source.length)
    (hfits : text.length ≤ sourceCapacity - (source.length - (last - first))) :
    (replace source first last text).length ≤ sourceCapacity := by
  rw [replace, List.length_append, List.length_append, List.length_take, List.length_drop]
  omega

namespace Session

/-- A text opened has its document and its table. -/
theorem open_spec {text : List UInt8} (h : text.length ≤ sourceCapacity) (unit : TextUnit)
    (decide : Decisions) :
    (Session.open text unit decide).Good ∧ (Session.open text unit decide).text = text := by
  obtain ⟨hsource, hwhole⟩ := Input.whole_read decide text
  refine ⟨⟨rfl, hwhole, ?_⟩, hsource⟩
  have hlength := congrArg List.length hsource
  exact hlength.trans_le h

/-- An edit that is taken replaces the bytes between its cursors, and no others. -/
theorem edit_spec {session session' : Session} (h : session.Good) {turn : Turn}
    {start stop : Text.Cursor} {text : List UInt8} {first last : ℕ}
    (hfirst : session.input.offset session.unit start = some first)
    (hlast : session.input.offset session.unit stop = some last)
    (hedit : session.edit turn start stop text = (.ok, session')) :
    session'.Good ∧ session'.unit = session.unit ∧
      session'.text = replace session.text first last text := by
  obtain ⟨hroot, hwhole, hbounded⟩ := h
  obtain ⟨-, -, hle⟩ := hwhole.offset_bounds hlast
  obtain ⟨hline, hrest⟩ := restLine_spec hwhole hfirst turn.rest
  rw [edit, if_neg (not_not.mpr hroot), hfirst, hlast] at hedit
  dsimp only at hedit
  split at hedit
  next => exact absurd (congrArg Prod.fst hedit) (by simp)
  next hinverted =>
  have hmakes := makes_replace (not_lt.mp hinverted) hle text
  split at hedit
  next => exact absurd (congrArg Prod.fst hedit) (by simp)
  next hfits =>
  have hlength := length_replace_le hbounded (not_lt.mp hinverted) hle (not_lt.mp hfits)
  split at hedit
  next => exact absurd (congrArg Prod.fst hedit) (by simp)
  next =>
  split at hedit
  next => exact absurd (congrArg Prod.fst hedit) (by simp)
  next =>
  split at hedit
  next => exact absurd (congrArg Prod.fst hedit) (by simp)
  next =>
  split at hedit
  next hcompact =>
    obtain ⟨hsource, hnew⟩ := hwhole.reread turn.decide true hmakes (Nat.zero_le _) (Or.inl rfl)
    have heq := (Prod.ext_iff.mp hedit).2
    dsimp only at heq
    subst heq
    exact ⟨⟨hroot, hnew, (congrArg List.length hsource).trans_le hlength⟩, rfl, hsource⟩
  next hcompact =>
    split at hedit
    next => exact absurd (congrArg Prod.fst hedit) (by simp)
    next =>
      obtain ⟨hsource, hnew⟩ := hwhole.reread turn.decide false hmakes hline
        (hrest.imp_right Or.inl)
      obtain ⟨hkept, hwhole'⟩ := foldl_refresh_spec hnew turn.refreshes
      have heq := (Prod.ext_iff.mp hedit).2
      dsimp only at heq
      subst heq
      have htext := hkept.trans hsource
      exact ⟨⟨hroot, hwhole', (congrArg List.length htext).trans_le hlength⟩, rfl, htext⟩

/-- A session with a document answers that an edit is out of bounds only when a cursor is, or the
cursors stand in the other order. -/
theorem edit_in_bounds {session : Session} (hroot : session.hasRoot = true) {turn : Turn}
    {start stop : Text.Cursor} {text : List UInt8} {first last : ℕ}
    (hfirst : session.input.offset session.unit start = some first)
    (hlast : session.input.offset session.unit stop = some last) (hle : first ≤ last) :
    (session.edit turn start stop text).1 ≠ .outOfBounds := by
  rw [edit, if_neg (not_not.mpr hroot), hfirst, hlast]
  dsimp only
  rw [if_neg (not_lt.mpr hle)]
  split
  · simp
  · split
    · simp
    · split
      · simp
      · split
        · simp
        · split
          · simp
          · split <;> simp

end Session

end MarkdownCore.Lsp
