import MarkdownCore.Inline.Content

/-!
# The backtick index

A code span runs to the next run of as many backticks as opened it. The scan for that closer
keeps, for each length, where it last passed a run of it, and whether some scan has reached the
end of the content: from then on a length whose kept run lies behind the cursor is refused
without a scan. The citation element scans the same content through the same index.
-/

namespace MarkdownCore.Inline

/-- The longest run that closes a code span. -/
def maxBackticks : ℕ := 80

def tick : UInt8 := 0x60

/-- The code element's run record. `positions` is empty until a scan first asks for it. -/
structure CodeBackticks where
  positions : List ℕ := []
  capacity : ℕ := 0
  scanned : Bool := false

/-- The table, allocated when a run first looks for a closer. -/
def CodeBackticks.ready (backticks : CodeBackticks) (input : Content) : CodeBackticks :=
  if backticks.positions = [] then
    let capacity := if input.data.length < maxBackticks then input.data.length else maxBackticks
    { backticks with capacity, positions := List.replicate (capacity + 1) 0 }
  else
    backticks

/-- A length whose kept run lies behind the cursor, after a scan has reached the end. -/
def CodeBackticks.refuses (backticks : CodeBackticks) (pos openticklength : ℕ) : Prop :=
  backticks.scanned = true ∧ backticks.positions.getD openticklength 0 ≤ pos

instance (backticks : CodeBackticks) (pos openticklength : ℕ) :
    Decidable (backticks.refuses pos openticklength) :=
  inferInstanceAs (Decidable (_ ∧ _))

/-- The store of a run the scan has passed. -/
def CodeBackticks.store (backticks : CodeBackticks) (numticks start : ℕ) : CodeBackticks :=
  if numticks ≤ backticks.capacity then
    { backticks with positions := backticks.positions.set numticks start }
  else
    backticks

/-- The loop of the scan; every turn passes a run, so the length of what lies ahead bounds
the turns. -/
def scanRuns (input : Content) (openticklength : ℕ) :
    ℕ → CodeBackticks → ℕ → ℕ × CodeBackticks
  | 0, backticks, _ => (0, backticks)
  | turns + 1, backticks, pos =>
    -- read non backticks
    let pos := pos + width (fun c => c ≠ 0 && c ≠ tick) input.data pos
    if input.data.length ≤ pos then
      -- got through whole input without finding closer
      (0, { backticks with scanned := true })
    else
      let numticks := width (fun c => c = tick) input.data pos
      let pos := pos + numticks
      let backticks := backticks.store numticks (pos - numticks)
      if numticks = openticklength then
        (pos, backticks)
      else
        scanRuns input openticklength turns backticks pos

/-- The position after the closer, or `0`. -/
def scanToClosingBackticks (input : Content) (backticks : CodeBackticks)
    (pos openticklength : ℕ) : ℕ × CodeBackticks :=
  if maxBackticks < openticklength then
    (0, backticks)
  else
    let backticks := backticks.ready input
    if backticks.refuses pos openticklength then
      (0, backticks)
    else
      scanRuns input openticklength (input.data.length - pos + 1) backticks pos

/-! ### What a scan without the index answers -/

/-- A run of backticks that goes on at neither end. -/
structure Run (data : List UInt8) (start length : ℕ) : Prop where
  pos : 0 < length
  ticks : ∀ i < length, data[start + i]? = some tick
  left : ∀ before, before + 1 = start → data[before]? ≠ some tick
  right : data[start + length]? ≠ some tick

/-- The position after the first run of the asked length at or after the cursor, or `0` when
there is none. -/
def Closes (data : List UInt8) (pos openticklength answer : ℕ) : Prop :=
  (∃ start, pos ≤ start ∧ Run data start openticklength ∧
    (∀ other, pos ≤ other → Run data other openticklength → start ≤ other) ∧
    answer = start + openticklength) ∨
  (answer = 0 ∧ ∀ start, pos ≤ start → ¬ Run data start openticklength)

/-- A cursor with a backtick on either side. -/
def Inside (data : List UInt8) (pos : ℕ) : Prop :=
  (∃ before, before + 1 = pos ∧ data[before]? = some tick) ∧ data[pos]? = some tick

lemma Run.lt {data : List UInt8} {start length : ℕ} (h : Run data start length) :
    start < data.length := by
  have h0 := h.ticks 0 h.pos
  exact (List.getElem?_eq_some_iff.mp h0).1

/-- Two runs that begin at one place are one. -/
lemma Run.length_unique {data : List UInt8} {start n m : ℕ} (hn : Run data start n)
    (hm : Run data start m) : n = m := by
  rcases lt_trichotomy n m with h | h | h
  · exact absurd (hm.ticks n h) hn.right
  · exact h
  · exact absurd (hn.ticks m h) hm.right

/-- No run begins inside another. -/
lemma Run.not_inside {data : List UInt8} {start n other m : ℕ} (hn : Run data start n)
    (hm : Run data other m) (hlt : start < other) : start + n ≤ other := by
  by_contra hcon
  obtain ⟨i, rfl⟩ : ∃ i, other = start + i + 1 := ⟨other - start - 1, by omega⟩
  exact hm.left (start + i) rfl (hn.ticks i (by omega))

/-! ### The scan -/

/-- Runs behind the one just passed. -/
lemma Closes.of_passed {data : List UInt8} {pos start n openticklength answer : ℕ}
    (hle : pos ≤ start) (hrun : Run data start n) (hne : n ≠ openticklength)
    (hfirst : ∀ other length, pos ≤ other → other < start → ¬ Run data other length)
    (h : Closes data (start + n) openticklength answer) :
    Closes data pos openticklength answer := by
  have hahead : ∀ other, pos ≤ other → Run data other openticklength → start + n ≤ other := by
    intro other hother hr
    rcases lt_trichotomy other start with hlt | heq | hgt
    · exact absurd hr (hfirst other _ hother hlt)
    · subst heq
      exact absurd (hrun.length_unique hr) hne
    · exact hrun.not_inside hr hgt
  rcases h with ⟨at', hat, hr, hleast, ha⟩ | ⟨ha, hnone⟩
  · refine Or.inl ⟨at', by omega, hr, ?_, ha⟩
    intro other hother hr'
    exact hleast other (hahead other hother hr') hr'
  · refine Or.inr ⟨ha, ?_⟩
    intro other hother hr'
    exact hnone other (hahead other hother hr') hr'

end MarkdownCore.Inline
