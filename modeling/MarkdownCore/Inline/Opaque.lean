import MarkdownCore.Library.Scanner
import MarkdownCore.Inline.Content

/-!
# The search for an opaque closer

A comment and the four forms of a formula have a body that nothing is read in: from its opener
the body runs to the first closing unit of its rule. An opener without a closer leaves a memo
for its rule, and a later search of that rule is answered from the memo.
-/

namespace MarkdownCore.Inline

/-- The delimiter rules with an opaque body. -/
inductive DelimiterRule where
  | comment
  | formulaDollarInline
  | formulaDollarDisplay
  | formulaLatexInline
  | formulaLatexDisplay
  deriving DecidableEq

def isWhitespace (c : UInt8) : Bool := c = 0x20 || c = 0x09 || c = 0x0a || c = 0x0d

def isdigit (c : UInt8) : Bool := 0x30 ≤ c && c ≤ 0x39

def ispunct (c : UInt8) : Bool :=
  (0x21 ≤ c && c ≤ 0x2f) || (0x3a ≤ c && c ≤ 0x40) || (0x5b ≤ c && c ≤ 0x60) ||
    (0x7b ≤ c && c ≤ 0x7e)

/-- One closer unit: `%%` closes; any other byte is one byte of body. -/
def scanCloser (data : List UInt8) (pos : ℕ) : ℕ × Bool :=
  if byteAt data pos = 0x25 ∧ pos + 1 < data.length ∧ byteAt data (pos + 1) = 0x25 then
    (2, true)
  else
    (1, false)

/-- `slashCount` backslashes and the byte that closes. -/
def scanBackslashClose (data : List UInt8) (offset : ℕ) (closeChar : UInt8)
    (slashCount : ℕ) : ℕ :=
  if offset + slashCount + 1 > data.length then 0
  else if (List.range slashCount).any fun i => byteAt data (offset + i) ≠ 0x5c then 0
  else if byteAt data (offset + slashCount) = closeChar then slashCount + 1
  else 0

/-- An escaped punctuation character is one unit of body, any other byte another. -/
def scanEscape (data : List UInt8) (pos : ℕ) : ℕ × Bool :=
  if byteAt data pos = 0x5c ∧ pos + 1 < data.length ∧ ispunct (byteAt data (pos + 1)) then
    (2, false)
  else
    (1, false)

/-- What closes a body between backslash delimiters. -/
def closeChar (rule : DelimiterRule) : UInt8 :=
  if rule = .formulaLatexInline then 0x29 else 0x5d

/-- A body's delimiter units, recognized before any other inline syntax. -/
def scanFormulaCloser (data : List UInt8) (pos : ℕ) (rule : DelimiterRule) : ℕ × Bool :=
  if rule = .formulaLatexInline ∨ rule = .formulaLatexDisplay then
    let width := scanBackslashClose data pos (closeChar rule) 2
    if width ≠ 0 then (width, true) else scanEscape data pos
  else if byteAt data pos = 0x24 then
    let pair := decide (pos + 1 < data.length ∧ byteAt data (pos + 1) = 0x24)
    let closes :=
      if rule = .formulaDollarDisplay then pair
      else if !pair then
        decide (0 < pos) && !isWhitespace (byteAt data (pos - 1)) &&
          (decide (pos + 1 = data.length) || !isdigit (byteAt data (pos + 1)))
      else false
    (if pair then 2 else 1, closes)
  else
    scanEscape data pos

/-- The closer scanner an element gives with its rule. -/
def scanRule (data : List UInt8) (rule : DelimiterRule) (pos : ℕ) : ℕ × Bool :=
  match rule with
  | .comment => scanCloser data pos
  | rule => scanFormulaCloser data pos rule

lemma scanEscape_pos (data : List UInt8) (pos : ℕ) : 0 < (scanEscape data pos).1 := by
  unfold scanEscape
  split <;> simp

lemma scanFormulaCloser_pos (data : List UInt8) (pos : ℕ) (rule : DelimiterRule) :
    0 < (scanFormulaCloser data pos rule).1 := by
  unfold scanFormulaCloser
  split
  · dsimp only
    split
    · exact Nat.pos_of_ne_zero ‹_›
    · exact scanEscape_pos data pos
  · split
    · dsimp only
      split <;> simp
    · exact scanEscape_pos data pos

lemma scanRule_pos (data : List UInt8) (rule : DelimiterRule) (pos : ℕ) :
    0 < (scanRule data rule pos).1 := by
  cases rule with
  | comment =>
    simp only [scanRule, scanCloser]
    split <;> simp
  | _ => exact scanFormulaCloser_pos data pos _

/-- The units of a rule. -/
def ruleScanner (data : List UInt8) (rule : DelimiterRule) : Scanner where
  width pos := (scanRule data rule pos).1
  closes pos := (scanRule data rule pos).2
  width_pos := scanRule_pos data rule

/-- `opaque_failed_from`: for each rule one more than where a search failed, or `0`. -/
abbrev FailedFrom := DelimiterRule → ℕ

/-- The answer, none for `-1`, and the memo after it. -/
def findOpaqueClose (input : Content) (failedFrom : FailedFrom) (rule : DelimiterRule)
    (start : ℕ) : Option ℕ × FailedFrom :=
  if failedFrom rule ≠ 0 ∧ failedFrom rule - 1 ≤ start then
    (none, failedFrom)
  else
    match (ruleScanner input.data rule).search input.data.length start with
    | some pos => (some pos, failedFrom)
    | none => (none, fun other => if other = rule then start + 1 else failedFrom other)

/-! ### The memo -/

/-- Whatever the memo has kept is a search that failed. -/
def Remembers (input : Content) (failedFrom : FailedFrom) : Prop :=
  ∀ rule start, failedFrom rule = start + 1 →
    (ruleScanner input.data rule).search input.data.length start = none

/-- A query keeps the memo sound. -/
lemma Remembers.findOpaqueClose {input : Content} {failedFrom : FailedFrom}
    (h : Remembers input failedFrom) (rule : DelimiterRule) (start : ℕ) :
    Remembers input (findOpaqueClose input failedFrom rule start).2 := by
  unfold Inline.findOpaqueClose
  split
  · exact h
  · cases hsearch : (ruleScanner input.data rule).search input.data.length start with
    | some pos => exact h
    | none =>
      intro other place hplace
      dsimp only at hplace
      by_cases heq : other = rule
      · rw [if_pos heq] at hplace
        obtain rfl : start = place := by omega
        rw [heq]
        exact hsearch
      · rw [if_neg heq] at hplace
        exact h other place hplace

/-- From a position that splits no unit of the rule the memo changes nothing. -/
lemma findOpaqueClose_eq {input : Content} {failedFrom : FailedFrom}
    (h : Remembers input failedFrom) {rule : DelimiterRule} {start : ℕ}
    (hwhole : ¬ (ruleScanner input.data rule).Splits start) :
    (findOpaqueClose input failedFrom rule start).1 =
      (ruleScanner input.data rule).search input.data.length start := by
  unfold findOpaqueClose
  split
  · rename_i hfailed
    obtain ⟨place, hplace⟩ : ∃ place, failedFrom rule = place + 1 :=
      Nat.exists_eq_succ_of_ne_zero hfailed.1
    have hle : place ≤ start := by
      have := hfailed.2
      omega
    exact (Scanner.search_none_of_le (h rule place hplace) hle hwhole).symm
  · cases hsearch : (ruleScanner input.data rule).search input.data.length start <;> rfl

/-! ### Where the elements search from -/

/-- The opener of a rule as its element takes it, from its first byte: a pair of dollars is
always a display opener. The number is its width. -/
def openerWidth (data : List UInt8) (rule : DelimiterRule) (pos : ℕ) : ℕ :=
  match rule with
  | .comment =>
    if byteAt data pos = 0x25 ∧ byteAt data (pos + 1) = 0x25 then 2 else 0
  | .formulaDollarDisplay =>
    if byteAt data pos = 0x24 ∧ byteAt data (pos + 1) = 0x24 then 2 else 0
  | .formulaDollarInline =>
    if byteAt data pos = 0x24 ∧ byteAt data (pos + 1) ≠ 0x24 then 1 else 0
  | .formulaLatexInline =>
    if byteAt data pos = 0x5c ∧ byteAt data (pos + 1) = 0x5c ∧ byteAt data (pos + 2) = 0x28
    then 3 else 0
  | .formulaLatexDisplay =>
    if byteAt data pos = 0x5c ∧ byteAt data (pos + 1) = 0x5c ∧ byteAt data (pos + 2) = 0x5b
    then 3 else 0

/-- The two ways a unit that does not close is wider than a byte. -/
lemma splits_cases {data : List UInt8} {rule : DelimiterRule} {pos : ℕ}
    (h : (ruleScanner data rule).Splits (pos + 1)) :
    byteAt data pos = 0x5c ∧ rule ≠ .comment ∨
      rule = .formulaDollarInline ∧ byteAt data pos = 0x24 ∧ byteAt data (pos + 1) = 0x24 := by
  obtain ⟨unit, hcloses, hlt, hin⟩ := h
  have hescape : (scanEscape data unit).1 > 1 →
      byteAt data unit = 0x5c ∧ (scanEscape data unit).1 = 2 := by
    unfold scanEscape
    split
    · rename_i hc
      exact fun _ => ⟨hc.1, rfl⟩
    · simp
  have hone : ∀ w, w = 2 → unit < pos + 1 → pos + 1 < unit + w → unit = pos := by omega
  cases rule with
  | comment =>
    simp only [ruleScanner, scanRule, scanCloser] at hcloses hin
    split at hcloses
    · simp at hcloses
    · rename_i hc
      rw [if_neg hc] at hin
      dsimp only at hin
      omega
  | formulaLatexInline =>
    simp only [ruleScanner, scanRule, scanFormulaCloser, true_or, if_true] at hcloses hin
    split at hcloses
    · simp at hcloses
    · rename_i hc
      rw [if_neg hc] at hin
      obtain ⟨hb, hw⟩ := hescape (by omega)
      obtain rfl := hone _ hw hlt hin
      exact Or.inl ⟨hb, by simp⟩
  | formulaLatexDisplay =>
    simp only [ruleScanner, scanRule, scanFormulaCloser, or_true, if_true] at hcloses hin
    split at hcloses
    · simp at hcloses
    · rename_i hc
      rw [if_neg hc] at hin
      obtain ⟨hb, hw⟩ := hescape (by omega)
      obtain rfl := hone _ hw hlt hin
      exact Or.inl ⟨hb, by simp⟩
  | formulaDollarInline =>
    simp only [ruleScanner, scanRule, scanFormulaCloser, reduceCtorEq, or_self, if_false]
      at hcloses hin
    by_cases hdollar : byteAt data unit = 0x24
    · rw [if_pos hdollar] at hcloses hin
      by_cases hpair : unit + 1 < data.length ∧ byteAt data (unit + 1) = 0x24
      · simp only [hpair, and_self, decide_true, if_true] at hin
        obtain rfl : unit = pos := by omega
        exact Or.inr ⟨rfl, hdollar, hpair.2⟩
      · simp only [hpair, decide_false, Bool.false_eq_true, if_false] at hin
        omega
    · rw [if_neg hdollar] at hin
      obtain ⟨hb, hw⟩ := hescape (by omega)
      obtain rfl := hone _ hw hlt hin
      exact Or.inl ⟨hb, by simp⟩
  | formulaDollarDisplay =>
    simp only [ruleScanner, scanRule, scanFormulaCloser, reduceCtorEq, or_self, if_false, if_true]
      at hcloses hin
    by_cases hdollar : byteAt data unit = 0x24
    · rw [if_pos hdollar] at hcloses hin
      dsimp only at hcloses hin
      rw [hcloses] at hin
      simp only [Bool.false_eq_true, if_false] at hin
      omega
    · rw [if_neg hdollar] at hin
      obtain ⟨hb, hw⟩ := hescape (by omega)
      obtain rfl := hone _ hw hlt hin
      exact Or.inl ⟨hb, by simp⟩

/-- No unit is split behind an opener of its rule. -/
lemma not_splits_opener {data : List UInt8} {rule : DelimiterRule} {pos : ℕ}
    (h : openerWidth data rule pos ≠ 0) :
    ¬ (ruleScanner data rule).Splits (pos + openerWidth data rule pos) := by
  intro hsplits
  cases rule with
  | comment =>
    simp only [openerWidth] at h hsplits
    split at h
    · rename_i hc
      rw [if_pos hc] at hsplits
      rcases splits_cases hsplits with ⟨_, hne⟩ | ⟨hne, _⟩
      · exact hne rfl
      · simp at hne
    · exact h rfl
  | formulaDollarDisplay =>
    simp only [openerWidth] at h hsplits
    split at h
    · rename_i hc
      rw [if_pos hc] at hsplits
      rcases splits_cases hsplits with ⟨hb, _⟩ | ⟨hne, _⟩
      · simp [hc.2] at hb
      · simp at hne
    · exact h rfl
  | formulaDollarInline =>
    simp only [openerWidth] at h hsplits
    split at h
    · rename_i hc
      rw [if_pos hc] at hsplits
      rcases splits_cases hsplits with ⟨hb, _⟩ | ⟨_, _, hb⟩
      · simp [hc.1] at hb
      · exact hc.2 hb
    · exact h rfl
  | formulaLatexInline =>
    simp only [openerWidth] at h hsplits
    split at h
    · rename_i hc
      rw [if_pos hc] at hsplits
      rcases splits_cases hsplits with ⟨hb, _⟩ | ⟨hne, _⟩
      · simp [hc.2.2] at hb
      · simp at hne
    · exact h rfl
  | formulaLatexDisplay =>
    simp only [openerWidth] at h hsplits
    split at h
    · rename_i hc
      rw [if_pos hc] at hsplits
      rcases splits_cases hsplits with ⟨hb, _⟩ | ⟨hne, _⟩
      · simp [hc.2.2] at hb
      · simp at hne
    · exact h rfl

/-! ### Runs of queries -/

/-- A search an element asks for. -/
structure OpaqueQuery where
  rule : DelimiterRule
  start : ℕ

/-- The answers to a sequence of queries. -/
def opaqueAnswers (input : Content) : FailedFrom → List OpaqueQuery → List (Option ℕ)
  | _, [] => []
  | failedFrom, query :: queries =>
    let find := findOpaqueClose input failedFrom query.rule query.start
    find.1 :: opaqueAnswers input find.2 queries

/-- An answer is the one of a search without the memo, wherever its query splits no unit. -/
def Honest (input : Content) (query : OpaqueQuery) (answer : Option ℕ) : Prop :=
  ¬ (ruleScanner input.data query.rule).Splits query.start →
    answer = (ruleScanner input.data query.rule).search input.data.length query.start

lemma honest_of_remembers (input : Content) (queries : List OpaqueQuery) :
    ∀ failedFrom : FailedFrom, Remembers input failedFrom →
      List.Forall₂ (Honest input) queries (opaqueAnswers input failedFrom queries) := by
  induction queries with
  | nil =>
    intro failedFrom _
    exact List.Forall₂.nil
  | cons query queries ih =>
    intro failedFrom hmemo
    apply List.Forall₂.cons
    · intro hwhole
      exact findOpaqueClose_eq hmemo hwhole
    · exact ih _ (hmemo.findOpaqueClose query.rule query.start)

/-- In every sequence of queries from any offsets in any order, each query that begins in the
middle of no unit of its rule is answered as a search without the memo answers it, and so is
each one that begins behind an opener of its rule. -/
theorem opaque_of_run (input : Content) (queries : List OpaqueQuery) :
    List.Forall₂ (Honest input) queries (opaqueAnswers input (fun _ => 0) queries) ∧
      ∀ rule pos, openerWidth input.data rule pos ≠ 0 →
        ¬ (ruleScanner input.data rule).Splits (pos + openerWidth input.data rule pos) := by
  constructor
  · apply honest_of_remembers
    intro rule start hstart
    simp at hstart
  · intro rule pos hopener
    exact not_splits_opener hopener

/-- Three backslashes and a parenthesis. -/
def shiftedEscape : Content where
  data := [0x5c, 0x5c, 0x5c, 0x29]
  clean := by decide

/-- The second backslash is the middle of an escape for the search from 0, which fails, and a
closer stands at it. -/
theorem opaque_shifted :
    opaqueAnswers shiftedEscape (fun _ => 0)
        [⟨.formulaLatexInline, 0⟩, ⟨.formulaLatexInline, 1⟩] = [none, none] ∧
      (ruleScanner shiftedEscape.data .formulaLatexInline).search
        shiftedEscape.data.length 1 = some 1 := by
  decide

end MarkdownCore.Inline
