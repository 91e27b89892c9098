import Mathlib.Data.Nat.Basic
import Mathlib.Tactic.Common

/-!
# Searching by steps

A scanner reads the unit at a position and says how wide it is and whether it closes. A search
goes from unit to unit until one closes. Which units it meets depends on where it begins: a
position in the middle of a unit is met by no search that has taken the unit whole. A position
that splits no unit is met by every search that passes it, and so a search that has failed
fails from there as well.
-/

namespace MarkdownCore

/-- The units of a text. Every one of them has a width. -/
structure Scanner where
  width : ℕ → ℕ
  closes : ℕ → Bool
  width_pos : ∀ pos, 0 < width pos

namespace Scanner

/-- The search in at most so many steps. -/
def walk (scan : Scanner) (length : ℕ) : ℕ → ℕ → Option ℕ
  | 0, _ => none
  | steps + 1, pos =>
    if length ≤ pos then none
    else if scan.closes pos then some pos
    else walk scan length steps (pos + scan.width pos)

/-- The first unit from `start` on that closes. -/
def search (scan : Scanner) (length start : ℕ) : Option ℕ :=
  scan.walk length (length - start) start

/-- The positions a search meets as long as nothing closes. -/
inductive Meets (scan : Scanner) (start : ℕ) : ℕ → Prop
  | start : Meets scan start start
  | step {pos : ℕ} : Meets scan start pos → scan.closes pos = false →
      Meets scan start (pos + scan.width pos)

/-- A position in the middle of a unit that does not close. -/
def Splits (scan : Scanner) (pos : ℕ) : Prop :=
  ∃ unit, scan.closes unit = false ∧ unit < pos ∧ pos < unit + scan.width unit

lemma Meets.trans {scan : Scanner} {a b c : ℕ} (hab : Meets scan a b) (hbc : Meets scan b c) :
    Meets scan a c := by
  induction hbc with
  | start => exact hab
  | step _ hcloses ih => exact ih.step hcloses

lemma Meets.le {scan : Scanner} {a b : ℕ} (h : Meets scan a b) : a ≤ b := by
  induction h with
  | start => exact le_rfl
  | step _ _ ih => exact Nat.le_trans ih (Nat.le_add_right _ _)

/-- The first step is the only way on. -/
lemma Meets.first_step {scan : Scanner} {a b : ℕ} (h : Meets scan a b) :
    b = a ∨ Meets scan (a + scan.width a) b := by
  induction h with
  | start => exact Or.inl rfl
  | step _ hcloses ih =>
    rcases ih with rfl | hmeets
    · exact Or.inr .start
    · exact Or.inr (hmeets.step hcloses)

/-- With steps for what is left of the text, the walk fails only if it meets no closer. -/
lemma walk_eq_none (scan : Scanner) (length steps : ℕ) :
    ∀ start, length ≤ start + steps →
      (scan.walk length steps start = none ↔
        ∀ pos, Meets scan start pos → pos < length → scan.closes pos = false) := by
  induction steps with
  | zero =>
    intro start hsteps
    refine iff_of_true rfl fun pos hmeets hlt => ?_
    have := hmeets.le
    omega
  | succ steps ih =>
    intro start hsteps
    simp only [walk]
    split
    · rename_i hend
      refine iff_of_true rfl fun pos hmeets hlt => ?_
      have := hmeets.le
      omega
    · rename_i hend
      cases hcloses : scan.closes start with
      | true =>
        simp only [if_true]
        refine iff_of_false (by simp) fun hnone => ?_
        rw [hnone start .start (by omega)] at hcloses
        exact Bool.noConfusion hcloses
      | false =>
        have hpos := scan.width_pos start
        simp only [Bool.false_eq_true, if_false]
        rw [ih _ (by omega)]
        constructor
        · intro hnone pos hmeets hlt
          rcases hmeets.first_step with rfl | hm
          · exact hcloses
          · exact hnone pos hm hlt
        · intro hnone pos hmeets hlt
          exact hnone pos ((Meets.start.step hcloses).trans hmeets) hlt

lemma search_eq_none (scan : Scanner) (length start : ℕ) :
    scan.search length start = none ↔
      ∀ pos, Meets scan start pos → pos < length → scan.closes pos = false :=
  scan.walk_eq_none length _ start (by omega)

/-- From a start the positions met are on one line. -/
lemma Meets.linear {scan : Scanner} {start a b : ℕ} (ha : Meets scan start a)
    (hb : Meets scan start b) : Meets scan a b ∨ Meets scan b a := by
  induction ha with
  | start => exact Or.inl hb
  | @step pos hpos hcloses ih =>
    rcases ih with h | h
    · rcases h.first_step with rfl | hm
      · exact Or.inr (Meets.start.step hcloses)
      · exact Or.inl hm
    · exact Or.inr (h.step hcloses)

/-- Behind a position that is met, the next one is a whole unit on, and nothing is behind one
that closes. -/
lemma Meets.of_lt {scan : Scanner} {start a b : ℕ} (ha : Meets scan start a)
    (hb : Meets scan start b) (hlt : a < b) :
    scan.closes a = false ∧ a + scan.width a ≤ b := by
  have hab : Meets scan a b := by
    rcases ha.linear hb with h | h
    · exact h
    · have := h.le
      omega
  clear ha hb
  induction hab with
  | start => omega
  | @step pos hpos hcloses ih =>
    rcases Nat.eq_or_lt_of_le hpos.le with heq | hbefore
    · subst heq
      exact ⟨hcloses, le_rfl⟩
    · obtain ⟨h, hle⟩ := ih hbefore
      exact ⟨h, by omega⟩

/-- A search that closes nothing before a position meets it if it splits no unit. -/
lemma Meets.of_not_splits {scan : Scanner} {start pos : ℕ}
    (hnone : ∀ unit, Meets scan start unit → unit < pos → scan.closes unit = false)
    (hle : start ≤ pos) (hwhole : ¬ scan.Splits pos) : Meets scan start pos := by
  -- from the last position met at or before `pos`
  have hlast : ∀ n, ∀ unit, Meets scan start unit → unit ≤ pos → pos - unit ≤ n →
      Meets scan start pos := by
    intro n
    induction n with
    | zero =>
      intro unit hmeets hunit hn
      obtain rfl : unit = pos := by omega
      exact hmeets
    | succ n ih =>
      intro unit hmeets hunit hn
      rcases Nat.eq_or_lt_of_le hunit with rfl | hbefore
      · exact hmeets
      · have hcloses := hnone unit hmeets hbefore
        have hpos := scan.width_pos unit
        have hend : unit + scan.width unit ≤ pos := by
          by_contra hcon
          exact hwhole ⟨unit, hcloses, hbefore, by omega⟩
        exact ih _ (hmeets.step hcloses) hend (by omega)
  exact hlast _ start .start hle le_rfl

/-- What a search answers is the one position it meets that closes. -/
lemma search_eq_some (scan : Scanner) (length start pos : ℕ) :
    scan.search length start = some pos ↔
      Meets scan start pos ∧ pos < length ∧ scan.closes pos = true := by
  have hfound : ∀ steps start pos, scan.walk length steps start = some pos →
      Meets scan start pos ∧ pos < length ∧ scan.closes pos = true := by
    intro steps
    induction steps with
    | zero =>
      intro start pos h
      simp [walk] at h
    | succ steps ih =>
      intro start pos h
      simp only [walk] at h
      by_cases hend : length ≤ start
      · simp [hend] at h
      · rw [if_neg hend] at h
        cases hcloses : scan.closes start with
        | true =>
          simp only [hcloses, if_true, Option.some.injEq] at h
          subst h
          exact ⟨.start, by omega, hcloses⟩
        | false =>
          simp only [hcloses, Bool.false_eq_true, if_false] at h
          obtain ⟨hmeets, hrest⟩ := ih _ _ h
          exact ⟨(Meets.start.step hcloses).trans hmeets, hrest⟩
  constructor
  · exact hfound _ start pos
  · rintro ⟨hmeets, hlt, hcloses⟩
    cases hsearch : scan.search length start with
    | none =>
      rw [(scan.search_eq_none length start).mp hsearch pos hmeets hlt] at hcloses
      simp at hcloses
    | some other =>
      obtain ⟨hother, _, hclosesOther⟩ := hfound _ start other hsearch
      rcases lt_trichotomy other pos with h | h | h
      · rw [(hother.of_lt hmeets h).1] at hclosesOther
        simp at hclosesOther
      · rw [h]
      · rw [(hmeets.of_lt hother h).1] at hcloses
        simp at hcloses

lemma search_of_closes (scan : Scanner) {length pos : ℕ} (hlt : pos < length)
    (hcloses : scan.closes pos = true) : scan.search length pos = some pos :=
  (scan.search_eq_some length pos pos).mpr ⟨.start, hlt, hcloses⟩

lemma search_of_le (scan : Scanner) {length pos : ℕ} (hle : length ≤ pos) :
    scan.search length pos = none := by
  rw [search_eq_none]
  intro other hmeets hlt
  exact absurd (Nat.lt_of_le_of_lt hmeets.le hlt) (Nat.not_lt.mpr hle)

/-- A search goes on behind a unit that does not close. -/
lemma search_step (scan : Scanner) {length pos : ℕ} (hcloses : scan.closes pos = false) :
    scan.search length pos = scan.search length (pos + scan.width pos) := by
  have hmeets : ∀ other, scan.closes other = true →
      (Meets scan pos other ↔ Meets scan (pos + scan.width pos) other) := by
    intro other hother
    constructor
    · intro h
      rcases h.first_step with rfl | hm
      · rw [hcloses] at hother
        exact Bool.noConfusion hother
      · exact hm
    · exact fun h => (Meets.start.step hcloses).trans h
  apply Option.ext
  intro other
  rw [search_eq_some, search_eq_some]
  constructor
  · exact fun h => ⟨(hmeets other h.2.2).mp h.1, h.2⟩
  · exact fun h => ⟨(hmeets other h.2.2).mpr h.1, h.2⟩

/-- Every position a search passes lies in a unit that it meets. -/
lemma Meets.exists_unit {scan : Scanner} {start stop pos : ℕ} (h : Meets scan start stop)
    (hle : start ≤ pos) (hlt : pos < stop) :
    ∃ unit, Meets scan start unit ∧ scan.closes unit = false ∧ unit ≤ pos ∧
      pos < unit + scan.width unit := by
  induction h with
  | start => exact absurd hlt (Nat.not_lt.mpr hle)
  | @step unit hunit hcloses ih =>
    rcases Nat.lt_or_ge pos unit with hbefore | hbehind
    · exact ih hbefore
    · exact ⟨unit, hunit, hcloses, hbehind, hlt⟩

/-- In a shorter text a search finds what it finds in the longer one, if that is in it. -/
lemma search_shorter (scan : Scanner) {length longer : ℕ} (hle : length ≤ longer) (pos : ℕ) :
    scan.search length pos = (scan.search longer pos).filter (fun found => found < length) := by
  apply Option.ext
  intro found
  rw [Option.filter_eq_some_iff, search_eq_some, search_eq_some, decide_eq_true_eq]
  constructor
  · exact fun h => ⟨⟨h.1, Nat.lt_of_lt_of_le h.2.1 hle, h.2.2⟩, h.2.1⟩
  · exact fun h => ⟨h.1.1, h.2, h.1.2.2⟩

/-- Two scanners find the same where they differ only in how far they pass the text's end. -/
lemma search_congr (scan other : Scanner) {length : ℕ}
    (hcloses : ∀ pos < length, scan.closes pos = other.closes pos)
    (hwidth : ∀ pos < length, scan.width pos = other.width pos ∨
      (length ≤ pos + scan.width pos ∧ length ≤ pos + other.width pos)) (pos : ℕ) :
    scan.search length pos = other.search length pos := by
  have hall : ∀ left pos, length - pos ≤ left →
      scan.search length pos = other.search length pos := by
    intro left
    induction left with
    | zero =>
      intro pos hleft
      rw [search_of_le scan (by omega), search_of_le other (by omega)]
    | succ left ih =>
      intro pos hleft
      rcases Nat.lt_or_ge pos length with hlt | hge
      · cases hc : scan.closes pos with
        | true =>
          have ho : other.closes pos = true := by rw [← hcloses pos hlt, hc]
          rw [search_of_closes scan hlt hc, search_of_closes other hlt ho]
        | false =>
          have ho : other.closes pos = false := by rw [← hcloses pos hlt, hc]
          rw [search_step scan hc, search_step other ho]
          have hpos := scan.width_pos pos
          rcases hwidth pos hlt with heq | ⟨hs, ho'⟩
          · rw [← heq]
            exact ih _ (by omega)
          · rw [search_of_le scan hs, search_of_le other ho']
      · rw [search_of_le scan hge, search_of_le other hge]
  exact hall _ pos le_rfl

/-- A search that closes nothing comes so far that the next unit ends behind the text. -/
lemma exists_last (scan : Scanner) {length start : ℕ}
    (hnone : scan.search length start = none) (hle : start ≤ length) :
    ∃ pos, Meets scan start pos ∧ pos ≤ length ∧ length < pos + scan.width pos := by
  rw [search_eq_none] at hnone
  by_contra hcon
  simp only [not_exists, not_and, not_lt] at hcon
  -- otherwise every position met leads to one further on, and none is past the text
  have hfar : ∀ n, ∃ pos, Meets scan start pos ∧ pos ≤ length ∧ n ≤ pos := by
    intro n
    induction n with
    | zero => exact ⟨start, .start, hle, Nat.zero_le _⟩
    | succ n ih =>
      obtain ⟨pos, hmeets, hpos, hn⟩ := ih
      have hwidth := scan.width_pos pos
      have hnext := hcon pos hmeets hpos
      exact ⟨_, hmeets.step (hnone pos hmeets (by omega)), hnext, by omega⟩
  obtain ⟨pos, _, hpos, hn⟩ := hfar (length + 1)
  omega

/-- A search that has failed fails from every later position that splits no unit. -/
theorem search_none_of_le {scan : Scanner} {length start pos : ℕ}
    (hnone : scan.search length start = none) (hle : start ≤ pos)
    (hwhole : ¬ scan.Splits pos) : scan.search length pos = none := by
  rw [search_eq_none] at hnone ⊢
  intro unit hmeets hlt
  have hpos : pos < length := lt_of_le_of_lt hmeets.le hlt
  refine hnone unit ((Meets.of_not_splits ?_ hle hwhole).trans hmeets) hlt
  intro before hbefore hlt'
  exact hnone before hbefore (Nat.lt_trans hlt' hpos)

end Scanner

end MarkdownCore
