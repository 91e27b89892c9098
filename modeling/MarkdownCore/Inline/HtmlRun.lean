import MarkdownCore.Inline.HtmlScan

/-!
# Runs of scans

Scans at increasing positions share one flag word. A scan answers what the grammar defines
unless the marks before the closer put its units out of step, or an unclosed comment has been
met before and the construct is a CDATA section or a declaration.
-/

namespace MarkdownCore.Inline

variable {data : List UInt8} {pos : ℕ}

/-- A construct that does not close. -/
def Unclosed (data : List UInt8) (pos : ℕ) (c : Construct) : Prop :=
  constructAt data pos = some c ∧ constructEnd data pos c = none

/-- A body closes behind its opener. -/
lemma le_constructEnd {c : Construct} {e : ℕ} (h : constructEnd data pos c = some e) :
    pos < e := by
  have hmap : ∀ closer start k, pos ≤ start → 0 < k →
      (firstCloser closer data start).map (· + k) = some e → pos < e := by
    intro closer start k hstart hk hmap
    obtain ⟨at', hat, rfl⟩ := Option.map_eq_some_iff.mp hmap
    have := (firstCloser_eq_some.mp hat).1
    omega
  cases c with
  | comment =>
    simp only [constructEnd] at h
    split at h
    · simp only [Option.some.injEq] at h
      omega
    · split at h
      · simp only [Option.some.injEq] at h
        omega
      · exact hmap _ _ _ (by omega) (by omega) h
  | instruction => exact hmap _ _ _ (by omega) (by omega) h
  | cdata => exact hmap _ _ _ (by omega) (by omega) h
  | declaration => exact hmap _ _ _ (by omega) (by omega) h

lemma lt_reached {c : Construct} {e : ℕ} (h : reached data pos c = some e) : pos < e := by
  have hmap : ∀ mark count start k, pos ≤ start → 0 < k →
      ((bodyScanner mark count data).search data.length start).map (· + k) = some e →
        pos < e := by
    intro mark count start k hstart hk hmap
    obtain ⟨at', hat, rfl⟩ := Option.map_eq_some_iff.mp hmap
    have := ((Scanner.search_eq_some _ _ _ _).mp hat).1.le
    omega
  cases c with
  | comment =>
    simp only [reached] at h
    split at h
    · simp only [Option.some.injEq] at h
      omega
    · split at h
      · simp only [Option.some.injEq] at h
        omega
      · exact hmap _ _ _ _ (by omega) (by omega) h
  | instruction => exact hmap _ _ _ _ (by omega) (by omega) h
  | cdata => exact hmap _ _ _ _ (by omega) (by omega) h
  | declaration => exact le_constructEnd (c := .declaration) h

/-- Lengths tell ends behind the position apart. -/
lemma lengthTo_inj {a b : Option ℕ} (ha : ∀ e, a = some e → pos < e)
    (hb : ∀ e, b = some e → pos < e) : lengthTo pos a = lengthTo pos b ↔ a = b := by
  cases a with
  | none =>
    cases b with
    | none => simp
    | some e =>
      have := hb e rfl
      simp only [lengthTo, reduceCtorEq, iff_false]
      omega
  | some d =>
    have := ha d rfl
    cases b with
    | none =>
      simp only [lengthTo, reduceCtorEq, iff_false]
      omega
    | some e =>
      have := hb e rfl
      simp only [lengthTo, Option.some.injEq]
      omega

lemma startsWith_of_comment (h : constructAt data pos = some .comment) :
    startsWith [0x21, 0x2d, 0x2d] data pos = true := by
  by_contra hcon
  rw [Bool.not_eq_true] at hcon
  rw [constructAt, hcon, if_neg (by simp)] at h
  split at h
  · simp at h
  · split at h
    · simp at h
    · split at h <;> simp at h

/-- A construct that is left open has no closer ahead, so a later one of its kind is open as
well. -/
lemma Unclosed.later {before : ℕ} {c : Construct} (h : Unclosed data before c)
    (hlt : before < pos) (hc : constructAt data pos = some c) :
    constructEnd data pos c = none := by
  have hnone : ∀ closer a b k, closer ≠ [] → a ≤ b →
      (firstCloser closer data a).map (· + k) = none →
        (firstCloser closer data b).map (· + k) = none := by
    intro closer a b k hne hle hmap
    rw [Option.map_eq_none_iff, firstCloser_eq_none hne] at hmap ⊢
    exact fun at' hat => hmap at' (by omega)
  obtain ⟨hat, hend⟩ := h
  cases c with
  | comment =>
    -- the opener further on is behind the whole of this one's
    have hbefore := startsWith_of_comment hat
    have hopens := startsWith_of_comment hc
    have hmark : byteAt data pos = 0x21 := byteAt_of_startsWith (i := 0) hopens (by simp)
    have hnot1 : pos ≠ before + 1 := by
      rintro rfl
      have h1 : byteAt data (before + 1) = 0x2d :=
        byteAt_of_startsWith (i := 1) hbefore (by simp)
      rw [h1] at hmark
      exact absurd hmark (by decide)
    have hnot2 : pos ≠ before + 2 := by
      rintro rfl
      have h2 : byteAt data (before + 2) = 0x2d :=
        byteAt_of_startsWith (i := 2) hbefore (by simp)
      rw [h2] at hmark
      exact absurd hmark (by decide)
    simp only [constructEnd] at hend ⊢
    split at hend
    · simp at hend
    · split at hend
      · simp at hend
      · rw [Option.map_eq_none_iff, firstCloser_eq_none (by simp)] at hend
        have htail := ((startsWith_cons (by decide)).mp hopens).2
        have hdash := (startsWith_cons (by decide)).mp htail
        have hdash2 := (startsWith_cons (by decide)).mp hdash.2
        have hshort : startsWith [0x3e] data (pos + 3) = false := by
          rw [← Bool.not_eq_true]
          intro hcon
          have hcloser : startsWith [0x2d, 0x2d, 0x3e] data (pos + 1) = true := by
            rw [startsWith_cons (by decide), startsWith_cons (by decide)]
            exact ⟨hdash.1, hdash2.1, hcon⟩
          rw [hend (pos + 1) (by omega)] at hcloser
          simp at hcloser
        have hshorter : startsWith [0x2d, 0x3e] data (pos + 3) = false := by
          rw [← Bool.not_eq_true]
          intro hcon
          have hcloser : startsWith [0x2d, 0x2d, 0x3e] data (pos + 2) = true := by
            rw [startsWith_cons (by decide)]
            exact ⟨hdash2.1, hcon⟩
          rw [hend (pos + 2) (by omega)] at hcloser
          simp at hcloser
        rw [hshort, hshorter, if_neg (by simp), if_neg (by simp), Option.map_eq_none_iff,
          firstCloser_eq_none (by simp)]
        exact fun at' hat' => hend at' (by omega)
  | instruction => exact hnone _ _ _ _ (by simp) (by omega) hend
  | cdata => exact hnone _ _ _ _ (by simp) (by omega) hend
  | declaration => exact hnone _ _ _ _ (by simp) (by omega) hend

/-! ### The flags -/

/-- The flag a construct sets. -/
def HtmlFlags.own (flags : HtmlFlags) : Construct → Bool
  | .comment => flags.skipComment
  | .instruction => flags.skipPi
  | .cdata => flags.skipCdata
  | .declaration => flags.skipDeclaration

/-- Each flag that is set stands for a construct left open before, and every comment left open
has set its flag. -/
structure FlagsSound (data : List UInt8) (flags : HtmlFlags) (earlier : List ℕ) : Prop where
  own : ∀ c, flags.own c = true → ∃ before ∈ earlier, Unclosed data before c
  comment : ∀ before ∈ earlier, Unclosed data before .comment → flags.skipComment = true

lemma own_set (flags : HtmlFlags) (c d : Construct) :
    (flags.set c).own d = (decide (d = c) || flags.own d) := by
  cases c <;> cases d <;> simp [HtmlFlags.set, HtmlFlags.own]

/-- What the grammar asks of a scan of one construct. -/
lemma grammatical_iff {c : Construct} (hc : constructAt data pos = some c) (answer : ℕ) :
    Grammatical data pos answer ↔ answer = lengthTo pos (constructEnd data pos c) := by
  constructor
  · exact fun h => h c hc
  · intro h d hd
    rw [hc, Option.some.injEq] at hd
    rw [← hd]
    exact h

/-- A right answer leaves the flags sound. -/
lemma FlagsSound.step {flags : HtmlFlags} {earlier : List ℕ} (hclean : 0 ∉ data)
    (hsound : FlagsSound data flags earlier)
    (hright : Grammatical data pos (scanInlineHtml data pos flags).1) :
    FlagsSound data (scanInlineHtml data pos flags).2.1 (pos :: earlier) := by
  have hkeep : ∀ c, flags.own c = true → ∃ before ∈ pos :: earlier, Unclosed data before c := by
    intro c hown
    obtain ⟨before, hmem, hopen⟩ := hsound.own c hown
    exact ⟨before, List.mem_cons_of_mem _ hmem, hopen⟩
  cases hc : constructAt data pos with
  | none =>
    rw [flags_of_no_construct flags hc]
    refine ⟨hkeep, ?_⟩
    intro before hmem hopen
    rcases List.mem_cons.mp hmem with rfl | hmem
    · rw [hopen.1] at hc
      simp at hc
    · exact hsound.comment before hmem hopen
  | some c =>
    obtain ⟨hanswer, hflags⟩ := scanned_of_construct hclean flags hc
    rw [grammatical_iff hc, hanswer] at hright
    rw [hflags]
    unfold flagsAfter
    split
    · rename_i hsame
      refine ⟨hkeep, ?_⟩
      intro before hmem hopen
      rcases List.mem_cons.mp hmem with rfl | hmem
      · -- a comment left open is looked at, or its flag is set already
        obtain ⟨hat, hend⟩ := hopen
        rw [hc, Option.some.injEq] at hat
        subst hat
        rcases hsame with hskips | hreached | hlen
        · exact hskips
        · obtain ⟨e, he⟩ := Option.isSome_iff_exists.mp hreached
          cases hskips : flags.skips .comment with
          | true => exact hskips
          | false =>
            rw [hskips, if_neg (by simp), hend, he] at hright
            have := lt_reached he
            simp only [lengthTo] at hright
            omega
        · have := (drop_of_startsWith (by simp) (startsWith_of_comment hc)).2
          simp only [List.length_cons, List.length_nil] at this
          omega
      · exact hsound.comment before hmem hopen
    · rename_i hset
      simp only [not_or, Bool.not_eq_true] at hset
      obtain ⟨hskips, hreached, _⟩ := hset
      have hnone : reached data pos c = none := by
        cases hr : reached data pos c with
        | none => rfl
        | some e => simp [hr] at hreached
      have hopen : Unclosed data pos c := by
        refine ⟨hc, ?_⟩
        rw [hskips, if_neg (by simp), hnone] at hright
        exact ((lengthTo_inj (by simp) fun e => le_constructEnd).mp hright).symm
      constructor
      · intro d hown
        rw [own_set] at hown
        simp only [Bool.or_eq_true, decide_eq_true_eq] at hown
        rcases hown with rfl | hown
        · exact ⟨pos, List.mem_cons_self .., hopen⟩
        · exact hkeep d hown
      · intro before hmem hopen'
        have hset := own_set flags c .comment
        simp only [HtmlFlags.own] at hset
        rw [hset]
        rcases List.mem_cons.mp hmem with rfl | hmem
        · have heq := hopen'.1
          rw [hc, Option.some.injEq] at heq
          simp [heq]
        · simp [hsound.comment before hmem hopen']

/-! ### The run -/

end MarkdownCore.Inline
