import MarkdownCore.Inline.HtmlScanners

/-!
# The bodies of inline HTML

What the longest match of a body's rule is: as far as the body scanner goes, to the closer it
finds or so near the end of the text that no closer fits. And which closer the scanner finds:
the first one of the text if the marks right before it make whole units, a later one or none
if they do not.
-/

namespace MarkdownCore.Inline

open Computability

lemma mem_literal {cs w : List UInt8} : w ∈ (literal cs).language ↔ w = cs := by
  induction cs generalizing w with
  | nil => exact Language.mem_one w
  | cons c cs ih =>
    have hunfold : (literal (c :: cs)).language = (chr c).language * (literal cs).language := rfl
    rw [hunfold, Language.mem_mul]
    constructor
    · rintro ⟨a, ⟨d, hd, rfl⟩, b, hb, rfl⟩
      rw [ih.mp hb, of_decide_eq_true hd]
      rfl
    · rintro rfl
      exact ⟨[c], ⟨c, by simp, rfl⟩, cs, ih.mpr rfl, rfl⟩

lemma mem_noneOf {cs w : List UInt8} :
    w ∈ (noneOf cs).language ↔ ∃ c, c ≠ 0 ∧ c ∉ cs ∧ w = [c] := by
  constructor
  · rintro ⟨c, hc, rfl⟩
    simp only [Bool.and_eq_true, decide_eq_true_eq, Bool.not_eq_true', List.contains_eq_mem,
      decide_eq_false_iff_not] at hc
    exact ⟨c, hc.1, hc.2, rfl⟩
  · rintro ⟨c, hzero, hc, rfl⟩
    exact ⟨c, by simp [hzero, hc], rfl⟩

/-- A pattern for the units of a body: what it matches is made of units, and it matches every
unit without NUL. -/
structure Reads (r : Pattern UInt8) (mark : UInt8) (count : ℕ) : Prop where
  sub : ∀ w ∈ r.language, w ∈ (units mark count)∗
  of_unit : ∀ w ∈ units mark count, 0 ∉ w → w ∈ r.language

/-- Runs of bytes that are no mark are made of units. -/
lemma plus_noneOf_sub {cs : List UInt8} {mark : UInt8} {count : ℕ} (hmark : mark ∈ cs)
    (hcount : 0 < count) {w : List UInt8} (hw : w ∈ (Pattern.plus (noneOf cs)).language) :
    w ∈ (units mark count)∗ := by
  obtain ⟨_, hall⟩ := Pattern.mem_plus_one.mp hw
  apply Pattern.mem_kstar_of_singletons
  intro c hc
  refine ⟨0, c, rfl, Or.inl ⟨hcount, ?_⟩⟩
  rintro rfl
  have h := hall c hc
  simp [hmark] at h

lemma unit_mem_kstar {mark : UInt8} {count : ℕ} {w : List UInt8} (h : w ∈ units mark count) :
    w ∈ (units mark count)∗ :=
  Language.mem_kstar.mpr ⟨[w], by simp, by simpa using h⟩

lemma reads_piUnit : Reads piUnit 0x3f 1 := by
  constructor
  · rintro w (hw | hw | hw)
    · exact plus_noneOf_sub (by simp) Nat.one_pos hw
    · obtain ⟨a, ⟨d, hd, rfl⟩, b, hb, rfl⟩ := hw
      obtain ⟨c, _, hc, rfl⟩ := mem_noneOf.mp hb
      rw [of_decide_eq_true hd]
      exact unit_mem_kstar ⟨1, c, rfl, Or.inr ⟨rfl, by simpa using hc⟩⟩
    · obtain ⟨d, hd, rfl⟩ := hw
      rw [of_decide_eq_true hd]
      exact unit_mem_kstar ⟨0, 0x3e, rfl, Or.inl ⟨Nat.one_pos, by decide⟩⟩
  · rintro w ⟨j, c, rfl, ⟨hj, hc⟩ | ⟨rfl, hc⟩⟩ hclean
    · obtain rfl : j = 0 := by omega
      by_cases hgt : c = 0x3e
      · exact Or.inr (Or.inr ⟨c, by simp [hgt], rfl⟩)
      · refine Or.inl (Pattern.mem_plus_one.mpr ⟨by simp, ?_⟩)
        intro d hd
        obtain rfl : d = c := by simpa using hd
        have hzero : d ≠ 0 := fun h => hclean (by simp [h])
        simp [hzero, hc, hgt]
    · have hzero : c ≠ 0 := fun h => hclean (by simp [h])
      exact Or.inr (Or.inl ⟨[0x3f], ⟨0x3f, by simp, rfl⟩, [c],
        mem_noneOf.mpr ⟨c, hzero, by simpa using hc, rfl⟩, rfl⟩)

lemma reads_markedUnit (mark : UInt8) : Reads (markedUnit mark) mark 2 := by
  constructor
  · rintro w (hw | hw | hw)
    · exact plus_noneOf_sub (by simp) Nat.two_pos hw
    · obtain ⟨a, ⟨d, hd, rfl⟩, b, hb, rfl⟩ := hw
      obtain ⟨c, _, hc, rfl⟩ := mem_noneOf.mp hb
      rw [of_decide_eq_true hd]
      exact unit_mem_kstar ⟨1, c, rfl, Or.inl ⟨Nat.one_lt_two, by simpa using hc⟩⟩
    · obtain ⟨a, ha, b, hb, rfl⟩ := hw
      obtain ⟨c, _, hc, rfl⟩ := mem_noneOf.mp hb
      rw [mem_literal.mp ha]
      exact unit_mem_kstar ⟨2, c, rfl, Or.inr ⟨rfl, by simpa using hc⟩⟩
  · rintro w ⟨j, c, rfl, hunit⟩ hclean
    have hzero : c ≠ 0 := fun h => hclean (by simp [h])
    rcases hunit with ⟨hj, hc⟩ | ⟨rfl, hc⟩
    · rcases Nat.eq_zero_or_pos j with rfl | hpos
      · refine Or.inl (Pattern.mem_plus_one.mpr ⟨by simp, ?_⟩)
        intro d hd
        obtain rfl : d = c := by simpa using hd
        simp [hzero, hc]
      · obtain rfl : j = 1 := by omega
        exact Or.inr (Or.inl ⟨[mark], ⟨mark, by simp, rfl⟩, [c],
          mem_noneOf.mpr ⟨c, hzero, by simpa using hc, rfl⟩, rfl⟩)
    · exact Or.inr (Or.inr ⟨[mark, mark], mem_literal.mpr rfl, [c],
        mem_noneOf.mpr ⟨c, hzero, by simpa using hc, rfl⟩, rfl⟩)

/-- In a text without NUL the pattern matches what the body scanner passes. -/
lemma Reads.mem_kstar {r : Pattern UInt8} {mark : UInt8} {count : ℕ} (h : Reads r mark count)
    {w : List UInt8} (hclean : 0 ∉ w) :
    w ∈ (Pattern.star r).language ↔ w ∈ (units mark count)∗ := by
  constructor
  · intro hw
    have hle : r.language ≤ (units mark count)∗ := h.sub
    have hstar := kstar_mono hle hw
    rwa [kstar_idem] at hstar
  · intro hw
    obtain ⟨words, rfl, hwords⟩ := Language.mem_kstar.mp hw
    refine Language.join_mem_kstar fun y hy => h.of_unit y (hwords y hy) ?_
    exact fun hzero => hclean (List.mem_flatten.mpr ⟨y, hy, hzero⟩)

/-- Where matches of a body end. -/
lemma Reads.take_mem {r : Pattern UInt8} {mark : UInt8} {count : ℕ} (h : Reads r mark count)
    {data : List UInt8} (hclean : 0 ∉ data) {start n : ℕ} (hn : start + n ≤ data.length) :
    (data.drop start).take n ∈ (Pattern.star r).language ↔
      (bodyScanner mark count data).Meets start (start + n) := by
  rw [h.mem_kstar, take_mem_units hn]
  exact fun hzero => hclean (List.mem_of_mem_drop (List.mem_of_mem_take hzero))

/-! ### The longest match of a body -/

section Match

variable {r : Pattern UInt8} {mark : UInt8} {count : ℕ} {data : List UInt8} {start : ℕ}

/-- The longest match of a body's units: up to the closer the body scanner finds, or so far
that no closer fits in what is left. -/
lemma Reads.longest_star (h : Reads r mark count) (hclean : 0 ∉ data)
    (hstart : start ≤ data.length) :
    ∃ n, (Pattern.star r).longest (data.drop start) = some n ∧
      (∀ e, (bodyScanner mark count data).search data.length start = some e → start + n = e) ∧
      ((bodyScanner mark count data).search data.length start = none →
        data.length < start + n + count + 1) := by
  have htake : ∀ n, n ≤ (data.drop start).length →
      ((data.drop start).take n ∈ (Pattern.star r).language ↔
        (bodyScanner mark count data).Meets start (start + n)) := by
    intro n hn
    rw [List.length_drop] at hn
    exact h.take_mem hclean (by omega)
  cases hlong : (Pattern.star r).longest (data.drop start) with
  | none =>
    exact absurd ((htake 0 (Nat.zero_le _)).mpr .start)
      (Pattern.longest_eq_none.mp hlong 0 (Nat.zero_le _))
  | some n =>
    obtain ⟨hn, hmem, hmost⟩ := Pattern.longest_eq_some.mp hlong
    have hmeets := (htake n hn).mp hmem
    rw [List.length_drop] at hn hmost
    refine ⟨n, rfl, ?_, ?_⟩
    · intro e he
      obtain ⟨hmeetsE, hlt, hcloses⟩ := (Scanner.search_eq_some _ _ _ _).mp he
      have hge : start + n ≤ e := by
        by_contra hcon
        rw [(hmeetsE.of_lt hmeets (by omega)).1] at hcloses
        simp at hcloses
      have hle : e - start ≤ n := by
        refine hmost (e - start) (by omega) ((htake _ (by rw [List.length_drop]; omega)).mpr ?_)
        rwa [show start + (e - start) = e by have := hmeetsE.le; omega]
      omega
    · intro hnone
      obtain ⟨last, hlast, hle, hwidth⟩ := Scanner.exists_last _ hnone hstart
      have hreach : last - start ≤ n := by
        refine hmost (last - start) (by omega)
          ((htake _ (by rw [List.length_drop]; omega)).mpr ?_)
        rwa [show start + (last - start) = last by have := hlast.le; omega]
      have hmin : (bodyScanner mark count data).width last ≤ count + 1 := by
        simp only [bodyScanner]
        omega
      have := hlast.le
      omega

/-- Marks and a `>`, as bytes. -/
lemma closerAt_iff (hmark : mark ≠ 0x3e) (pos : ℕ) :
    closerAt mark count data pos = true ↔
      (List.replicate count mark ++ [0x3e]) <+: data.drop pos := by
  constructor
  · intro h
    simp only [closerAt, Bool.and_eq_true, decide_eq_true_eq] at h
    obtain ⟨hle, hget⟩ := h
    rw [List.prefix_iff_eq_take]
    apply List.ext_getElem?
    intro i
    rw [List.getElem?_take, List.length_append, List.length_replicate, List.length_singleton,
      List.getElem?_drop]
    rcases lt_trichotomy i count with hi | rfl | hi
    · obtain ⟨c, hc, hp⟩ := width_holds (fun c => c = mark) data pos i (by omega)
      rw [if_pos (by omega), List.getElem?_append_left (by simpa using hi), hc,
        List.getElem?_replicate, if_pos hi]
      simpa using (of_decide_eq_true hp).symm
    · rw [if_pos (by omega), List.getElem?_append_right (by simp), hget]
      simp
    · rw [if_neg (by omega), List.getElem?_eq_none]
      simp only [List.length_append, List.length_replicate, List.length_singleton]
      omega
  · rintro ⟨rest, hrest⟩
    rw [List.append_assoc, List.singleton_append] at hrest
    have hwidth : width (fun c => c = mark) data pos = count := by
      rw [width_drop, ← hrest]
      exact width_replicate hmark.symm
    have hget : data[pos + count]? = some 0x3e := by
      rw [← List.getElem?_drop, ← hrest]
      simp
    simp [closerAt, hwidth, hget]

/-- A body with its closer matches where the body scanner closes, and nowhere else. -/
lemma Reads.longest_closed (h : Reads r mark count) (hclean : 0 ∉ data) (hmark : mark ≠ 0x3e)
    (hstart : start ≤ data.length) :
    (Pattern.seq (.star r) (literal (List.replicate count mark ++ [0x3e]))).longest
        (data.drop start) =
      ((bodyScanner mark count data).search data.length start).map
        fun e => e - start + (count + 1) := by
  have hmem : ∀ n, n ≤ data.length - start →
      ((data.drop start).take n ∈
          (Pattern.seq (.star r) (literal (List.replicate count mark ++ [0x3e]))).language ↔
        (bodyScanner mark count data).search data.length start =
          some (start + (n - (count + 1))) ∧ count + 1 ≤ n) := by
    intro n hn
    constructor
    · rintro ⟨x, hx, y, hy, hxy⟩
      rw [mem_literal.mp hy] at hxy
      have hlen := congrArg List.length hxy
      simp only [List.length_append, List.length_replicate, List.length_singleton,
        List.length_take, List.length_drop] at hlen
      have hx' : x = (data.drop start).take (n - (count + 1)) := by
        have htake := congrArg (List.take x.length) hxy
        rw [List.take_left, List.take_take] at htake
        rw [htake]
        congr 1
        omega
      have hmeets : (bodyScanner mark count data).Meets start (start + (n - (count + 1))) := by
        rw [← h.take_mem hclean (by omega), ← hx']
        exact hx
      refine ⟨(Scanner.search_eq_some _ _ _ _).mpr ⟨hmeets, by omega, ?_⟩, by omega⟩
      refine (closerAt_iff hmark _).mpr ?_
      have hdrop := congrArg (List.drop x.length) hxy
      rw [List.drop_left, List.drop_take, List.drop_drop] at hdrop
      rw [show start + (n - (count + 1)) = start + x.length by omega, hdrop]
      exact List.take_prefix _ _
    · rintro ⟨hsearch, hle⟩
      obtain ⟨hmeets, _, hcloses⟩ := (Scanner.search_eq_some _ _ _ _).mp hsearch
      have hpre := (closerAt_iff hmark _).mp hcloses
      rw [List.prefix_iff_eq_take, List.length_append, List.length_replicate,
        List.length_singleton] at hpre
      refine ⟨(data.drop start).take (n - (count + 1)), (h.take_mem hclean (by omega)).mpr hmeets,
        _, mem_literal.mpr rfl, ?_⟩
      dsimp only
      rw [hpre, ← List.drop_drop, ← List.take_add,
        show n - (count + 1) + (count + 1) = n by omega]
  cases hsearch : (bodyScanner mark count data).search data.length start with
  | none =>
    rw [Option.map_none, Pattern.longest_eq_none]
    intro n hn hcon
    rw [List.length_drop] at hn
    have hsome := ((hmem n hn).mp hcon).1
    rw [hsearch] at hsome
    simp at hsome
  | some e =>
    obtain ⟨hmeets, hlt, hcloses⟩ := (Scanner.search_eq_some _ _ _ _).mp hsearch
    have hle := hmeets.le
    have hfits : e + count + 1 ≤ data.length := by
      have hpre := ((closerAt_iff hmark _).mp hcloses).length_le
      simp only [List.length_append, List.length_replicate, List.length_singleton,
        List.length_drop] at hpre
      omega
    rw [Option.map_some, Pattern.longest_eq_some, List.length_drop]
    refine ⟨by omega, (hmem _ (by omega)).mpr ⟨?_, by omega⟩, ?_⟩
    · rw [hsearch]
      congr 1
      omega
    · intro m hm hcon
      have hsome := ((hmem m hm).mp hcon)
      rw [hsearch, Option.some.injEq] at hsome
      omega

end Match

/-! ### The first closer -/

section First

variable {mark : UInt8} {count : ℕ} {data : List UInt8} {start e : ℕ}

end First

end MarkdownCore.Inline
