import MarkdownCore.Attributes.Members
import MarkdownCore.Attributes.Cut

/-!
# What a value means

The bytes between a value's bounds mean a text: an escape its second byte, and in quotes a
reference what it stands for and a line ending a space. Decoding the value in its container gives
that text and stops at the value's end.
-/

namespace MarkdownCore.Attributes

open Inline

/-- An unquoted value. -/
def unescape : List UInt8 → List UInt8
  | [] => []
  | c :: rest =>
    if c = 0x5c ∧ ispunct (byteAt rest 0) then byteAt rest 0 :: unescape rest.tail
    else c :: unescape rest
termination_by l => l.length
decreasing_by
  · rw [List.length_tail, List.length_cons]
    omega
  · exact Nat.lt_succ_self _

/-- A quoted value. -/
def unquote (table : EntityTable) : List UInt8 → List UInt8
  | [] => []
  | c :: rest =>
    if c = 0x5c ∧ ispunct (byteAt rest 0) then byteAt rest 0 :: unquote table rest.tail
    else if c = 0x26 then
      match unescapeEnt table rest with
      | some (used, text) => text ++ unquote table (rest.drop used)
      | none => c :: unquote table rest
    else if newline c then
      if c = 0x0d ∧ byteAt rest 0 = 0x0a then 0x20 :: unquote table rest.tail
      else 0x20 :: unquote table rest
    else c :: unquote table rest
termination_by l => l.length
decreasing_by
  all_goals simp only [List.length_tail, List.length_cons, List.length_drop]
  all_goals omega

section

variable {data : List UInt8} {a b c pos stop close finish steps : ℕ} {table : EntityTable}

/-! ### Slices -/

lemma slice_nil (h : b ≤ a) : slice data ⟨a, b⟩ = [] := by
  simp [slice, Nat.sub_eq_zero_of_le h]

lemma slice_cons (hab : a < b) (hb : b ≤ data.length) :
    slice data ⟨a, b⟩ = byteAt data a :: slice data ⟨a + 1, b⟩ := by
  have ha : a < data.length := Nat.lt_of_lt_of_le hab hb
  rw [slice, slice, List.drop_eq_getElem_cons ha, byteAt_eq_getElem ha,
    show b - a = b - (a + 1) + 1 by omega, List.take_succ_cons]

lemma slice_first (hab : a < b) (hb : b ≤ data.length) :
    byteAt (slice data ⟨a, b⟩) 0 = byteAt data a := by
  rw [slice_cons hab hb]
  rfl

lemma slice_drop (k : ℕ) : (slice data ⟨a, b⟩).drop k = slice data ⟨a + k, b⟩ := by
  rw [slice, slice, List.drop_take, List.drop_drop, Nat.sub_sub]

lemma slice_tail : (slice data ⟨a, b⟩).tail = slice data ⟨a + 1, b⟩ := by
  rw [← List.drop_one, slice_drop]

lemma slice_append (hab : a ≤ b) (hbc : b ≤ c) :
    slice data ⟨a, c⟩ = slice data ⟨a, b⟩ ++ slice data ⟨b, c⟩ := by
  rw [slice, slice, slice, show c - a = (b - a) + (c - b) by omega, List.take_add,
    List.drop_drop, Nat.add_sub_cancel' hab]

lemma slice_cut : (data.take stop).drop pos = slice data ⟨pos, stop⟩ := by
  rw [slice, List.drop_take]

/-! ### Unquoted values -/

lemma unescape_escape {rest : List UInt8} (h : ispunct (byteAt rest 0) = true) :
    unescape (0x5c :: rest) = byteAt rest 0 :: unescape rest.tail := by
  rw [unescape, if_pos ⟨rfl, h⟩]

lemma unescape_cons {c : UInt8} {rest : List UInt8}
    (h : ¬ (c = 0x5c ∧ ispunct (byteAt rest 0) = true)) :
    unescape (c :: rest) = c :: unescape rest := by
  rw [unescape, if_neg h]

/-- Where nothing is escaped, the value from there shows no escape either. -/
lemma slice_not_escaped (hb : b ≤ data.length) (h : escaped data a = false) :
    ¬ (byteAt data a = 0x5c ∧ ispunct (byteAt (slice data ⟨a + 1, b⟩) 0) = true) := by
  rintro ⟨hbyte, hpunct⟩
  rcases Nat.lt_or_ge (a + 1) b with hlt | hge
  · rw [slice_first hlt hb] at hpunct
    rw [escaped_iff.mpr ⟨hbyte, Nat.lt_of_lt_of_le hlt hb, hpunct⟩] at h
    cases h
  · rw [slice_nil hge] at hpunct
    cases hpunct

lemma decodeUnquotedFrom_spec (hfinish : finish ≤ data.length) : ∀ steps out pos,
    pos ≤ unquotedStop data pos → unquotedStop data pos < finish →
    unquotedStop data pos ≤ pos + steps →
    decodeUnquotedFrom data finish steps out pos =
      (unquotedStop data pos, out ++ unescape (slice data ⟨pos, unquotedStop data pos⟩)) := by
  intro steps
  induction steps with
  | zero =>
    intro out pos hle _ hsteps
    have heq : unquotedStop data pos = pos := by omega
    rw [heq, slice_nil le_rfl, decodeUnquotedFrom, unescape, List.append_nil]
  | succ steps ih =>
    intro out pos hle hlt hsteps
    rw [decodeUnquotedFrom]
    split
    · rename_i hend
      have heq : unquotedStop data pos = pos := by
        rcases hend with hlimit | hvalue
        · omega
        · exact unquotedStop_of_valueEnd (by omega) hvalue
      rw [heq, slice_nil le_rfl, unescape, List.append_nil]
    rename_i hend
    rw [not_or, Bool.not_eq_true] at hend
    have hstep := unquotedStop_step hend.2
    rw [escaped_cut hfinish (by omega)]
    split
    · rename_i hescape
      obtain ⟨hbyte, hin, hpunct⟩ := escaped_iff.mp hescape
      rw [hescape, if_pos rfl] at hstep
      have hin' : pos + 2 ≤ data.length := hin
      have hbehind := le_unquotedStop hin'
      rw [hstep] at hle hlt hsteps ⊢
      rw [ih _ _ hbehind hlt (by omega), slice_cons (a := pos) (by omega) (by omega), hbyte]
      have hfirst : byteAt (slice data ⟨pos + 1, unquotedStop data (pos + 2)⟩) 0 =
          byteAt data (pos + 1) := slice_first (by omega) (by omega)
      rw [unescape_escape (by rw [hfirst, hpunct]), hfirst, slice_tail, List.append_assoc]
      rfl
    · rename_i hescape
      rw [Bool.not_eq_true] at hescape
      rw [hescape, if_neg Bool.false_ne_true] at hstep
      have hin : pos + 1 ≤ data.length := by omega
      have hbehind := le_unquotedStop hin
      rw [hstep] at hle hlt hsteps ⊢
      rw [ih _ _ hbehind hlt (by omega), slice_cons (a := pos) (by omega) (by omega),
        unescape_cons (slice_not_escaped (by omega) hescape), List.append_assoc]
      rfl

/-! ### Quoted values -/

lemma unquote_escape {rest : List UInt8} (h : ispunct (byteAt rest 0) = true) :
    unquote table (0x5c :: rest) = byteAt rest 0 :: unquote table rest.tail := by
  rw [unquote, if_pos ⟨rfl, h⟩]

lemma unquote_reference {rest text : List UInt8} {used : ℕ}
    (h : unescapeEnt table rest = some (used, text)) :
    unquote table (0x26 :: rest) = text ++ unquote table (rest.drop used) := by
  rw [unquote, if_neg (fun h => by cases h.1), if_pos rfl, h]

lemma unquote_ampersand {rest : List UInt8} (h : unescapeEnt table rest = none) :
    unquote table (0x26 :: rest) = 0x26 :: unquote table rest := by
  rw [unquote, if_neg (fun h => by cases h.1), if_pos rfl, h]

lemma unquote_line {c : UInt8} {rest : List UInt8} (h : newline c = true) :
    unquote table (c :: rest) =
      if c = 0x0d ∧ byteAt rest 0 = 0x0a then 0x20 :: unquote table rest.tail
      else 0x20 :: unquote table rest := by
  have hslash : ¬ (c = 0x5c ∧ ispunct (byteAt rest 0) = true) := by
    rintro ⟨rfl, _⟩
    cases h
  have hamp : c ≠ 0x26 := by
    rintro rfl
    cases h
  rw [unquote, if_neg hslash, if_neg hamp, if_pos h]

lemma unquote_cons {c : UInt8} {rest : List UInt8}
    (hslash : ¬ (c = 0x5c ∧ ispunct (byteAt rest 0) = true)) (hamp : c ≠ 0x26)
    (hline : newline c = false) : unquote table (c :: rest) = c :: unquote table rest := by
  rw [unquote, if_neg hslash, if_neg hamp, if_neg (by rw [hline]; exact Bool.false_ne_true)]

/-- A byte that is no quote and escapes nothing is passed. -/
lemma plain_byte {quote : UInt8} (hquote : byteAt data pos ≠ quote)
    (hescape : escaped data pos = false) :
    (plainUnits data quote).search data.length pos =
      (plainUnits data quote).search data.length (pos + 1) := by
  have hstep : (plainUnits data quote).search data.length pos =
      (plainUnits data quote).search data.length (pos + (plainUnits data quote).width pos) :=
    Scanner.search_step _ (decide_eq_false hquote)
  have hwidth : (plainUnits data quote).width pos = 1 := by
    simp [plainUnits, hescape]
  rwa [hwidth] at hstep

lemma plain_escape {quote : UInt8} (hquote : byteAt data pos ≠ quote)
    (hescape : escaped data pos = true) :
    (plainUnits data quote).search data.length pos =
      (plainUnits data quote).search data.length (pos + 2) := by
  have hstep : (plainUnits data quote).search data.length pos =
      (plainUnits data quote).search data.length (pos + (plainUnits data quote).width pos) :=
    Scanner.search_step _ (decide_eq_false hquote)
  have hwidth : (plainUnits data quote).width pos = 2 := by
    simp [plainUnits, hescape]
  rwa [hwidth] at hstep

lemma isQuote_not_inReference {quote : UInt8} (h : isQuote quote = true) :
    inReference quote = false := by
  simp only [isQuote, Bool.or_eq_true, decide_eq_true_eq] at h
  rcases h with rfl | rfl <;> decide

/-- A reference is passed. -/
lemma plain_reference {quote : UInt8} (hquote : isQuote quote = true)
    (hamp : byteAt data pos = 0x26) {text : List UInt8} {used : ℕ}
    (h : unescapeEnt table (slice data ⟨pos + 1, stop⟩) = some (used, text)) :
    (plainUnits data quote).search data.length pos =
      (plainUnits data quote).search data.length (pos + used + 1) := by
  obtain ⟨hused, _, hbytes⟩ := unescapeEnt_some h
  apply plain_skip (by omega)
  intro k hle hlt
  rcases Nat.eq_or_lt_of_le hle with rfl | hafter
  · rw [hamp]
    refine ⟨?_, by decide⟩
    rintro rfl
    cases hquote
  · obtain ⟨i, rfl⟩ := Nat.exists_eq_add_of_lt hafter
    have hbyte := hbytes i (by omega)
    have heq : byteAt (slice data ⟨pos + 1, stop⟩) i = byteAt data (pos + i + 1) := by
      have hlength : (slice data ⟨pos + 1, stop⟩).length ≤ stop - (pos + 1) := by
        rw [slice, List.length_take]
        exact min_le_left _ _
      rw [slice, byteAt_take (by dsimp only; omega), byteAt_drop]
      congr 1
      dsimp only
      omega
    rw [heq] at hbyte
    constructor
    · intro hcon
      rw [hcon, isQuote_not_inReference hquote] at hbyte
      cases hbyte
    · intro hcon
      rw [hcon] at hbyte
      cases hbyte

/-- Behind a line ending the search goes on. -/
lemma plain_line {quote : UInt8} (hquote : isQuote quote = true)
    (hline : newline (byteAt data pos) = true) :
    (plainUnits data quote).search data.length pos =
      (plainUnits data quote).search data.length (behindLine data pos) := by
  apply plain_skip (lt_behindLine data pos).le
  intro k hle hlt
  exact quote_ne_blank hquote
    (nextLine_byte hle (Nat.lt_of_lt_of_le hlt (le_skipHorizontal _ _)) hline)

lemma behindLine_cut (hstop : stop ≤ data.length) (hlt : pos + 1 < stop) :
    behindLine (data.take stop) pos = behindLine data pos := by
  have hdata : pos + 1 < data.length := Nat.lt_of_lt_of_le hlt hstop
  rw [behindLine, behindLine, byteAt_take (Nat.lt_of_succ_lt hlt), byteAt_take hlt,
    length_cut hstop]
  simp [hlt, hdata]

/-- A line ending is passed in the cut text too, where its second byte may be cut off. -/
lemma plain_line_cut {quote : UInt8} (hquote : isQuote quote = true) (hstop : stop ≤ data.length)
    (hline : newline (byteAt data pos) = true) :
    (plainUnits data quote).search data.length pos =
      (plainUnits data quote).search data.length (behindLine (data.take stop) pos) := by
  rcases Nat.lt_or_ge (pos + 1) stop with hin | hend
  · rw [behindLine_cut hstop hin]
    exact plain_line hquote hline
  · have hone : behindLine (data.take stop) pos = pos + 1 := by
      rw [behindLine, length_cut hstop, if_neg (fun h => Nat.not_lt.mpr hend h.2.1)]
    rw [hone]
    obtain ⟨hne, hslash⟩ := quote_ne_blank hquote (Or.inl hline)
    exact plain_byte hne (not_escaped hslash)

/-- Without a closer in the container nothing is kept. -/
lemma decodeQuotedFrom_none {quote : UInt8} (hquote : isQuote quote = true)
    (hfinish : finish ≤ data.length) : ∀ steps out pos,
    (∀ found, (plainUnits data quote).search data.length pos = some found →
      finish - 1 ≤ found) →
    decodeQuotedFrom table data finish quote steps out pos = none := by
  intro steps
  induction steps with
  | zero => exact fun _ _ _ => rfl
  | succ steps ih =>
    intro out pos hnone
    have hon : ∀ {out next}, (plainUnits data quote).search data.length pos =
        (plainUnits data quote).search data.length next →
        decodeQuotedFrom table data finish quote steps out next = none := by
      intro out next heq
      rw [heq] at hnone
      exact ih out next hnone
    rw [decodeQuotedFrom]
    split
    · rfl
    rename_i hlt
    rw [not_le] at hlt
    split
    · rename_i hbyte
      have hfound := hnone pos (Scanner.search_of_closes _ (by omega) (decide_eq_true hbyte))
      omega
    rename_i hbyte
    rw [escaped_cut hfinish (by omega)]
    split
    · rename_i hescape
      exact hon (plain_escape hbyte hescape)
    rename_i hescape
    rw [Bool.not_eq_true] at hescape
    split
    · rename_i hamp
      rw [slice_cut]
      cases hread : unescapeEnt table (slice data ⟨pos + 1, finish - 1⟩) with
      | some result => exact hon (plain_reference hquote hamp hread)
      | none => exact hon (plain_byte hbyte hescape)
    split
    · rename_i hline
      exact hon (plain_line_cut hquote (by omega) hline)
    · exact hon (plain_byte hbyte hescape)

/-- Up to its closer a quoted value is decoded. -/
lemma decodeQuotedFrom_some {quote : UInt8} (hquote : isQuote quote = true)
    (hfinish : finish ≤ data.length) (hclose : close < finish - 1)
    (hcloser : byteAt data close = quote) : ∀ steps out pos,
    (plainUnits data quote).search data.length pos = some close → close < pos + steps →
    decodeQuotedFrom table data finish quote steps out pos =
      some (close + 1, out ++ unquote table (slice data ⟨pos, close⟩)) := by
  have hle : ∀ {pos}, (plainUnits data quote).search data.length pos = some close →
      pos ≤ close := fun h => ((Scanner.search_eq_some _ _ _ _).mp h).1.le
  intro steps
  induction steps with
  | zero =>
    intro out pos hfound hsteps
    have := hle hfound
    omega
  | succ steps ih =>
    intro out pos hfound hsteps
    have hpos := hle hfound
    rw [decodeQuotedFrom, if_neg (by omega)]
    split
    · rename_i hbyte
      have hhere : (plainUnits data quote).search data.length pos = some pos :=
        Scanner.search_of_closes _ (by omega) (decide_eq_true hbyte)
      obtain rfl : pos = close := Option.some.inj (hhere.symm.trans hfound)
      rw [slice_nil le_rfl, unquote, List.append_nil]
    rename_i hbyte
    have hlt : pos < close := by
      rcases Nat.eq_or_lt_of_le hpos with rfl | hlt
      · exact absurd hcloser hbyte
      · exact hlt
    rw [slice_cons hlt (by omega), escaped_cut hfinish (by omega)]
    split
    · rename_i hescape
      obtain ⟨hslash, _, hpunct⟩ := escaped_iff.mp hescape
      rw [plain_escape hbyte hescape] at hfound
      have hbehind := hle hfound
      have hfirst : byteAt (slice data ⟨pos + 1, close⟩) 0 = byteAt data (pos + 1) :=
        slice_first (by omega) (by omega)
      rw [ih _ _ hfound (by omega), hslash, unquote_escape (by rw [hfirst, hpunct]), hfirst,
        slice_tail, List.append_assoc]
      rfl
    rename_i hescape
    rw [Bool.not_eq_true] at hescape
    split
    · rename_i hamp
      have hread : unescapeEnt table ((data.take (finish - 1)).drop (pos + 1)) =
          unescapeEnt table (slice data ⟨pos + 1, close⟩) := by
        rw [slice_cut, slice_append (Nat.succ_le_of_lt hlt) hclose.le,
          slice_cons hclose (by omega), hcloser]
        apply unescapeEnt_append
        simpa [isQuote] using hquote
      rw [hread, hamp]
      cases hresult : unescapeEnt table (slice data ⟨pos + 1, close⟩) with
      | some result =>
        obtain ⟨used, text⟩ := result
        rw [plain_reference hquote hamp hresult] at hfound
        rw [unquote_reference hresult, slice_drop]
        dsimp only
        rw [ih _ _ hfound (by omega), List.append_assoc,
          show pos + 1 + used = pos + used + 1 by omega]
      | none =>
        rw [plain_byte hbyte hescape] at hfound
        rw [unquote_ampersand hresult]
        dsimp only
        rw [ih _ _ hfound (by omega), List.append_assoc]
        rfl
    rename_i hamp
    split
    · rename_i hline
      rw [behindLine_cut (by omega) (by omega), unquote_line hline]
      have hbehind := lt_behindLine data pos
      have hnext := plain_line hquote hline
      rw [hfound] at hnext
      rw [ih _ _ hnext.symm (by omega), List.append_assoc]
      split
      · rename_i hcrlf
        have hin : pos + 1 < close := by
          by_contra hcon
          rw [slice_nil (Nat.not_lt.mp hcon)] at hcrlf
          cases hcrlf.2
        rw [slice_first hin (by omega)] at hcrlf
        rw [behindLine, if_pos ⟨hcrlf.1, by omega, hcrlf.2⟩, slice_tail]
        rfl
      · rename_i hcrlf
        rw [behindLine, if_neg]
        · rfl
        · rintro ⟨hcr, hin, hlf⟩
          apply hcrlf
          refine ⟨hcr, ?_⟩
          rw [slice_first _ (by omega)]
          · exact hlf
          · rcases Nat.eq_or_lt_of_le (Nat.succ_le_of_lt hlt) with heq | hbefore
            · rw [← Nat.succ_eq_add_one, heq, hcloser] at hlf
              rw [hlf] at hquote
              cases hquote
            · exact hbefore
    · rename_i hline
      rw [Bool.not_eq_true] at hline
      rw [plain_byte hbyte hescape] at hfound
      rw [ih _ _ hfound (by omega),
        unquote_cons (slice_not_escaped (by omega) hescape) hamp hline, List.append_assoc]
      rfl

end

end MarkdownCore.Attributes
