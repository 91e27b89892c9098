import MarkdownCore.Inline.Html

/-!
# The scan, construct by construct

One spec for each construct: a scan the flags let through ends behind the closer that the
construct's scanner finds, and sets the construct's flag if it finds none.
-/

namespace MarkdownCore.Inline

open Computability

variable {data : List UInt8} {pos : ℕ}

/-- What stands behind a fixed beginning. -/
lemma drop_of_startsWith {cs : List UInt8} (hne : cs ≠ [])
    (h : startsWith cs data pos = true) :
    data.drop pos = cs ++ data.drop (pos + cs.length) ∧ pos + cs.length ≤ data.length := by
  obtain ⟨rest, hrest⟩ := startsWith_iff.mp h
  have hlen := congrArg List.length hrest
  have hpos := List.length_pos_of_ne_nil hne
  rw [List.length_drop, List.length_append] at hlen
  rw [← List.drop_drop, hrest, List.drop_left]
  exact ⟨rfl, by omega⟩

/-- The flags after a scan that the flags before it let through or not. -/
def flagsAfter (flags : HtmlFlags) (data : List UInt8) (pos : ℕ) (c : Construct) : HtmlFlags :=
  if flags.skips c = true ∨ (reached data pos c).isSome = true ∨ data.length < pos + 2 then flags
  else flags.set c

/-! ### The scanners -/

/-- The scanner of a comment that is no short form. -/
lemma scanPattern_htmlcomment (hclean : 0 ∉ data)
    (h : startsWith [0x21, 0x2d, 0x2d] data pos = true) :
    scanPattern htmlcomment data (pos + 1) =
      match (bodyScanner 0x2d 2 data).search data.length (pos + 3) with
      | some e => e + 2 - pos
      | none => 0 := by
  obtain ⟨_, hlen⟩ := drop_of_startsWith (by simp) h
  have htail := ((startsWith_cons (by decide)).mp h).2
  obtain ⟨hdrop, _⟩ := drop_of_startsWith (by simp) htail
  simp only [List.length_cons, List.length_nil] at hlen hdrop
  have hclosed := (reads_markedUnit 0x2d).longest_closed hclean (by decide)
    (show pos + 3 ≤ data.length by omega)
  have hlong := Pattern.longest_seq_word (r := literal [0x2d, 0x2d])
    (s := .seq (.star (markedUnit 0x2d)) (literal [0x2d, 0x2d, 0x3e]))
    (w := data.drop (pos + 3)) (fun x => mem_literal)
  rw [scanPattern, if_neg (by omega), hdrop]
  rw [show pos + 1 + (0 + 1 + 1) = pos + 3 by omega, htmlcomment, hlong,
    show [0x2d, 0x2d, 0x3e] = List.replicate 2 (0x2d : UInt8) ++ [0x3e] from rfl, hclosed]
  cases hsearch : (bodyScanner 0x2d 2 data).search data.length (pos + 3) with
  | none => rfl
  | some e =>
    have hle := ((Scanner.search_eq_some _ _ _ _).mp hsearch).1.le
    simp only [Option.map_some, Option.getD_some, List.length_cons, List.length_nil]
    omega

/-- The scanner of a CDATA section, from behind its bracket. -/
lemma scanPattern_cdata (hclean : 0 ∉ data)
    (h : startsWith [0x43, 0x44, 0x41, 0x54, 0x41, 0x5b] data pos = true) :
    0 < scanPattern cdata data pos ∧
      (∀ e, (bodyScanner 0x5d 2 data).search data.length (pos + 6) = some e →
        pos + scanPattern cdata data pos = e) ∧
      ((bodyScanner 0x5d 2 data).search data.length (pos + 6) = none →
        data.length < pos + scanPattern cdata data pos + 3) := by
  obtain ⟨hdrop, hlen⟩ := drop_of_startsWith (by simp) h
  simp only [List.length_cons, List.length_nil] at hlen hdrop
  obtain ⟨n, hn, hsome, hnone⟩ := (reads_markedUnit 0x5d).longest_star hclean
    (show pos + 6 ≤ data.length by omega)
  have hlong := Pattern.longest_seq_word
    (r := literal [0x43, 0x44, 0x41, 0x54, 0x41, 0x5b])
    (s := .star (markedUnit 0x5d)) (w := data.drop (pos + 6)) (fun x => mem_literal)
  have hscan : scanPattern cdata data pos = n + 6 := by
    rw [scanPattern, if_neg (by omega), hdrop,
      show pos + (0 + 1 + 1 + 1 + 1 + 1 + 1) = pos + 6 by omega, cdata, hlong, hn]
    rfl
  rw [hscan]
  refine ⟨by omega, ?_, ?_⟩
  · intro e he
    have := hsome e he
    omega
  · intro he
    have := hnone he
    omega

/-- What does not begin with the section's word is no CDATA section. -/
lemma scanPattern_cdata_eq_zero
    (h : startsWith [0x43, 0x44, 0x41, 0x54, 0x41, 0x5b] data pos = false) :
    scanPattern cdata data pos = 0 := by
  unfold scanPattern
  split
  · rfl
  · rw [cdata, Pattern.longest_seq_word_eq_none (fun x => mem_literal)]
    · rfl
    · intro hpre
      rw [startsWith, List.isPrefixOf_iff_prefix.mpr hpre] at h
      simp at h

/-- The scanner of a processing instruction. -/
lemma scanPattern_instruction (hclean : 0 ∉ data) (hpos : pos < data.length) :
    (∀ e, (bodyScanner 0x3f 1 data).search data.length pos = some e →
        pos + scanPattern processinginstruction data pos = e) ∧
      ((bodyScanner 0x3f 1 data).search data.length pos = none →
        data.length < pos + scanPattern processinginstruction data pos + 2) := by
  obtain ⟨n, hn, hsome, hnone⟩ := reads_piUnit.longest_star hclean hpos.le
  have hscan : scanPattern processinginstruction data pos = n := by
    rw [scanPattern, if_neg (by omega), processinginstruction, Pattern.longest_plus_getD, hn]
    rfl
  rw [hscan]
  exact ⟨hsome, hnone⟩

/-- The scanner of a declaration goes up to the first `>`. -/
lemma scanPattern_declaration (hclean : 0 ∉ data) (h : isLetter (byteAt data pos) = true) :
    scanPattern declaration data pos = width (fun c => c ≠ 0x3e) data pos ∧
      0 < width (fun c => c ≠ 0x3e) data pos := by
  have hgt : byteAt data pos ≠ 0x3e := by
    intro hcon
    rw [hcon] at h
    exact absurd h (by decide)
  have hlt : pos < data.length := by
    refine lt_of_byteAt rfl ?_
    intro hcon
    rw [hcon] at h
    exact absurd h (by decide)
  have hget : data[pos]? = some (byteAt data pos) := by
    rw [byteAt, List.getD_eq_getElem?_getD, List.getElem?_eq_getElem hlt, Option.getD_some]
  have hwidth : 0 < width (fun c => c ≠ 0x3e) data pos := width_pos _ hget (by simpa using hgt)
  refine ⟨?_, hwidth⟩
  have hle := width_le (fun c => c ≠ 0x3e) data pos
  have hmem : ∀ n, n ≤ data.length - pos → ((data.drop pos).take n ∈ declaration.language →
      n ≤ width (fun c => c ≠ 0x3e) data pos) := by
    rintro n hn ⟨a, ha, b, hb, hab⟩
    by_contra hcon
    -- then a byte of the match is `>`
    obtain ⟨c, hc⟩ : ∃ c, data[pos + width (fun c => c ≠ 0x3e) data pos]? = some c :=
      ⟨_, List.getElem?_eq_getElem (by omega)⟩
    have hstop := width_stops _ _ _ hc
    obtain rfl : c = 0x3e := by simpa using hstop
    have hin : (0x3e : UInt8) ∈ a ++ b := by
      dsimp only at hab
      rw [hab, List.mem_iff_getElem?]
      refine ⟨width (fun c => c ≠ 0x3e) data pos, ?_⟩
      rw [List.getElem?_take, if_pos (by omega), List.getElem?_drop, hc]
    rcases List.mem_append.mp hin with hin | hin
    · exact absurd ((Pattern.mem_plus_one.mp ha).2 _ hin) (by decide)
    · exact absurd ((Pattern.mem_star_one.mp hb) _ hin) (by decide)
  have htop : (data.drop pos).take (width (fun c => c ≠ 0x3e) data pos) ∈
      declaration.language := by
    obtain ⟨m, hm⟩ : ∃ m, width (fun c => c ≠ 0x3e) data pos = m + 1 :=
      Nat.exists_eq_succ_of_ne_zero (by omega)
    refine ⟨[byteAt data pos], Pattern.mem_plus_one.mpr ⟨by simp, ?_⟩,
      (data.drop (pos + 1)).take m, Pattern.mem_star_one.mpr ?_, ?_⟩
    · intro d hd
      rw [List.mem_singleton.mp hd]
      exact h
    · intro d hd
      obtain ⟨i, hi⟩ := List.mem_iff_getElem?.mp hd
      rw [List.getElem?_take] at hi
      by_cases him : i < m
      · rw [if_pos him, List.getElem?_drop] at hi
        obtain ⟨c, hc, hp⟩ := width_holds (fun c => c ≠ 0x3e) data pos (i + 1) (by omega)
        rw [show pos + (i + 1) = pos + 1 + i by omega, hi] at hc
        obtain rfl : d = c := by simpa using hc
        have hzero : d ≠ 0 := by
          rintro rfl
          exact hclean (List.mem_iff_getElem?.mpr ⟨_, hi⟩)
        simpa [hzero] using hp
      · simp [him] at hi
    · rw [hm]
      conv_rhs => rw [List.drop_eq_getElem_cons hlt, List.take_succ_cons]
      have hbyte : byteAt data pos = data[pos] := by
        rw [List.getElem?_eq_getElem hlt] at hget
        simpa using hget.symm
      rw [hbyte]
      rfl
  have hlong : declaration.longest (data.drop pos) =
      some (width (fun c => c ≠ 0x3e) data pos) := by
    rw [Pattern.longest_eq_some, List.length_drop]
    exact ⟨hle, htop, hmem⟩
  rw [scanPattern, if_neg (by omega), hlong]
  rfl

/-- What does not begin with a letter is no declaration. -/
lemma scanPattern_declaration_eq_zero (h : isLetter (byteAt data pos) = false) :
    scanPattern declaration data pos = 0 := by
  unfold scanPattern
  split
  · rfl
  · rename_i hlt
    have hnone : declaration.longest (data.drop pos) = none := by
      rw [Pattern.longest_eq_none]
      rintro n _ ⟨a, ha, b, _, hab⟩
      obtain ⟨hne, hall⟩ := Pattern.mem_plus_one.mp ha
      obtain ⟨d, a, rfl⟩ := List.exists_cons_of_ne_nil hne
      have hd : isLetter d = true := hall d (List.mem_cons_self ..)
      dsimp only at hab
      rw [List.drop_eq_getElem_cons (by omega)] at hab
      cases n with
      | zero => simp at hab
      | succ n =>
        rw [List.take_succ_cons, List.cons_append, List.cons.injEq] at hab
        have hbyte : byteAt data pos = d := by
          rw [byteAt, List.getD_eq_getElem?_getD, List.getElem?_eq_getElem (by omega), hab.1]
          rfl
        rw [hbyte, hd] at h
        simp at h
    rw [hnone]
    rfl

/-- No tag begins with an exclamation mark. -/
lemma scanPattern_htmltag (h : byteAt data pos = 0x21) : scanPattern htmltag data pos = 0 := by
  have hlt := lt_of_byteAt h (by decide)
  have hfirst : data.drop pos = 0x21 :: data.drop (pos + 1) := by
    rw [List.drop_eq_getElem_cons hlt]
    rw [byteAt, List.getD_eq_getElem?_getD, List.getElem?_eq_getElem hlt, Option.getD_some] at h
    rw [h]
  have hhead : ∀ w : List UInt8, w ∈ htmltag.language → ∃ c rest, w = c :: rest ∧ c ≠ 0x21 := by
    rintro w (hw | hw)
    · obtain ⟨a, ⟨x, ⟨c, hc, rfl⟩, y, _, rfl⟩, b, _, rfl⟩ := hw
      refine ⟨c, y ++ b, rfl, ?_⟩
      rintro rfl
      exact absurd hc (by decide)
    · obtain ⟨a, ⟨c, hc, rfl⟩, b, _, rfl⟩ := hw
      refine ⟨c, b, rfl, ?_⟩
      rintro rfl
      exact absurd hc (by decide)
  have hnone : htmltag.longest (data.drop pos) = none := by
    rw [Pattern.longest_eq_none]
    intro n _ hmem
    obtain ⟨c, rest, hw, hc⟩ := hhead _ hmem
    rw [hfirst] at hw
    cases n with
    | zero => simp at hw
    | succ n =>
      rw [List.take_succ_cons, List.cons.injEq] at hw
      exact hc hw.1.symm
  rw [scanPattern, if_neg (by omega), hnone]
  rfl

/-! ### The constructs -/

/-- A comment the flags let through. -/
lemma commentScanHtml_eq (hclean : 0 ∉ data) (flags : HtmlFlags)
    (h : startsWith [0x21, 0x2d, 0x2d] data pos = true) :
    commentScanHtml data pos flags =
      some (lengthTo pos (reached data pos .comment),
        if (reached data pos .comment).isSome then flags else flags.set .comment) := by
  have h0 : byteAt data pos = 0x21 := byteAt_of_startsWith (i := 0) h (by simp)
  have h1 : byteAt data (pos + 1) = 0x2d := byteAt_of_startsWith (i := 1) h (by simp)
  have h2 : byteAt data (pos + 2) = 0x2d := byteAt_of_startsWith (i := 2) h (by simp)
  have hshort : startsWith [0x3e] data (pos + 3) = true ↔ byteAt data (pos + 3) = 0x3e := by
    rw [startsWith_cons (by decide)]
    simp
  have hshorter : startsWith [0x2d, 0x3e] data (pos + 3) = true ↔
      byteAt data (pos + 3) = 0x2d ∧ byteAt data (pos + 4) = 0x3e := by
    rw [startsWith_cons (by decide), startsWith_cons (by decide)]
    simp
  rw [commentScanHtml, if_neg (by simp [h0, h1, h2])]
  simp only [reached, hshort, hshorter]
  by_cases hgt : byteAt data (pos + 3) = 0x3e
  · simp [hgt, lengthTo]
  · rw [if_neg hgt, if_neg hgt]
    by_cases hdash : byteAt data (pos + 3) = 0x2d ∧ byteAt data (pos + 4) = 0x3e
    · simp [hdash, lengthTo]
    · rw [if_neg hdash, if_neg hdash, scanPattern_htmlcomment hclean h]
      cases hsearch : (bodyScanner 0x2d 2 data).search data.length (pos + 3) with
      | none => rfl
      | some e =>
        have hle := ((Scanner.search_eq_some _ _ _ _).mp hsearch).1.le
        simp only [Option.map_some, Option.isSome_some, if_true, lengthTo]
        rw [if_pos (by omega), show e + 2 - pos + 1 = e + 3 - pos by omega]

lemma commentScanHtml_eq_none (flags : HtmlFlags)
    (h : startsWith [0x21, 0x2d, 0x2d] data pos = false) :
    commentScanHtml data pos flags = none := by
  rw [commentScanHtml, if_pos]
  by_contra hcon
  simp only [not_or, not_not] at hcon
  have htrue : startsWith [0x21, 0x2d, 0x2d] data pos = true := by
    rw [startsWith_cons (by decide), startsWith_cons (by decide), startsWith_cons (by decide)]
    exact ⟨hcon.1, hcon.2.1, hcon.2.2, startsWith_nil _ _⟩
  rw [htrue] at h
  simp at h

/-- The first `>` behind a declaration's letter, by the width of what comes before it. -/
lemma firstCloser_declaration (hpos : 0 < width (fun c => c ≠ 0x3e) data (pos + 1)) :
    firstCloser [0x3e] data (pos + 2) =
      if pos + 1 + width (fun c => c ≠ 0x3e) data (pos + 1) < data.length then
        some (pos + 1 + width (fun c => c ≠ 0x3e) data (pos + 1))
      else none := by
  have hgt : ∀ at', startsWith [0x3e] data at' = true ↔ byteAt data at' = 0x3e := by
    intro at'
    rw [startsWith_cons (by decide)]
    simp
  have hbefore : ∀ at', pos + 1 ≤ at' →
      at' < pos + 1 + width (fun c => c ≠ 0x3e) data (pos + 1) →
        startsWith [0x3e] data at' = false := by
    intro at' hle hlt
    obtain ⟨c, hc, hp⟩ := width_holds (fun c => c ≠ 0x3e) data (pos + 1) (at' - (pos + 1))
      (by omega)
    rw [show pos + 1 + (at' - (pos + 1)) = at' by omega] at hc
    have hbyte : byteAt data at' = c := by
      rw [byteAt, List.getD_eq_getElem?_getD, hc, Option.getD_some]
    rw [← Bool.not_eq_true, hgt, hbyte]
    simpa using hp
  split
  · rename_i hlt
    rw [firstCloser_eq_some]
    refine ⟨by omega, hlt, ?_, fun at' hle hlt' => hbefore at' (by omega) hlt'⟩
    have hget : data[pos + 1 + width (fun c => c ≠ 0x3e) data (pos + 1)]? =
        some data[pos + 1 + width (fun c => c ≠ 0x3e) data (pos + 1)] :=
      List.getElem?_eq_getElem hlt
    have hstop := width_stops _ _ _ hget
    rw [hgt, byteAt, List.getD_eq_getElem?_getD, hget, Option.getD_some]
    simpa using hstop
  · rename_i hlt
    rw [firstCloser_eq_none (by simp)]
    intro at' hle
    by_cases hin : at' < pos + 1 + width (fun c => c ≠ 0x3e) data (pos + 1)
    · exact hbefore at' (by omega) hin
    · rw [← Bool.not_eq_true, hgt]
      intro hcon
      have := lt_of_byteAt hcon (by decide)
      omega

/-- After an unclosed comment the whole branch of the exclamation mark is skipped. -/
lemma scanInlineHtml_flagged {flags : HtmlFlags} (h : byteAt data pos = 0x21)
    (hflag : flags.skipComment = true) : scanInlineHtml data pos flags = (0, flags, false) := by
  unfold scanInlineHtml
  split
  · simp [h, hflag, scanPattern_htmltag h]
  · rfl

lemma flagsAfter_of_skips {flags : HtmlFlags} {c : Construct} (h : flags.skips c = true) :
    flagsAfter flags data pos c = flags := by
  rw [flagsAfter, if_pos (Or.inl h)]

/-- The flags after a scan that has found the end of its construct. -/
lemma flagsAfter_of_reached {flags : HtmlFlags} {c : Construct} {e : ℕ}
    (h : reached data pos c = some e) : flagsAfter flags data pos c = flags := by
  rw [flagsAfter, if_pos (Or.inr (Or.inl (by rw [h]; rfl)))]

/-- And after one that has looked and found none. -/
lemma flagsAfter_of_unreached {flags : HtmlFlags} {c : Construct} (hskip : flags.skips c = false)
    (h : reached data pos c = none) (hlen : pos + 2 ≤ data.length) :
    flagsAfter flags data pos c = flags.set c := by
  rw [flagsAfter, if_neg]
  rintro (hcon | hcon | hcon)
  · rw [hskip] at hcon
    simp at hcon
  · rw [h] at hcon
    simp at hcon
  · omega

/-- A scan of a construct as its scanner and the flags have it. -/
def Scanned (data : List UInt8) (pos : ℕ) (flags : HtmlFlags) (c : Construct) : Prop :=
  (scanInlineHtml data pos flags).1 =
      (if flags.skips c then 0 else lengthTo pos (reached data pos c)) ∧
    (scanInlineHtml data pos flags).2.1 = flagsAfter flags data pos c

lemma scanned_of_skipComment {flags : HtmlFlags} {c : Construct} (h : byteAt data pos = 0x21)
    (hflag : flags.skipComment = true) (hskips : flags.skips c = true) :
    Scanned data pos flags c := by
  rw [Scanned, scanInlineHtml_flagged h hflag, flagsAfter_of_skips hskips, if_pos hskips]
  exact ⟨rfl, rfl⟩

lemma scanned_comment (hclean : 0 ∉ data) (flags : HtmlFlags)
    (h : startsWith [0x21, 0x2d, 0x2d] data pos = true) : Scanned data pos flags .comment := by
  have h0 : byteAt data pos = 0x21 := byteAt_of_startsWith (i := 0) h (by simp)
  obtain ⟨_, hlen⟩ := drop_of_startsWith (by simp) h
  simp only [List.length_cons, List.length_nil] at hlen
  cases hflag : flags.skipComment with
  | true => exact scanned_of_skipComment h0 hflag hflag
  | false =>
    have hskips : flags.skips .comment = false := hflag
    have hscan : scanInlineHtml data pos flags = (lengthTo pos (reached data pos .comment),
        (if (reached data pos .comment).isSome then flags else flags.set .comment),
        decide (0 < lengthTo pos (reached data pos .comment))) := by
      unfold scanInlineHtml
      rw [if_pos (by omega)]
      simp only [h0, hflag, and_self, if_true, commentScanHtml_eq hclean flags h]
    rw [Scanned, hscan, hskips]
    refine ⟨rfl, ?_⟩
    cases hreached : reached data pos .comment with
    | none => exact (flagsAfter_of_unreached hskips hreached (by omega)).symm
    | some e => exact (flagsAfter_of_reached hreached).symm

lemma scanned_cdata (hclean : 0 ∉ data) (flags : HtmlFlags)
    (h : startsWith [0x21, 0x5b, 0x43, 0x44, 0x41, 0x54, 0x41, 0x5b] data pos = true) :
    Scanned data pos flags .cdata := by
  have h0 : byteAt data pos = 0x21 := byteAt_of_startsWith (i := 0) h (by simp)
  have h1 : byteAt data (pos + 1) = 0x5b := byteAt_of_startsWith (i := 1) h (by simp)
  obtain ⟨_, hlen⟩ := drop_of_startsWith (by simp) h
  simp only [List.length_cons, List.length_nil] at hlen
  have hcomment : startsWith [0x21, 0x2d, 0x2d] data pos = false := by
    rw [← Bool.not_eq_true, startsWith_cons (by decide), startsWith_cons (by decide), h1]
    simp
  have htail : startsWith [0x43, 0x44, 0x41, 0x54, 0x41, 0x5b] data (pos + 2) = true :=
    ((startsWith_cons (by decide)).mp ((startsWith_cons (by decide)).mp h).2).2
  obtain ⟨hpos, hsome, hnone⟩ := scanPattern_cdata hclean htail
  cases hflag : flags.skipComment with
  | true => exact scanned_of_skipComment h0 hflag (by simp [HtmlFlags.skips, hflag])
  | false =>
    cases hskip : flags.skipCdata with
    | true =>
      have hskips : flags.skips .cdata = true := by simp [HtmlFlags.skips, hskip]
      have hscan : scanInlineHtml data pos flags = (0, flags, false) := by
        unfold scanInlineHtml
        rw [if_pos (by omega)]
        simp [h0, h1, hflag, hskip, commentScanHtml_eq_none flags hcomment]
      rw [Scanned, hscan, flagsAfter_of_skips hskips, if_pos hskips]
      exact ⟨rfl, rfl⟩
    | false =>
      have hskips : flags.skips .cdata = false := by simp [HtmlFlags.skips, hskip, hflag]
      have hscan : scanInlineHtml data pos flags =
          if data.length < pos + (scanPattern cdata data (pos + 2) + 5) then
            (0, flags.set .cdata, false)
          else (scanPattern cdata data (pos + 2) + 5, flags, false) := by
        unfold scanInlineHtml
        rw [if_pos (by omega)]
        simp [h0, h1, hflag, hskip, commentScanHtml_eq_none flags hcomment, hpos, HtmlFlags.set]
      rw [Scanned, hscan, hskips]
      cases hsearch : (bodyScanner 0x5d 2 data).search data.length (pos + 2 + 6) with
      | none =>
        have hreached : reached data pos .cdata = none := by
          simp only [reached]
          rw [show pos + 8 = pos + 2 + 6 by omega, hsearch]
          rfl
        have hfar := hnone hsearch
        rw [if_pos (by omega), hreached, flagsAfter_of_unreached hskips hreached (by omega)]
        exact ⟨rfl, rfl⟩
      | some e =>
        have hreached : reached data pos .cdata = some (e + 3) := by
          simp only [reached]
          rw [show pos + 8 = pos + 2 + 6 by omega, hsearch]
          rfl
        have hend := hsome e hsearch
        have hclosed := ((Scanner.search_eq_some _ _ _ _).mp hsearch).2.2
        have hfits := ((closerAt_iff (by decide) _).mp hclosed).length_le
        simp only [List.length_append, List.length_replicate, List.length_singleton,
          List.length_drop] at hfits
        rw [if_neg (by omega), hreached, flagsAfter_of_reached hreached]
        refine ⟨?_, rfl⟩
        simp only [Bool.false_eq_true, if_false, lengthTo]
        omega

lemma scanned_declaration (hclean : 0 ∉ data) (flags : HtmlFlags)
    (h0 : byteAt data pos = 0x21) (hletter : isLetter (byteAt data (pos + 1)) = true) :
    Scanned data pos flags .declaration := by
  have hlt : pos + 1 < data.length := by
    refine lt_of_byteAt rfl ?_
    intro hcon
    rw [hcon] at hletter
    exact absurd hletter (by decide)
  have hcomment : startsWith [0x21, 0x2d, 0x2d] data pos = false := by
    rw [← Bool.not_eq_true, startsWith_cons (by decide), startsWith_cons (by decide)]
    rintro ⟨_, hcon, _⟩
    rw [hcon] at hletter
    exact absurd hletter (by decide)
  have h1 : byteAt data (pos + 1) ≠ 0x5b := by
    intro hcon
    rw [hcon] at hletter
    exact absurd hletter (by decide)
  obtain ⟨hscanned, hpos⟩ := scanPattern_declaration hclean hletter
  have hle := width_le (fun c => c ≠ 0x3e) data (pos + 1)
  cases hflag : flags.skipComment with
  | true => exact scanned_of_skipComment h0 hflag (by simp [HtmlFlags.skips, hflag])
  | false =>
    cases hskip : flags.skipDeclaration with
    | true =>
      have hskips : flags.skips .declaration = true := by simp [HtmlFlags.skips, hskip]
      have hscan : scanInlineHtml data pos flags = (0, flags, false) := by
        unfold scanInlineHtml
        rw [if_pos (by omega)]
        simp [h0, h1, hflag, hskip, commentScanHtml_eq_none flags hcomment]
      rw [Scanned, hscan, flagsAfter_of_skips hskips, if_pos hskips]
      exact ⟨rfl, rfl⟩
    | false =>
      have hskips : flags.skips .declaration = false := by simp [HtmlFlags.skips, hskip, hflag]
      have hscan : scanInlineHtml data pos flags =
          if data.length < pos + (width (fun c => c ≠ 0x3e) data (pos + 1) + 2) then
            (0, flags.set .declaration, false)
          else (width (fun c => c ≠ 0x3e) data (pos + 1) + 2, flags, false) := by
        unfold scanInlineHtml
        rw [if_pos (by omega), hscanned]
        simp only [h0, h1, hflag, hskip, commentScanHtml_eq_none flags hcomment, hpos,
          HtmlFlags.set, and_self, if_true, if_false]
      rw [Scanned, hscan, hskips]
      have hcloser := firstCloser_declaration hpos
      by_cases hin : pos + 1 + width (fun c => c ≠ 0x3e) data (pos + 1) < data.length
      · have hreached : reached data pos .declaration =
            some (pos + 1 + width (fun c => c ≠ 0x3e) data (pos + 1) + 1) := by
          simp only [reached]
          rw [hcloser, if_pos hin]
          rfl
        rw [if_neg (by omega), hreached, flagsAfter_of_reached hreached]
        refine ⟨?_, rfl⟩
        simp only [Bool.false_eq_true, if_false, lengthTo]
        omega
      · have hreached : reached data pos .declaration = none := by
          simp only [reached]
          rw [hcloser, if_neg hin]
          rfl
        rw [if_pos (by omega), hreached, flagsAfter_of_unreached hskips hreached (by omega)]
        exact ⟨rfl, rfl⟩

lemma scanned_instruction (hclean : 0 ∉ data) (flags : HtmlFlags)
    (h0 : byteAt data pos = 0x3f) : Scanned data pos flags .instruction := by
  have hne : byteAt data pos ≠ 0x21 := by
    rw [h0]
    decide
  by_cases hlen : pos + 2 ≤ data.length
  · cases hskip : flags.skipPi with
    | true =>
      have hskips : flags.skips .instruction = true := hskip
      have hscan : scanInlineHtml data pos flags = (0, flags, false) := by
        unfold scanInlineHtml
        rw [if_pos hlen]
        simp [h0, hskip]
      rw [Scanned, hscan, flagsAfter_of_skips hskips, if_pos hskips]
      exact ⟨rfl, rfl⟩
    | false =>
      have hskips : flags.skips .instruction = false := hskip
      obtain ⟨hsome, hnone⟩ := scanPattern_instruction hclean
        (show pos + 1 < data.length by omega)
      have hscan : scanInlineHtml data pos flags =
          if data.length < pos + (scanPattern processinginstruction data (pos + 1) + 3) then
            (0, flags.set .instruction, false)
          else (scanPattern processinginstruction data (pos + 1) + 3, flags, false) := by
        unfold scanInlineHtml
        rw [if_pos hlen]
        simp [h0, hskip, HtmlFlags.set]
      rw [Scanned, hscan, hskips]
      cases hsearch : (bodyScanner 0x3f 1 data).search data.length (pos + 1) with
      | none =>
        have hreached : reached data pos .instruction = none := by
          simp only [reached]
          rw [hsearch]
          rfl
        have hfar := hnone hsearch
        rw [if_pos (by omega), hreached, flagsAfter_of_unreached hskips hreached hlen]
        exact ⟨rfl, rfl⟩
      | some e =>
        have hreached : reached data pos .instruction = some (e + 2) := by
          simp only [reached]
          rw [hsearch]
          rfl
        have hend := hsome e hsearch
        have hclosed := ((Scanner.search_eq_some _ _ _ _).mp hsearch).2.2
        have hfits := ((closerAt_iff (by decide) _).mp hclosed).length_le
        simp only [List.length_append, List.length_replicate, List.length_singleton,
          List.length_drop] at hfits
        rw [if_neg (by omega), hreached, flagsAfter_of_reached hreached]
        refine ⟨?_, rfl⟩
        simp only [Bool.false_eq_true, if_false, lengthTo]
        omega
  · have hscan : scanInlineHtml data pos flags = (0, flags, false) := by
      unfold scanInlineHtml
      rw [if_neg hlen]
    have hreached : reached data pos .instruction = none := by
      simp only [reached]
      cases hsearch : (bodyScanner 0x3f 1 data).search data.length (pos + 1) with
      | none => rfl
      | some e =>
        obtain ⟨hmeets, hlt, _⟩ := (Scanner.search_eq_some _ _ _ _).mp hsearch
        have := hmeets.le
        omega
    rw [Scanned, hscan, flagsAfter, if_pos (Or.inr (Or.inr (by omega))), hreached]
    exact ⟨by simp [lengthTo], rfl⟩

/-- What a scan of a construct answers and leaves of the flags. -/
lemma scanned_of_construct (hclean : 0 ∉ data) (flags : HtmlFlags) {c : Construct}
    (hc : constructAt data pos = some c) : Scanned data pos flags c := by
  unfold constructAt at hc
  split at hc
  · rename_i h
    obtain rfl : Construct.comment = c := by simpa using hc
    exact scanned_comment hclean flags h
  · split at hc
    · rename_i h
      obtain rfl : Construct.cdata = c := by simpa using hc
      exact scanned_cdata hclean flags h
    · split at hc
      · rename_i h
        obtain rfl : Construct.declaration = c := by simpa using hc
        exact scanned_declaration hclean flags h.1 h.2
      · split at hc
        · rename_i h
          obtain rfl : Construct.instruction = c := by simpa using hc
          exact scanned_instruction hclean flags h
        · simp at hc

/-- Where no construct begins the flags stay. -/
lemma flags_of_no_construct (flags : HtmlFlags) (hc : constructAt data pos = none) :
    (scanInlineHtml data pos flags).2.1 = flags := by
  have hcomment : startsWith [0x21, 0x2d, 0x2d] data pos = false := by
    by_contra hcon
    rw [Bool.not_eq_false] at hcon
    simp [constructAt, hcon] at hc
  have hcdata : startsWith [0x21, 0x5b, 0x43, 0x44, 0x41, 0x54, 0x41, 0x5b] data pos = false := by
    by_contra hcon
    rw [Bool.not_eq_false] at hcon
    simp [constructAt, hcomment, hcon] at hc
  have hdeclaration : ¬ (byteAt data pos = 0x21 ∧ isLetter (byteAt data (pos + 1)) = true) := by
    intro hcon
    rw [constructAt, hcomment, hcdata, if_neg (by simp), if_neg (by simp), if_pos hcon] at hc
    simp at hc
  have hinstruction : byteAt data pos ≠ 0x3f := by
    intro hcon
    rw [constructAt, hcomment, hcdata, if_neg (by simp), if_neg (by simp), if_neg hdeclaration,
      if_pos hcon] at hc
    simp at hc
  by_cases hmark : byteAt data pos = 0x21
  · cases hflag : flags.skipComment with
    | true => rw [scanInlineHtml_flagged hmark hflag]
    | false =>
      have hletter : isLetter (byteAt data (pos + 1)) = false := by
        rw [← Bool.not_eq_true]
        exact fun hcon => hdeclaration ⟨hmark, hcon⟩
      unfold scanInlineHtml
      split
      · simp only [hmark, hflag, and_self, if_true, commentScanHtml_eq_none flags hcomment]
        split
        · rename_i hbracket
          have htail : startsWith [0x43, 0x44, 0x41, 0x54, 0x41, 0x5b] data (pos + 2) = false := by
            rw [← Bool.not_eq_true]
            intro hcon
            have htrue : startsWith [0x21, 0x5b, 0x43, 0x44, 0x41, 0x54, 0x41, 0x5b] data pos =
                true := by
              rw [startsWith_cons (by decide), startsWith_cons (by decide)]
              exact ⟨hmark, hbracket, hcon⟩
            rw [htrue] at hcdata
            simp at hcdata
          rw [scanPattern_cdata_eq_zero htail]
          split <;> rfl
        · rw [scanPattern_declaration_eq_zero hletter]
          split <;> rfl
      · rfl
  · unfold scanInlineHtml
    split
    · simp [hmark, hinstruction]
    · rfl

end MarkdownCore.Inline
