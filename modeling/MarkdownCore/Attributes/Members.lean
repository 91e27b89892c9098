import MarkdownCore.Attributes.Read

/-!
# What a recognised container holds

Between its braces a recognised container holds no blank line, so a quoted value is the same
whether the search for its closer minds blank lines or not, and the bounds of its members are the
same in the text cut off behind the container.
-/

namespace MarkdownCore.Attributes

open Inline

variable {data : List UInt8} {b next e pos stop finish : ℕ}

/-! ### Member by member -/

/-- The first byte of a name. -/
structure NameByte (data : List UInt8) (b : ℕ) : Prop where
  name : nameTerminator (byteAt data b) = false
  number : byteAt data b ≠ 0x23
  dot : byteAt data b ≠ 0x2e
  dash : ¬ (byteAt data b = 0x2d ∧ memberBoundary data (b + 1) = true)

/-- A member from a boundary to the next, as its bytes say. -/
inductive MemberAt (data : List UInt8) (b : ℕ) : Member → ℕ → Prop
  | unnumbered (hbyte : byteAt data b = 0x2d) (hend : memberBoundary data (b + 1) = true) :
      MemberAt data b (.unnumbered b) (b + 1)
  | identifier (hbyte : byteAt data b = 0x23) (hname : b + 1 < scanName data (b + 1)) :
      MemberAt data b (.identifier ⟨b + 1, scanName data (b + 1)⟩) (scanName data (b + 1))
  | className (hbyte : byteAt data b = 0x2e) (hname : b + 1 < scanName data (b + 1)) :
      MemberAt data b (.className ⟨b + 1, scanName data (b + 1)⟩) (scanName data (b + 1))
  | bare (hname : NameByte data b) (hend : memberBoundary data (scanName data (b + 1)) = true) :
      MemberAt data b (.bare ⟨b, scanName data (b + 1)⟩) (scanName data (b + 1))
  | quoted (hname : NameByte data b) (hassign : byteAt data (scanName data (b + 1)) = 0x3d)
      (hclose : valueClose data (scanName data (b + 1)) + 1 < data.length) :
      MemberAt data b (.record ⟨b, scanName data (b + 1)⟩
        ⟨scanName data (b + 1) + 2, valueClose data (scanName data (b + 1))⟩ true)
        (valueClose data (scanName data (b + 1)) + 1)
  | unquoted (hname : NameByte data b) (hassign : byteAt data (scanName data (b + 1)) = 0x3d)
      (hclose : ¬ valueClose data (scanName data (b + 1)) + 1 < data.length) :
      MemberAt data b (.record ⟨b, scanName data (b + 1)⟩
        ⟨scanName data (b + 1) + 1, unquotedStop data (scanName data (b + 1) + 1)⟩ false)
        (unquotedStop data (scanName data (b + 1) + 1))

lemma scanName_pos (hlt : pos < data.length) (h : ¬ nameTerminator (byteAt data pos) = true) :
    pos < scanName data pos := by
  have hwidth : 0 < width (fun c => !nameTerminator c) data pos := by
    apply width_byteAt_pos _ hlt
    simpa using h
  unfold scanName
  omega

/-- A first byte that no other case of the switch takes starts a name. -/
lemma NameByte.of_dispatch (hgap : horizontal (byteAt data b) = false)
    (hline : newline (byteAt data b) = false) (hclose : ¬ byteAt data b = 0x7d)
    (hother : ¬ (byteAt data b = 0x3d ∨ byteAt data b = 0x22 ∨ byteAt data b = 0x27 ∨
      byteAt data b = 0x7b))
    (hdash : ¬ (byteAt data b = 0x2d ∧ memberBoundary data (b + 1) = true))
    (hmark : ¬ (byteAt data b = 0x23 ∨ byteAt data b = 0x2e)) : NameByte data b := by
  rw [not_or, not_or, not_or] at hother
  rw [not_or] at hmark
  refine ⟨?_, hmark.1, hmark.2, hdash⟩
  simp [nameTerminator, isQuote, hgap, hline, hclose, hother]

/-- What recognition takes for a member is one. -/
lemma outcome_memberAt {m : Member} (h : outcome data b = .member m next) :
    b < data.length ∧ horizontal (byteAt data b) = false ∧ newline (byteAt data b) = false ∧
      MemberAt data b m next := by
  unfold outcome at h
  split at h
  · cases h
  rename_i hlt
  rw [not_le] at hlt
  split at h
  · cases hskip : skipGap data b with
    | _ =>
      rw [hskip] at h
      cases h
  rename_i hgap
  rw [Bool.not_eq_true, Bool.or_eq_false_iff] at hgap
  refine ⟨hlt, hgap.1, hgap.2, ?_⟩
  cases hdispatch : dispatch data b with
  | last finish =>
    rw [hdispatch] at h
    cases h
  | member m' place =>
    rw [hdispatch] at h
    cases h
    unfold dispatch at hdispatch
    dsimp only at hdispatch
    split_ifs at hdispatch with hclose hother hdash hmark hname hnumber
    all_goals cases hdispatch
    · exact .unnumbered hdash.1 hdash.2
    · exact .identifier hnumber (scanName_pos hname.1 hname.2)
    · exact .className (hmark.resolve_left hnumber) (scanName_pos hname.1 hname.2)
    · rename_i hboundary
      exact .bare (.of_dispatch hgap.1 hgap.2 hclose hother hdash hmark) hboundary
  | assignment e =>
    rw [hdispatch] at h
    cases h
    obtain ⟨_, _, hassign, rfl⟩ := dispatch_assignment hdispatch
    have hname : NameByte data b := by
      unfold dispatch at hdispatch
      dsimp only at hdispatch
      split_ifs at hdispatch with hclose hother hdash hmark
      exact .of_dispatch hgap.1 hgap.2 hclose hother hdash hmark
    unfold assigned
    split
    · rename_i hclose
      exact .quoted hname hassign hclose
    · rename_i hclose
      exact .unquoted hname hassign hclose

/-- A container ends behind the boundaries it is read from. -/
lemma Reads.lt {members : List Member} (h : Reads data b members (some finish)) :
    b < finish ∧ finish ≤ data.length ∧ byteAt data (finish - 1) = 0x7d := by
  generalize hresult : some finish = result at h
  induction h with
  | @last b result h =>
    subst hresult
    obtain ⟨rfl, hlt, hbyte⟩ := outcome_last h
    exact ⟨Nat.lt_succ_self b, hlt, hbyte⟩
  | gap h _ ih =>
    obtain ⟨hlt, _⟩ := outcome_gap h
    obtain ⟨hfinish, hrest⟩ := ih hresult
    exact ⟨hlt.trans hfinish, hrest⟩
  | member h _ ih =>
    obtain ⟨hlt, _⟩ := outcome_member h
    obtain ⟨hfinish, hrest⟩ := ih hresult
    exact ⟨hlt.trans hfinish, hrest⟩

/-! ### Quoted values -/

lemma not_escaped (h : byteAt data pos ≠ 0x5c) : escaped data pos = false := by
  simp [escaped, h]

/-- A search for the closer passes bytes that are neither quotes nor backslashes. -/
lemma plain_skip {quote : UInt8} (hle : pos ≤ stop)
    (h : ∀ k, pos ≤ k → k < stop → byteAt data k ≠ quote ∧ byteAt data k ≠ 0x5c) :
    (plainUnits data quote).search data.length pos =
      (plainUnits data quote).search data.length stop := by
  induction stop, hle using Nat.le_induction with
  | base => rfl
  | succ stop hle ih =>
    rw [ih (fun k hk hlt => h k hk (Nat.lt_succ_of_lt hlt))]
    obtain ⟨hquote, hslash⟩ := h stop hle (Nat.lt_succ_self stop)
    have hstep : (plainUnits data quote).search data.length stop =
        (plainUnits data quote).search data.length (stop + (plainUnits data quote).width stop) :=
      Scanner.search_step _ (decide_eq_false hquote)
    have hwidth : (plainUnits data quote).width stop = 1 := by
      simp [plainUnits, not_escaped hslash]
    rwa [hwidth] at hstep

/-- Behind a line ending stand bytes of the line ending and of the next line's indentation. -/
lemma nextLine_byte {k : ℕ} (hle : pos ≤ k) (hlt : k < nextLine data pos)
    (hline : newline (byteAt data pos) = true) :
    newline (byteAt data k) = true ∨ horizontal (byteAt data k) = true := by
  rcases Nat.lt_or_ge k (behindLine data pos) with hbefore | hbehind
  · left
    unfold behindLine at hbefore
    split at hbefore
    · rename_i hcrlf
      obtain rfl | rfl : k = pos ∨ k = pos + 1 := by omega
      · exact hline
      · rw [hcrlf.2.2]
        decide
    · obtain rfl : k = pos := by omega
      exact hline
  · exact Or.inr (width_byteAt horizontal hbehind hlt).2

lemma quote_ne_blank {quote c : UInt8} (hquote : isQuote quote = true)
    (h : newline c = true ∨ horizontal c = true) : c ≠ quote ∧ c ≠ 0x5c := by
  simp only [isQuote, Bool.or_eq_true, decide_eq_true_eq] at hquote
  simp only [newline, horizontal, Bool.or_eq_true, decide_eq_true_eq] at h
  rcases hquote with rfl | rfl <;> rcases h with (rfl | rfl) | (rfl | rfl) <;> decide

/-- One unit of a quoted value is passed by the search that takes a line ending for a byte. -/
lemma plain_unit {quote : UInt8} (hquote : isQuote quote = true)
    (hclose : (quotedUnits data quote).closes pos = false) :
    (plainUnits data quote).search data.length pos =
      (plainUnits data quote).search data.length (pos + (quotedUnits data quote).width pos) := by
  have hbyte : byteAt data pos ≠ quote := by
    simp only [quotedUnits, Bool.or_eq_false_iff, decide_eq_false_iff_not] at hclose
    exact hclose.1
  have hstep : (plainUnits data quote).search data.length pos =
      (plainUnits data quote).search data.length (pos + (plainUnits data quote).width pos) :=
    Scanner.search_step _ (decide_eq_false hbyte)
  have hnext := lt_nextLine data pos
  simp only [quotedUnits]
  split
  · rename_i hescape
    rw [hstep]
    simp [plainUnits, hescape]
  · rename_i hescape
    split
    · rename_i hline
      rw [Nat.add_sub_cancel' hnext.le]
      apply plain_skip hnext.le
      intro k hle hlt
      exact quote_ne_blank hquote (nextLine_byte hle hlt hline)
    · rw [hstep]
      simp [plainUnits, hescape]

/-- The closer of a quoted value is the first quote. -/
lemma plain_of_quoted {quote : UInt8} (hquote : isQuote quote = true)
    (h : (quotedUnits data quote).search data.length pos = some stop)
    (hbyte : byteAt data stop = quote) :
    (plainUnits data quote).search data.length pos = some stop := by
  obtain ⟨hmeets, hlt, _⟩ := (Scanner.search_eq_some _ _ _ _).mp h
  have hsearch : ∀ {a b}, (quotedUnits data quote).Meets a b →
      (plainUnits data quote).search data.length a =
        (plainUnits data quote).search data.length b := by
    intro a b hab
    induction hab with
    | start => rfl
    | step _ hclose ih => rw [ih, plain_unit hquote hclose]
  rw [hsearch hmeets]
  exact Scanner.search_of_closes _ hlt (decide_eq_true hbyte)

/-- Where no line ending is followed by a blank line the first quote closes. -/
lemma quoted_of_plain {quote : UInt8} (hquote : isQuote quote = true)
    (h : (plainUnits data quote).search data.length pos = some stop)
    (hlines : ∀ k, pos ≤ k → k < stop → newline (byteAt data k) = true →
      beforeBlank data k = false) :
    (quotedUnits data quote).search data.length pos = some stop := by
  have hall : ∀ left pos, stop - pos ≤ left →
      (plainUnits data quote).search data.length pos = some stop →
      (∀ k, pos ≤ k → k < stop → newline (byteAt data k) = true → beforeBlank data k = false) →
      (quotedUnits data quote).search data.length pos = some stop := by
    intro left
    induction left with
    | zero =>
      intro pos hleft h _
      obtain ⟨hmeets, hlt, hclose⟩ := (Scanner.search_eq_some _ _ _ _).mp h
      obtain rfl : pos = stop := by
        have := hmeets.le
        omega
      have hbyte : byteAt data pos = quote := by simpa [plainUnits] using hclose
      exact Scanner.search_of_closes _ hlt (by simp [quotedUnits, hbyte])
    | succ left ih =>
      intro pos hleft h hlines
      obtain ⟨hmeets, hlt, hclose⟩ := (Scanner.search_eq_some _ _ _ _).mp h
      rcases Nat.eq_or_lt_of_le hmeets.le with rfl | hbefore
      · have hbyte : byteAt data pos = quote := by simpa [plainUnits] using hclose
        exact Scanner.search_of_closes _ hlt (by simp [quotedUnits, hbyte])
      · have hopen : (plainUnits data quote).closes pos = false :=
          (Scanner.Meets.start.of_lt hmeets hbefore).1
        have hunit : (quotedUnits data quote).closes pos = false := by
          have hbyte : byteAt data pos ≠ quote := by simpa [plainUnits] using hopen
          simp only [quotedUnits, Bool.or_eq_false_iff, decide_eq_false_iff_not]
          refine ⟨hbyte, ?_⟩
          cases hline : newline (byteAt data pos) with
          | false => simp
          | true => simp [hlines pos le_rfl hbefore hline]
        have hwidth := (quotedUnits data quote).width_pos pos
        rw [Scanner.search_step _ hunit]
        rw [plain_unit hquote hunit] at h
        refine ih _ (by omega) h ?_
        exact fun k hk hlt' hline => hlines k (by omega) hlt' hline
  exact hall _ pos le_rfl h hlines

/-! ### Blank lines -/

lemma ispunct_not_newline {c : UInt8} (h : ispunct c = true) : newline c = false := by
  by_contra hcon
  simp only [newline, Bool.not_eq_false, Bool.or_eq_true, decide_eq_true_eq] at hcon
  rcases hcon with rfl | rfl <;> revert h <;> decide

lemma horizontal_not_newline {c : UInt8} (h : horizontal c = true) : newline c = false := by
  simp only [horizontal, Bool.or_eq_true, decide_eq_true_eq] at h
  rcases h with rfl | rfl <;> decide

/-- Both bytes of a line ending are before the same next line. -/
lemma beforeBlank_second {k : ℕ} (hle : pos ≤ k)
    (hlt : k < nextLine data pos) (hline : newline (byteAt data k) = true) :
    beforeBlank data k = beforeBlank data pos := by
  rcases Nat.eq_or_lt_of_le hle with rfl | hafter
  · rfl
  rcases Nat.lt_or_ge k (behindLine data pos) with hbefore | hbehind
  · have hcrlf : byteAt data pos = 0x0d ∧ pos + 1 < data.length ∧ byteAt data (pos + 1) = 0x0a := by
      by_contra hcon
      rw [behindLine, if_neg hcon] at hbefore
      omega
    obtain rfl : k = pos + 1 := by
      rw [behindLine, if_pos hcrlf] at hbefore
      omega
    have hbehind : behindLine data (pos + 1) = behindLine data pos := by
      rw [behindLine, behindLine, if_pos hcrlf, if_neg]
      rintro ⟨hcr, _⟩
      rw [hcrlf.2.2] at hcr
      cases hcr
    unfold beforeBlank nextLine
    rw [hbehind]
  · rw [horizontal_not_newline (width_byteAt horizontal hbehind hlt).2] at hline
    cases hline

/-- In a quoted value no blank line follows a line ending. -/
lemma quoted_lines {quote : UInt8}
    (h : (quotedUnits data quote).search data.length pos = some stop) {k : ℕ} (hle : pos ≤ k)
    (hlt : k < stop) (hline : newline (byteAt data k) = true) : beforeBlank data k = false := by
  obtain ⟨hmeets, _, _⟩ := (Scanner.search_eq_some _ _ _ _).mp h
  obtain ⟨unit, _, hclose, hunit, hin⟩ := hmeets.exists_unit hle hlt
  simp only [quotedUnits, Bool.or_eq_false_iff, Bool.and_eq_false_iff] at hclose
  simp only [quotedUnits] at hin
  split at hin
  · rename_i hescape
    obtain ⟨hslash, _, hpunct⟩ := escaped_iff.mp hescape
    obtain rfl | rfl : k = unit ∨ k = unit + 1 := by omega
    · rw [hslash] at hline
      cases hline
    · rw [ispunct_not_newline hpunct] at hline
      cases hline
  · rename_i hescape
    rw [Bool.not_eq_true] at hescape
    split at hin
    · rename_i hunitLine
      -- The line ending is the unit's own, or its second byte.
      have hblank : beforeBlank data unit = false := by
        rcases hclose.2 with (h | h) | h
        · rw [hescape] at h
          cases h
        · rw [hunitLine] at h
          cases h
        · exact h
      rw [← hblank]
      exact beforeBlank_second hunit (by omega) hline
    · obtain rfl : k = unit := by omega
      rename_i hother
      exact absurd hline hother

/-- An unquoted value holds no line ending. -/
lemma unquoted_line {k : ℕ} (hle : pos ≤ k) (hlt : k < unquotedStop data pos)
    (hstop : unquotedStop data pos < data.length) : newline (byteAt data k) = false := by
  obtain ⟨close, hclose⟩ : ∃ close, (unquotedUnits data).search data.length pos = some close := by
    cases hsearch : (unquotedUnits data).search data.length pos with
    | some close => exact ⟨close, rfl⟩
    | none =>
      rw [unquotedStop, hsearch] at hstop
      exact absurd hstop (Nat.lt_irrefl _)
  rw [unquotedStop, hclose, Option.getD_some] at hlt
  obtain ⟨hmeets, _, _⟩ := (Scanner.search_eq_some _ _ _ _).mp hclose
  obtain ⟨unit, _, hopen, hunit, hin⟩ := hmeets.exists_unit hle hlt
  have hopenByte : newline (byteAt data unit) = false := by
    simp only [unquotedUnits, valueEnd, Bool.or_eq_false_iff] at hopen
    exact hopen.1.2
  simp only [unquotedUnits] at hin
  split at hin
  · rename_i hescape
    obtain rfl | rfl : k = unit ∨ k = unit + 1 := by omega
    · exact hopenByte
    · exact ispunct_not_newline (escaped_iff.mp hescape).2.2
  · obtain rfl : k = unit := by omega
    exact hopenByte

lemma name_line {k : ℕ} (h : nameTerminator (byteAt data k) = false) :
    newline (byteAt data k) = false := by
  simp only [nameTerminator, Bool.or_eq_false_iff] at h
  exact h.1.1.1.1.2

lemma byte_line {c : UInt8} (h : c = 0x3d ∨ isQuote c = true) : newline c = false := by
  simp only [isQuote, Bool.or_eq_true, decide_eq_true_eq] at h
  rcases h with rfl | rfl | rfl <;> decide

/-- Behind no line ending of a member stands a blank line. -/
lemma MemberAt.lines {m : Member} (h : MemberAt data b m next) (hb : newline (byteAt data b) = false)
    (hin : next < data.length) {k : ℕ} (hle : b ≤ k) (hlt : k < next)
    (hline : newline (byteAt data k) = true) : beforeBlank data k = false := by
  rcases Nat.eq_or_lt_of_le hle with rfl | hafter
  · rw [hb] at hline
    cases hline
  have hname : ∀ {stop}, k < stop → stop ≤ scanName data (b + 1) → False := by
    intro stop hstop hscan
    have hbyte := (scanName_byte hafter (Nat.lt_of_lt_of_le hstop hscan)).2
    rw [name_line hbyte] at hline
    cases hline
  cases h with
  | unnumbered _ _ => omega
  | identifier _ _ => exact (hname hlt le_rfl).elim
  | className _ _ => exact (hname hlt le_rfl).elim
  | bare _ _ => exact (hname hlt le_rfl).elim
  | quoted _ hassign hclose =>
    obtain ⟨hled, heq, hopen⟩ := valueClose_spec hclose
    have hquoteClose : quoteClose data (scanName data (b + 1) + 1) < data.length := by omega
    obtain ⟨hsearch, hbyte⟩ := quoteClose_spec hquoteClose
    rw [← heq] at hsearch hbyte
    rw [quoteLed, Bool.and_eq_true] at hled
    rcases Nat.lt_or_ge k (scanName data (b + 1)) with hbefore | hbehind
    · exact (hname hbefore le_rfl).elim
    rcases Nat.lt_or_ge k (scanName data (b + 1) + 2) with hhead | hvalue
    · have hquiet : newline (byteAt data k) = false := by
        obtain rfl | rfl : k = scanName data (b + 1) ∨ k = scanName data (b + 1) + 1 := by omega
        · exact byte_line (Or.inl hassign)
        · exact byte_line (Or.inr hled.2)
      rw [hquiet] at hline
      cases hline
    rcases Nat.lt_or_ge k (valueClose data (scanName data (b + 1))) with hinside | hend
    · exact quoted_lines hsearch hvalue hinside hline
    · obtain rfl : k = valueClose data (scanName data (b + 1)) := by omega
      rw [hbyte, byte_line (Or.inr hled.2)] at hline
      cases hline
  | unquoted _ hassign _ =>
    rcases Nat.lt_or_ge k (scanName data (b + 1)) with hbefore | hbehind
    · exact (hname hbefore le_rfl).elim
    rcases Nat.eq_or_lt_of_le hbehind with rfl | hvalue
    · rw [hassign] at hline
      cases hline
    · rw [unquoted_line hvalue hlt hin] at hline
      cases hline

/-- The bytes of the whitespace between members: spaces and tabs, or a line ending with the next
line's, which is not blank. -/
lemma gap_cases (h : outcome data b = .gap next) {k : ℕ} (hle : b ≤ k) (hlt : k < next) :
    horizontal (byteAt data k) = true ∨
      (newline (byteAt data k) = true ∧ beforeBlank data k = false) := by
  have hskip : skipGap data b = some next := by
    unfold outcome at h
    split at h
    · cases h
    split at h
    · cases hskip : skipGap data b with
      | none =>
        rw [hskip] at h
        cases h
      | some place =>
        rw [hskip] at h
        cases h
        rfl
    · cases hdispatch : dispatch data b with
      | _ =>
        rw [hdispatch] at h
        cases h
  unfold skipGap at hskip
  dsimp only at hskip
  split at hskip
  · rename_i hline
    split at hskip
    · cases hskip
    · rename_i hblank
      obtain rfl := Option.some.inj hskip
      rw [Bool.not_eq_true] at hblank
      rcases Nat.lt_or_ge k (skipHorizontal data b) with hbefore | hbehind
      · exact Or.inl (width_byteAt horizontal hle hbefore).2
      · rcases nextLine_byte hbehind hlt hline.2 with hnew | hspace
        · exact Or.inr ⟨hnew, (beforeBlank_second hbehind hlt hnew).trans hblank⟩
        · exact Or.inl hspace
  · obtain rfl := Option.some.inj hskip
    exact Or.inl (width_byteAt horizontal hle hlt).2

lemma gap_byte (h : outcome data b = .gap next) {k : ℕ} (hle : b ≤ k) (hlt : k < next) :
    (horizontal (byteAt data k) || newline (byteAt data k)) = true := by
  rcases gap_cases h hle hlt with hspace | ⟨hline, _⟩
  · rw [hspace, Bool.true_or]
  · rw [hline, Bool.or_true]

/-- In the whitespace between members no blank line follows a line ending. -/
lemma gap_lines (h : outcome data b = .gap next) {k : ℕ} (hle : b ≤ k) (hlt : k < next)
    (hline : newline (byteAt data k) = true) : beforeBlank data k = false := by
  rcases gap_cases h hle hlt with hspace | ⟨_, hblank⟩
  · rw [horizontal_not_newline hspace] at hline
    cases hline
  · exact hblank

/-- No blank line follows a line ending of a container. -/
lemma Reads.lines {members : List Member} (h : Reads data b members (some finish)) {k : ℕ}
    (hle : b ≤ k) (hlt : k < finish - 1) (hline : newline (byteAt data k) = true) :
    beforeBlank data k = false := by
  generalize hresult : some finish = result at h
  induction h with
  | @last b result h =>
    subst hresult
    obtain ⟨rfl, _, _⟩ := outcome_last h
    omega
  | @gap b next members result h rest ih =>
    rcases Nat.lt_or_ge k next with hbefore | hbehind
    · exact gap_lines h hle hbefore hline
    · exact ih hbehind hresult
  | @member b next m members result h rest ih =>
    rcases Nat.lt_or_ge k next with hbefore | hbehind
    · obtain ⟨_, _, hb, hmember⟩ := outcome_memberAt h
      subst hresult
      obtain ⟨hnext, hfinish, _⟩ := rest.lt
      exact hmember.lines hb (Nat.lt_of_lt_of_le hnext hfinish) hle hbefore hline
    · exact ih hbehind hresult

end MarkdownCore.Attributes
