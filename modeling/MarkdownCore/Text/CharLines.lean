import MarkdownCore.Text.LineTable

/-!
# Lines of characters

What a line is, said of a text's characters: `lineStarts` lists the indexes that start one, by the
characters about each alone. The line table of the text's bytes is that list, in bytes
(`span_eq`).
-/

namespace MarkdownCore.Text

/-- A character that ends a line. -/
def breaks (c : Char) : Bool := c == '\r' || c == '\n'

/-- A line starts at the text's start, after a line feed, and after a carriage return that no line
feed follows. -/
def startsLine (text : List Char) (i : ℕ) : Bool :=
  i == 0 || text[i - 1]? == some '\n' || (text[i - 1]? == some '\r' && text[i]? != some '\n')

/-- The indexes that start a line, in order. -/
def lineStarts (text : List Char) : List ℕ := (List.range (text.length + 1)).filter (startsLine text)

/-- The first line of a text: its content, what ends it, and the text after it. -/
structure FirstLine (text content ending rest : List Char) : Prop where
  text_eq : text = content ++ ending ++ rest
  content_goes_on : ∀ c ∈ content, breaks c = false
  closed : (ending = [] ∧ rest = []) ∨ ending = ['\n'] ∨ ending = ['\r', '\n'] ∨
    (ending = ['\r'] ∧ rest.head? ≠ some '\n')

lemma exists_firstLine (text : List Char) :
    ∃ content ending rest, FirstLine text content ending rest := by
  have hsplit := List.takeWhile_append_dropWhile (p := fun c => !breaks c) (l := text)
  have hgoes : ∀ c ∈ text.takeWhile fun c => !breaks c, breaks c = false := by
    intro c hc
    simpa using List.mem_takeWhile_imp hc
  cases hdrop : text.dropWhile fun c => !breaks c with
  | nil =>
    rw [hdrop, List.append_nil] at hsplit
    exact ⟨_, [], [], by simpa using hsplit.symm, hgoes, Or.inl ⟨rfl, rfl⟩⟩
  | cons c rest =>
    have hc : breaks c = true := by
      have := List.head?_dropWhile_not (fun c => !breaks c) text
      rw [hdrop] at this
      simpa using this
    rw [hdrop] at hsplit
    rw [breaks, Bool.or_eq_true, beq_iff_eq, beq_iff_eq] at hc
    rcases hc with rfl | rfl
    · cases rest with
      | nil => exact ⟨_, ['\r'], [], by simpa using hsplit.symm, hgoes, by simp⟩
      | cons d rest =>
        by_cases hd : d = '\n'
        · subst hd
          exact ⟨_, ['\r', '\n'], rest, by simpa using hsplit.symm, hgoes, by simp⟩
        · exact ⟨_, ['\r'], d :: rest, by simpa using hsplit.symm, hgoes, by simp [hd]⟩
    · exact ⟨_, ['\n'], rest, by simpa using hsplit.symm, hgoes, by simp⟩

/-! ### Where lines start -/

lemma breaks_eq_false {c : Char} (h : breaks c = false) : c ≠ '\r' ∧ c ≠ '\n' := by
  simpa [breaks] using h

/-- Past the first line, a line starts where the rest has one start. -/
lemma FirstLine.startsLine_add {text content ending rest : List Char}
    (h : FirstLine text content ending rest) (hending : ending ≠ []) (j : ℕ) :
    startsLine text ((content ++ ending).length + j) = startsLine rest j := by
  have htext := h.text_eq
  have hpos : 0 < (content ++ ending).length := by
    rw [List.length_append]
    have := List.length_pos_of_ne_nil hending
    omega
  cases j with
  | zero =>
    have hlast : startsLine text (content ++ ending).length = true := by
      have hget : ∀ l : List Char, text[(content ++ ending).length]? = rest.head? := by
        intro _
        rw [htext, List.getElem?_append_right (le_refl _), Nat.sub_self, List.head?_eq_getElem?]
      rcases h.closed with ⟨rfl, -⟩ | rfl | rfl | ⟨rfl, hrest⟩
      · exact absurd rfl hending
      · simp [startsLine, htext]
      · simp [startsLine, htext]
      · have hhead := hget []
        simp [startsLine, htext] at hhead ⊢
        rw [← hhead] at hrest
        simpa using hrest
    rw [Nat.add_zero, hlast]
    rfl
  | succ j =>
    have hprev : text[(content ++ ending).length + (j + 1) - 1]? = rest[j]? := by
      rw [htext, List.getElem?_append_right (by omega)]
      congr 1
      omega
    have hnext : text[(content ++ ending).length + (j + 1)]? = rest[j + 1]? := by
      rw [htext, List.getElem?_append_right (by omega), Nat.add_sub_cancel_left]
    rw [startsLine, startsLine, hprev, hnext, Nat.add_sub_cancel]
    have h₁ : ((content ++ ending).length + (j + 1) == 0) = false := by simp
    have h₂ : (j + 1 == 0) = false := by simp
    rw [h₁, h₂]

/-- Inside the first line no line starts. -/
lemma FirstLine.startsLine_lt {text content ending rest : List Char}
    (h : FirstLine text content ending rest) {i : ℕ} (hi : 0 < i)
    (hlt : i < (content ++ ending).length ∨ ending = []) : startsLine text i = false := by
  have hzero : (i == 0) = false := by simpa using (Nat.pos_iff_ne_zero.mp hi)
  rcases Nat.lt_or_ge (i - 1) content.length with hin | hout
  · -- The character before is one of the content.
    have hget : text[i - 1]? = some content[i - 1] := by
      rw [h.text_eq, List.append_assoc, List.getElem?_append_left hin,
        List.getElem?_eq_getElem hin]
    obtain ⟨h₁, h₂⟩ := breaks_eq_false (h.content_goes_on _ (List.getElem_mem hin))
    rw [startsLine, hzero, hget]
    simp [h₁, h₂]
  · rcases h.closed with ⟨rfl, rfl⟩ | rfl | rfl | ⟨rfl, -⟩
    · have hnone : text[i - 1]? = none := by
        rw [h.text_eq, List.append_nil, List.append_nil]
        exact List.getElem?_eq_none hout
      rw [startsLine, hzero, hnone]
      simp
    · simp only [List.length_append, List.length_cons, List.length_nil, reduceCtorEq,
        or_false] at hlt
      omega
    · -- Between a carriage return and its line feed.
      simp only [List.length_append, List.length_cons, List.length_nil, reduceCtorEq,
        or_false] at hlt
      have heq : i = content.length + 1 := by omega
      have hprev : text[i - 1]? = some '\r' := by
        rw [h.text_eq, heq, Nat.add_sub_cancel, List.append_assoc,
          List.getElem?_append_right (le_refl _), Nat.sub_self]
        rfl
      have hnext : text[i]? = some '\n' := by
        rw [h.text_eq, heq, List.append_assoc, List.getElem?_append_right (by omega),
          Nat.add_sub_cancel_left]
        rfl
      rw [startsLine, hzero, hprev, hnext]
      decide
    · simp only [List.length_append, List.length_cons, List.length_nil, reduceCtorEq,
        or_false] at hlt
      omega

lemma startsLine_zero (text : List Char) : startsLine text 0 = true := rfl

lemma filter_range_first {p : ℕ → Bool} (hzero : p 0 = true) {n : ℕ}
    (h : ∀ i, 0 < i → i < n + 1 → p i = false) : (List.range (n + 1)).filter p = [0] := by
  rw [List.range_succ_eq_map, List.filter_cons_of_pos hzero]
  refine congrArg _ (List.filter_eq_nil_iff.mpr fun i hi => ?_)
  obtain ⟨j, hj, rfl⟩ := List.mem_map.mp hi
  rw [h _ (Nat.succ_pos j) (Nat.succ_lt_succ (List.mem_range.mp hj))]
  simp

/-- The lines of a text start where its first does and where those of the rest do. -/
theorem FirstLine.lineStarts_eq {text content ending rest : List Char}
    (h : FirstLine text content ending rest) :
    lineStarts text = 0 :: if ending = [] then []
      else (lineStarts rest).map ((content ++ ending).length + ·) := by
  split
  next hending =>
    exact filter_range_first (startsLine_zero text)
      fun i hi _ => h.startsLine_lt hi (Or.inr hending)
  next hending =>
    have hpos : 0 < (content ++ ending).length := by
      rw [List.length_append]
      have := List.length_pos_of_ne_nil hending
      omega
    obtain ⟨n, hn⟩ : ∃ n, (content ++ ending).length = n + 1 := ⟨_, (Nat.succ_pred_eq_of_pos hpos).symm⟩
    have hlen : text.length + 1 = (content ++ ending).length + (rest.length + 1) := by
      rw [h.text_eq, List.length_append, Nat.add_assoc]
    rw [lineStarts, hlen, List.range_add, List.filter_append, hn,
      filter_range_first (startsLine_zero text)
        fun i hi hlt => h.startsLine_lt hi (Or.inl (by omega)),
      List.filter_map, ← hn, List.singleton_append, lineStarts]
    refine congrArg _ (congrArg _ (List.filter_congr fun j _ => ?_))
    exact h.startsLine_add hending j

/-! ### The bytes of a line -/

lemma ends_of_le {b : UInt8} (h : 128 ≤ b.toNat) : ends b = false := by
  rw [ends, Bool.or_eq_false_iff, beq_eq_false_iff_ne, beq_eq_false_iff_ne]
  constructor
  · rintro rfl
    exact absurd h (by decide)
  · rintro rfl
    exact absurd h (by decide)

lemma le_of_continues {b : UInt8} (h : continues b = true) : 128 ≤ b.toNat := by
  have hb := continues_of_lt b.toNat_lt
  rw [UInt8.ofNat_toNat, h] at hb
  have := of_decide_eq_true hb.symm
  omega

/-- A character that ends no line has no byte that does. -/
lemma ends_encodeChar {c : Char} (hc : breaks c = false) {b : UInt8}
    (hb : b ∈ String.utf8EncodeChar c) : ends b = false := by
  obtain ⟨head, tail, h⟩ := exists_encoding c
  rw [h.bytes, List.mem_cons] at hb
  rcases hb with rfl | hb
  · by_cases hascii : c.val.toNat < 128
    · obtain ⟨hhead, -⟩ := h.ascii hascii
      obtain ⟨h₁, h₂⟩ := breaks_eq_false hc
      have hne : ∀ d : Char, c ≠ d → c.val.toNat ≠ d.val.toNat :=
        fun d hcd heq => hcd (Char.ext (UInt32.toNat_inj.mp heq))
      have hcr := hne _ h₁
      have hlf := hne _ h₂
      have hto : b.toNat = c.val.toNat := by rw [hhead, toNat_of_lt (by omega)]
      rw [ends, Bool.or_eq_false_iff, beq_eq_false_iff_ne, beq_eq_false_iff_ne]
      constructor
      · rintro rfl
        exact hcr hto.symm
      · rintro rfl
        exact hlf hto.symm
    · exact ends_of_le ((h.wide (not_lt.mp hascii)).trans' (by omega))
  · exact ends_of_le (le_of_continues (h.tail_continues b hb))

lemma ends_encode {content : List Char} (h : ∀ c ∈ content, breaks c = false) {b : UInt8}
    (hb : b ∈ encode content) : ends b = false := by
  obtain ⟨c, hc, hb⟩ := List.mem_flatMap.mp hb
  exact ends_encodeChar (h c hc) hb

lemma takeWhile_not_ends {content : List Char} (h : ∀ c ∈ content, breaks c = false)
    {after : List UInt8} (hafter : ∀ b, after.head? = some b → ends b = true) :
    (encode content ++ after).takeWhile (fun b => !ends b) = encode content := by
  have hall : ∀ b ∈ encode content, (!ends b) = true := by
    intro b hb
    rw [ends_encode h hb]
    rfl
  rw [List.takeWhile_append_of_pos hall]
  cases after with
  | nil => rw [List.takeWhile_nil, List.append_nil]
  | cons b after =>
    rw [List.takeWhile_cons_of_neg, List.append_nil]
    rw [hafter b rfl]
    simp

lemma encode_carriageReturn : encode ['\r'] = [carriageReturn] := by decide

lemma encode_lineFeed : encode ['\n'] = [lineFeed] := by decide

lemma encode_both : encode ['\r', '\n'] = [carriageReturn, lineFeed] := by decide

/-- What does not start with a line feed has no bytes that do. -/
lemma head_encode {rest : List Char} (h : rest.head? ≠ some '\n') :
    (encode rest).head? ≠ some lineFeed := by
  cases rest with
  | nil => simp
  | cons c rest =>
    obtain ⟨head, tail, henc⟩ := exists_encoding c
    rw [encode_cons, henc.bytes, List.cons_append, List.head?_cons, ne_eq, Option.some.injEq]
    rintro rfl
    by_cases hc : breaks c = true
    · rw [breaks, Bool.or_eq_true, beq_iff_eq, beq_iff_eq] at hc
      rcases hc with rfl | rfl
      · have hcr : encode ['\r'] = lineFeed :: tail := by
          rw [encode_cons, henc.bytes, encode_nil, List.append_nil]
        rw [encode_carriageReturn] at hcr
        exact absurd (List.cons.inj hcr).1 (by decide)
      · exact h rfl
    · have := ends_encodeChar (Bool.eq_false_iff.mpr hc) (b := lineFeed)
        (by rw [henc.bytes]; exact List.mem_cons_self ..)
      exact absurd this (by decide)

/-- The scanner's first line of a text's bytes is the text's first line. -/
lemma FirstLine.lengths {text content ending rest : List Char}
    (h : FirstLine text content ending rest) :
    spanLength (encode text) = (encode content).length ∧
      lineLength (encode text) = (encode (content ++ ending)).length := by
  have htext : encode text = encode content ++ (encode ending ++ encode rest) := by
    rw [h.text_eq, encode_append, encode_append, List.append_assoc]
  have hget : ∀ k, (encode text)[(encode content).length + k]? =
      (encode ending ++ encode rest)[k]? := by
    intro k
    rw [htext, List.getElem?_append_right (Nat.le_add_right _ _), Nat.add_sub_cancel_left]
  have hget₀ := hget 0
  rw [Nat.add_zero] at hget₀
  have hspan : ∀ b, (encode ending ++ encode rest).head? = some b → ends b = true := by
    intro b hb
    rcases h.closed with ⟨rfl, rfl⟩ | rfl | rfl | ⟨rfl, -⟩
    · exact absurd hb (by simp)
    · rw [encode_lineFeed, List.singleton_append, List.head?_cons, Option.some.injEq] at hb
      exact hb ▸ by decide
    · rw [encode_both, List.cons_append, List.head?_cons, Option.some.injEq] at hb
      exact hb ▸ by decide
    · rw [encode_carriageReturn, List.singleton_append, List.head?_cons, Option.some.injEq] at hb
      exact hb ▸ by decide
  have hlen : spanLength (encode text) = (encode content).length := by
    rw [spanLength, htext, takeWhile_not_ends h.content_goes_on hspan]
  refine ⟨hlen, ?_⟩
  rw [lineLength, hlen, pastEnding, encode_append, List.length_append]
  rcases h.closed with ⟨rfl, rfl⟩ | rfl | rfl | ⟨rfl, hrest⟩
  · rw [pastByte, pastByte, hget₀]
    simp [hget₀]
  · rw [encode_lineFeed] at hget₀ ⊢
    rw [pastByte, pastByte, hget₀]
    simp [hget₀, carriageReturn, lineFeed]
  · have hget₁ := hget 1
    rw [encode_both] at hget₀ hget₁ ⊢
    rw [pastByte, pastByte, hget₀]
    simp [hget₁]
  · have hget₁ := hget 1
    have hhead := head_encode hrest
    rw [encode_carriageReturn] at hget₀ hget₁ ⊢
    rw [List.head?_eq_getElem?] at hhead
    rw [pastByte, pastByte, hget₀]
    simp [hget₁, hhead]

/-! ### The span of a line -/

namespace FirstLine

variable {text content ending rest : List Char}

lemma length_encode (h : FirstLine text content ending rest) :
    (encode text).length = (encode (content ++ ending)).length + (encode rest).length := by
  rw [h.text_eq, encode_append (content ++ ending), List.length_append]

lemma drop_encode (h : FirstLine text content ending rest) :
    (encode text).drop (encode (content ++ ending)).length = encode rest := by
  rw [h.text_eq, encode_append (content ++ ending), List.drop_left]

/-- The first line of the bytes, and those of the rest. -/
lemma lines_eq (h : FirstLine text content ending rest) (hne : text ≠ []) :
    lines (encode text) 0 = ⟨0, (encode content).length⟩ ::
      (lines (encode rest) 0).map (Line.shift (encode (content ++ ending)).length) := by
  obtain ⟨hspan, hline⟩ := h.lengths
  have hpos : 0 < (encode text).length := by
    cases text with
    | nil => exact absurd rfl hne
    | cons c text =>
      rw [encode_cons, List.length_append]
      have := length_encodeChar_pos c
      omega
  have hle : (encode (content ++ ending)).length ≤ (encode text).length := by
    rw [h.length_encode]
    omega
  rw [lines_cons hpos, scanLine_eq, List.drop_zero, hspan, hline]
  simp only [Nat.zero_add]
  have hdrop := lines_drop (k := 0) hle
  rw [Nat.add_zero, h.drop_encode] at hdrop
  rw [hdrop]

lemma lineStart_succ (h : FirstLine text content ending rest) (hne : text ≠ []) (k : ℕ) :
    Input.lineStart (encode text) (k + 1) =
      (encode (content ++ ending)).length + Input.lineStart (encode rest) k := by
  rw [Input.lineStart, Input.lineStart, h.lines_eq hne, List.getElem?_cons_succ,
    List.getElem?_map, h.length_encode]
  cases (lines (encode rest) 0)[k]? with
  | none => rfl
  | some line => rfl

lemma span_zero (h : FirstLine text content ending rest) :
    Input.span (encode text) 0 = some (0, (encode (content ++ ending)).length) := by
  by_cases hne : text = []
  · subst hne
    have hnil := h.text_eq
    simp only [List.nil_eq, List.append_eq_nil_iff] at hnil
    obtain ⟨⟨rfl, rfl⟩, -⟩ := hnil
    decide
  · rw [Input.span, if_pos, Input.lineStart_zero, h.lineStart_succ hne, Input.lineStart_zero,
      Nat.add_zero]
    rw [h.lines_eq hne, List.length_cons]
    omega

lemma closing_eq (h : FirstLine text content ending rest) (hending : ending ≠ []) :
    Input.closing (encode text) = Input.closing (encode rest) := by
  rw [Input.closing, Input.closing, h.text_eq, encode_append, List.getLast?_append]
  cases hrest : (encode rest).getLast? with
  | some b => rfl
  | none =>
    rw [Option.none_or, encode_append, List.getLast?_append]
    rcases h.closed with ⟨rfl, -⟩ | rfl | rfl | ⟨rfl, -⟩
    · exact absurd rfl hending
    · rw [encode_lineFeed]
      rfl
    · rw [encode_both]
      rfl
    · rw [encode_carriageReturn]
      rfl

lemma span_succ (h : FirstLine text content ending rest) (k : ℕ) :
    Input.span (encode text) (k + 1) =
      if ending = [] then none
      else (Input.span (encode rest) k).map fun span =>
        ((encode (content ++ ending)).length + span.1,
          (encode (content ++ ending)).length + span.2) := by
  by_cases hne : text = []
  · subst hne
    have hnil := h.text_eq
    simp only [List.nil_eq, List.append_eq_nil_iff] at hnil
    rw [if_pos hnil.1.2, Input.span, encode_nil, lines_nil (le_refl 0), if_neg (by simp),
      if_neg (by simp)]
  have hlen : (lines (encode text) 0).length = (lines (encode rest) 0).length + 1 := by
    rw [h.lines_eq hne, List.length_cons, List.length_map]
  split
  next hending =>
    rcases h.closed with ⟨-, rfl⟩ | hcase | hcase | ⟨hcase, -⟩
    · have hnil : lines (encode []) 0 = [] := lines_nil (le_refl 0)
      rw [hnil, List.length_nil] at hlen
      rw [Input.span, if_neg (by omega), if_neg]
      rintro ⟨-, hclosing⟩
      -- The text's last byte is its content's, which ends no line.
      have htext := h.text_eq
      rw [hending, List.append_nil, List.append_nil] at htext
      rw [Input.closing] at hclosing
      cases hlast : (encode text).getLast? with
      | none =>
        rw [List.getLast?_eq_none_iff] at hlast
        cases text with
        | nil => exact hne rfl
        | cons c text =>
          rw [encode_cons, List.append_eq_nil_iff] at hlast
          exact String.utf8EncodeChar_ne_nil hlast.1
      | some b =>
        rw [hlast, Option.all_some] at hclosing
        have hgoes := ends_encode h.content_goes_on
          (htext ▸ List.mem_of_getLast? hlast)
        rw [hgoes] at hclosing
        exact absurd hclosing (by simp)
    all_goals exact absurd (hending.symm.trans hcase) (by simp)
  next hending =>
    rw [Input.span, Input.span, hlen, h.closing_eq hending]
    simp only [Nat.add_lt_add_iff_right, Nat.add_right_cancel_iff, h.lineStart_succ hne,
      h.length_encode]
    split
    · rfl
    · split
      · rfl
      · rfl

end FirstLine

lemma lineStarts_zero (text : List Char) : (lineStarts text)[0]? = some 0 := by
  obtain ⟨content, ending, rest, h⟩ := exists_firstLine text
  rw [h.lineStarts_eq]
  rfl

/-- Line `k` of a text: the characters from its start on, and where the next line starts. -/
structure LineAt (text : List Char) (k i : ℕ) (content ending rest : List Char) : Prop where
  le_length : i ≤ text.length
  first : FirstLine (text.drop i) content ending rest
  next : (lineStarts text)[k + 1]? =
    if ending = [] then none else some (i + (content ++ ending).length)
  span_eq : Input.span (encode text) k =
    some ((encode (text.take i)).length,
      (encode (text.take i)).length + (encode (content ++ ending)).length)

/-- The table's line `k` of a text's bytes is the text's line `k`, where it has one. -/
theorem exists_lineAt (text : List Char) (k : ℕ) :
    ((lineStarts text)[k]? = none → Input.span (encode text) k = none) ∧
      ∀ i, (lineStarts text)[k]? = some i →
        ∃ content ending rest, LineAt text k i content ending rest := by
  induction k generalizing text with
  | zero =>
    obtain ⟨content, ending, rest, h⟩ := exists_firstLine text
    rw [lineStarts_zero]
    refine ⟨fun hnone => absurd hnone (by simp), fun i hi => ?_⟩
    rw [Option.some.injEq] at hi
    subst hi
    refine ⟨content, ending, rest, Nat.zero_le _, h, ?_, ?_⟩
    · rw [h.lineStarts_eq, List.getElem?_cons_succ]
      split
      · rfl
      · rw [List.getElem?_map, lineStarts_zero]
        simp
    · rw [h.span_zero, List.take_zero, encode_nil, List.length_nil, Nat.zero_add]
  | succ k ih =>
    obtain ⟨content, ending, rest, h⟩ := exists_firstLine text
    rw [h.lineStarts_eq, List.getElem?_cons_succ, h.span_succ]
    split
    next hending => exact ⟨fun _ => rfl, fun i hi => absurd hi (by simp)⟩
    next hending =>
      obtain ⟨hnone, hsome⟩ := ih rest
      rw [List.getElem?_map]
      constructor
      · intro hmap
        rw [Option.map_eq_none_iff] at hmap
        rw [hnone hmap, Option.map_none]
      · intro i hi
        obtain ⟨j, hj, rfl⟩ := Option.map_eq_some_iff.mp hi
        obtain ⟨content', ending', rest', hline⟩ := hsome j hj
        have htext := h.text_eq
        have hdrop : text.drop ((content ++ ending).length + j) = rest.drop j := by
          rw [htext, ← List.drop_drop, List.drop_left]
        have htake : text.take ((content ++ ending).length + j) =
            content ++ ending ++ rest.take j := by
          rw [htext, List.take_length_add_append]
        have hle := hline.le_length
        refine ⟨content', ending', rest', ?_, hdrop ▸ hline.first, ?_, ?_⟩
        · rw [htext, @List.length_append _ (content ++ ending)]
          omega
        · rw [h.lineStarts_eq, if_neg hending, List.getElem?_cons_succ, List.getElem?_map,
            hline.next]
          split
          · rfl
          · rw [Option.map_some, Nat.add_assoc]
        · rw [h.span_succ, if_neg hending, hline.span_eq, Option.map_some, htake,
            encode_append (content ++ ending), List.length_append, Nat.add_assoc]

/-- A text has as many lines as its bytes' table. -/
theorem length_lineStarts (text : List Char) :
    (lineStarts text).length =
      (lines (encode text) 0).length + if Input.closing (encode text) then 1 else 0 := by
  have hiff : ∀ k, k < (lineStarts text).length ↔
      k < (lines (encode text) 0).length + if Input.closing (encode text) then 1 else 0 := by
    intro k
    rw [← Input.span_isSome]
    obtain ⟨hnone, hsome⟩ := exists_lineAt text k
    cases hk : (lineStarts text)[k]? with
    | none =>
      rw [hnone hk]
      rw [List.getElem?_eq_none_iff] at hk
      simpa using hk
    | some i =>
      obtain ⟨content, ending, rest, hline⟩ := hsome i hk
      rw [hline.span_eq]
      obtain ⟨hlt, -⟩ := List.getElem?_eq_some_iff.mp hk
      simpa using hlt
  refine le_antisymm (not_lt.mp fun hlt => ?_) (not_lt.mp fun hlt => ?_)
  · exact absurd ((hiff _).mp hlt) (lt_irrefl _)
  · exact absurd ((hiff _).mpr hlt) (lt_irrefl _)

end MarkdownCore.Text
