import MarkdownCore.Attributes.Read
import MarkdownCore.Inline.Backticks

/-!
# The text of a code span

A code span takes the bytes between its backtick runs, each line ending as a space, less a space
at either end. The parser rewrites the bytes the line reader handed it, in place; the completion
engine looks for the same ends in the source, where a line ending may be two bytes.
-/

namespace MarkdownCore.Inline

open Attributes (Span Part slice attributesParts)

def space : UInt8 := 0x20
def lineFeed : UInt8 := 0x0a
def carriageReturn : UInt8 := 0x0d

/-! ### What the parser makes of the content -/

/-- The state of `S_normalize_code`'s loop: the buffer, the write cursor, and whether a byte other
than a space has been seen. -/
structure Normalize where
  ptr : List UInt8
  w : ℕ
  containsNonspace : Bool

def Normalize.write (s : Normalize) (c : UInt8) : Normalize :=
  { s with ptr := s.ptr.set s.w c, w := s.w + 1 }

/-- One turn of the loop. The test for a byte other than a space reads the buffer behind the
write. -/
def Normalize.turn (s : Normalize) (r : ℕ) : Normalize :=
  let c := byteAt s.ptr r
  let s :=
    if c = carriageReturn then if byteAt s.ptr (r + 1) ≠ lineFeed then s.write space else s
    else if c = lineFeed then s.write space
    else s.write c
  if byteAt s.ptr r ≠ space then { s with containsNonspace := true } else s

/-- `S_normalize_code`. -/
def normalizeCode (content : List UInt8) : List UInt8 :=
  let s := (List.range content.length).foldl Normalize.turn ⟨content, 0, false⟩
  -- begins and ends with space?
  if s.containsNonspace ∧ byteAt s.ptr 0 = space ∧ byteAt s.ptr (s.w - 1) = space then
    (s.ptr.drop 1).take (s.w - 2)
  else s.ptr.take s.w

/-! ### Where the completion engine finds it -/

/-- A space, or a byte of a line ending. -/
def blankByte (c : UInt8) : Bool := c = space || c = lineFeed || c = carriageReturn

section

variable (text : List UInt8)

/-- The search for the closer of `markdown_core_code_parts`: the first run of as many
backticks. -/
def closerFrom (ticks : ℕ) : ℕ → ℕ → ℕ
  | 0, _ => text.length
  | steps + 1, pos =>
    if text.length ≤ pos then text.length
    else if byteAt text pos ≠ tick then closerFrom ticks steps (pos + 1)
    else
      let run := width (fun c => c = tick) text pos
      if run = ticks then pos else closerFrom ticks steps (pos + run)

/-- The ends of the literal, between the runs. -/
def literalSpan (start stop : ℕ) : Span :=
  let nonspace := (slice text ⟨start, stop⟩).any fun c => !blankByte c
  if nonspace ∧ 2 ≤ stop - start ∧ blankByte (byteAt text start) ∧
      blankByte (byteAt text (stop - 1)) then
    let front :=
      if byteAt text start = carriageReturn ∧ byteAt text (start + 1) = lineFeed then 2 else 1
    let back :=
      if byteAt text (stop - 1) = lineFeed ∧ start + front ≤ stop - 2 ∧
        byteAt text (stop - 2) = carriageReturn then 2 else 1
    ⟨start + front, stop - back⟩
  else ⟨start, stop⟩

/-- What `markdown_core_code_parts` lists: the literal, unless it is empty, and the fields of the
attribute container behind the closer. -/
structure CodeParts where
  literal : Option Span
  container : List Part
  deriving Repr

/-- `markdown_core_code_parts`. -/
def codeParts (storage : Bool) : CodeParts :=
  let ticks := width (fun c => c = tick) text 0
  let close := closerFrom text ticks text.length ticks
  let span := literalSpan text ticks close
  { literal := if span.stop ≤ span.start ∨ text.length < span.stop then none else some span
    container :=
      if close + ticks < text.length ∧ byteAt text (close + ticks) = 0x7b then
        (attributesParts text storage (close + ticks)).2.1
      else [] }

end

/-! ### What the line reader hands -/

/-- A byte that is read as a space: a space or a line feed. -/
def asSpace (c : UInt8) : UInt8 := if c = lineFeed then space else c

/-- A byte alone, `ending` what a line ending is read as; a NUL is read as the replacement
character. -/
def readByte (ending c : UInt8) : List UInt8 :=
  if c = carriageReturn ∨ c = lineFeed then [ending]
  else if c = 0 then [0xef, 0xbf, 0xbd]
  else [c]

/-- The bytes of a source text with each line ending, of one byte or two, read as `ending`. -/
def readAs (ending : UInt8) : List UInt8 → List UInt8
  | [] => []
  | [c] => readByte ending c
  | c :: d :: rest =>
    if c = carriageReturn ∧ d = lineFeed then ending :: readAs ending rest
    else readByte ending c ++ readAs ending (d :: rest)

/-- One space less at either end of a text that begins and ends with one and holds another
byte. -/
def stripped (text : List UInt8) : List UInt8 :=
  if text.head? = some space ∧ text.getLast? = some space ∧ ∃ c ∈ text, c ≠ space then
    text.tail.dropLast
  else text

/-! ### The loop over the content -/

lemma byteAt_behind (front rest : List UInt8) (c : UInt8) :
    byteAt (front ++ c :: rest) front.length = c := by
  simp [byteAt, List.getD_eq_getElem?_getD]

lemma set_behind (front rest : List UInt8) (c d : UInt8) :
    (front ++ c :: rest).set front.length d = front ++ d :: rest := by
  rw [List.set_append_right _ _ le_rfl, Nat.sub_self, List.set_cons_zero]

/-- One turn over a byte other than a carriage return, the cursors together: the byte is
rewritten where it stands. -/
lemma Normalize.turn_behind (front rest : List UInt8) {c : UInt8} (seen : Bool)
    (hc : c ≠ carriageReturn) :
    Normalize.turn ⟨front ++ c :: rest, front.length, seen⟩ front.length =
      ⟨front ++ asSpace c :: rest, front.length + 1, seen || asSpace c != space⟩ := by
  simp only [Normalize.turn, byteAt_behind, hc, if_false, Normalize.write, set_behind]
  by_cases hlf : c = lineFeed
  · subst hlf
    have h : asSpace lineFeed = space := by simp [asSpace]
    simp [h, byteAt_behind]
  · have h : asSpace c = c := by simp [asSpace, hlf]
    by_cases hs : c = space
    · subst hs
      simp [hlf, h, byteAt_behind]
    · simp [hlf, h, byteAt_behind, hs]

/-- The whole loop, over a content that begins with what has been read. -/
lemma foldl_turn (rest front : List UInt8) (seen : Bool) (hlf : carriageReturn ∉ rest) :
    (List.range' front.length rest.length).foldl Normalize.turn
        ⟨front ++ rest, front.length, seen⟩ =
      ⟨front ++ rest.map asSpace, (front ++ rest).length,
        seen || (rest.map asSpace).any fun c => c != space⟩ := by
  induction rest generalizing front seen with
  | nil => simp
  | cons c rest ih =>
    obtain ⟨hc, hrest⟩ : c ≠ carriageReturn ∧ carriageReturn ∉ rest := by
      constructor
      · rintro rfl
        simp at hlf
      · intro h
        exact hlf (List.mem_cons_of_mem c h)
    have h := ih (front ++ [asSpace c]) (seen || asSpace c != space) hrest
    rw [List.length_cons, List.range'_succ, List.foldl_cons, Normalize.turn_behind _ _ _ hc]
    simp only [List.append_assoc, List.singleton_append, List.length_append,
      List.length_singleton] at h
    rw [h]
    simp [Bool.or_assoc]

lemma byteAt_zero_eq_space (text : List UInt8) :
    byteAt text 0 = space ↔ text.head? = some space := by
  cases text <;> simp [byteAt, space]

lemma byteAt_last_eq_space (text : List UInt8) :
    byteAt text (text.length - 1) = space ↔ text.getLast? = some space := by
  rw [byteAt, List.getD_eq_getElem?_getD, List.getLast?_eq_getElem?]
  cases text[text.length - 1]? <;> simp [space]

/-- A content without a carriage return becomes the stripped text of its bytes read as spaces. -/
theorem normalizeCode_eq (content : List UInt8) (hlf : carriageReturn ∉ content) :
    normalizeCode content = stripped (content.map asSpace) := by
  have hloop := foldl_turn content [] false hlf
  simp only [List.nil_append, List.length_nil, ← List.range_eq_range', Bool.false_or] at hloop
  have hlen : content.length = (content.map asSpace).length := (List.length_map ..).symm
  simp only [normalizeCode, hloop, stripped]
  rw [hlen]
  generalize content.map asSpace = text
  have hhead := byteAt_zero_eq_space text
  have hlast := byteAt_last_eq_space text
  have hseen : (text.any fun c => c != space) = true ↔ ∃ c ∈ text, c ≠ space := by simp
  by_cases h : text.head? = some space ∧ text.getLast? = some space ∧ ∃ c ∈ text, c ≠ space
  · rw [if_pos h, if_pos ⟨hseen.mpr h.2.2, hhead.mpr h.1, hlast.mpr h.2.1⟩]
    rw [List.dropLast_eq_take, List.length_tail, List.drop_one]
    rfl
  · rw [if_neg h, if_neg]
    · exact List.take_length
    · rintro ⟨h1, h2, h3⟩
      exact h ⟨hhead.mp h2, hlast.mp h3, hseen.mp h1⟩

/-! ### Reading the source -/

lemma readByte_of_ending (ending : UInt8) {c : UInt8} (h : c = carriageReturn ∨ c = lineFeed) :
    readByte ending c = [ending] := if_pos h

lemma readByte_zero (ending : UInt8) : readByte ending 0 = [0xef, 0xbf, 0xbd] := by
  simp [readByte, carriageReturn, lineFeed]

lemma readByte_of_plain (ending : UInt8) {c : UInt8} (h : ¬ (c = carriageReturn ∨ c = lineFeed))
    (hnul : c ≠ 0) : readByte ending c = [c] := by
  rw [readByte, if_neg h, if_neg hnul]

lemma readByte_of_blank {c : UInt8} (h : blankByte c = true) : readByte space c = [space] := by
  simp only [blankByte, Bool.or_eq_true, decide_eq_true_eq] at h
  rcases h with (rfl | rfl) | rfl <;> simp [readByte, space, lineFeed, carriageReturn]

/-- Two pieces are read one after the other, unless a line ending lies across their seam. -/
lemma readAs_append (ending : UInt8) (front back : List UInt8)
    (h : front.getLast? = some carriageReturn → back.head? ≠ some lineFeed) :
    readAs ending (front ++ back) = readAs ending front ++ readAs ending back := by
  induction front using readAs.induct with
  | case1 => simp [readAs]
  | case2 c =>
    cases back with
    | nil => simp [readAs]
    | cons d rest =>
      have hseam : ¬ (c = carriageReturn ∧ d = lineFeed) := by
        rintro ⟨rfl, rfl⟩
        exact h rfl rfl
      simp [readAs, hseam]
  | case3 c d rest hboth ih =>
    have hrest : rest.getLast? = some carriageReturn → back.head? ≠ some lineFeed := by
      intro hlast
      cases rest with
      | nil => simp at hlast
      | cons e rest => exact h (by simpa [List.getLast?_cons] using hlast)
    simp [readAs, hboth, ih hrest]
  | case4 c d rest hboth ih =>
    have hrest : (d :: rest).getLast? = some carriageReturn → back.head? ≠ some lineFeed := by
      intro hlast
      exact h (by simpa [List.getLast?_cons] using hlast)
    have hstep := ih hrest
    rw [List.cons_append] at hstep
    simp [readAs, hboth, hstep]

/-- The line reader leaves no carriage return. -/
lemma readAs_clean (body : List UInt8) : carriageReturn ∉ readAs lineFeed body := by
  have hbyte : ∀ c, carriageReturn ∉ readByte lineFeed c := by
    intro c
    by_cases hend : c = carriageReturn ∨ c = lineFeed
    · rw [readByte_of_ending _ hend]
      simp [carriageReturn, lineFeed]
    · by_cases hnul : c = 0
      · rw [hnul, readByte_zero]
        simp [carriageReturn]
      · rw [readByte_of_plain _ hend hnul]
        simpa using fun h => hend (Or.inl (Eq.symm h))
  induction body using readAs.induct with
  | case1 => simp [readAs]
  | case2 c => exact hbyte c
  | case3 c d rest hboth ih =>
    simp only [readAs, hboth, and_self, if_true, List.mem_cons, not_or]
    exact ⟨by simp [carriageReturn, lineFeed], ih⟩
  | case4 c d rest hboth ih =>
    simp only [readAs, hboth, if_false, List.mem_append, not_or]
    exact ⟨hbyte c, ih⟩

/-- What the line reader hands, its line feeds taken for spaces, is the source with each line
ending taken for one. -/
lemma readAs_map (body : List UInt8) :
    (readAs lineFeed body).map asSpace = readAs space body := by
  have hbyte : ∀ c, (readByte lineFeed c).map asSpace = readByte space c := by
    intro c
    by_cases hend : c = carriageReturn ∨ c = lineFeed
    · rw [readByte_of_ending _ hend, readByte_of_ending _ hend]
      simp [asSpace]
    · by_cases hnul : c = 0
      · rw [hnul, readByte_zero, readByte_zero]
        simp [asSpace, lineFeed]
      · have hc : c ≠ lineFeed := fun h => hend (Or.inr h)
        rw [readByte_of_plain _ hend hnul, readByte_of_plain _ hend hnul]
        simp [asSpace, hc]
  induction body using readAs.induct with
  | case1 => rfl
  | case2 c => exact hbyte c
  | case3 c d rest hboth ih => simp [readAs, hboth, ih, asSpace]
  | case4 c d rest hboth ih => simp [readAs, hboth, ih, hbyte]

/-- A byte is read as bytes of its own kind: as a space when it is blank, else as no space. -/
lemma mem_readByte {c d : UInt8} (h : d ∈ readByte space c) : d = space ↔ blankByte c = true := by
  by_cases hblank : blankByte c = true
  · rw [readByte_of_blank hblank] at h
    simp [hblank, List.mem_singleton.mp h]
  · have hblank' := hblank
    simp only [blankByte, Bool.or_eq_true, decide_eq_true_eq, not_or] at hblank'
    obtain ⟨⟨hs, hlf⟩, hcr⟩ := hblank'
    by_cases hnul : c = 0
    · subst hnul
      simp only [readByte, hcr, hlf, or_self, if_false, if_true, List.mem_cons,
        List.not_mem_nil, or_false] at h
      rcases h with rfl | rfl | rfl <;> simp [space, blankByte, lineFeed, carriageReturn]
    · simp only [readByte, hcr, hlf, hnul, or_self, if_false, List.mem_singleton] at h
      simp [h, hs, hblank]

lemma readByte_ne_nil (ending c : UInt8) : readByte ending c ≠ [] := by
  by_cases hend : c = carriageReturn ∨ c = lineFeed
  · simp [readByte, hend]
  · by_cases hnul : c = 0
    · simp [readByte, hnul, carriageReturn, lineFeed]
    · simp [readByte, hend, hnul]

/-- The text holds a byte other than a space when the source holds one that is not blank. -/
lemma exists_nonspace (body : List UInt8) :
    (∃ c ∈ readAs space body, c ≠ space) ↔ (body.any fun c => !blankByte c) = true := by
  have hbyte : ∀ c, (∃ d ∈ readByte space c, d ≠ space) ↔ blankByte c ≠ true := by
    intro c
    constructor
    · rintro ⟨d, hd, hne⟩ hblank
      exact hne ((mem_readByte hd).mpr hblank)
    · intro hblank
      obtain ⟨d, rest, hread⟩ := List.exists_cons_of_ne_nil (readByte_ne_nil space c)
      have hd : d ∈ readByte space c := by simp [hread]
      exact ⟨d, hd, fun h => hblank ((mem_readByte hd).mp h)⟩
  induction body using readAs.induct with
  | case1 => simp [readAs]
  | case2 c =>
    rw [readAs, hbyte c]
    simp
  | case3 c d rest hboth ih =>
    have hc : blankByte c = true := by simp [hboth, blankByte]
    have hd : blankByte d = true := by simp [hboth, blankByte]
    simp only [readAs, hboth, and_self, if_true, List.mem_cons, exists_eq_or_imp, ne_eq,
      not_true_eq_false, false_or, List.any_cons]
    rw [hboth.1] at hc
    rw [hboth.2] at hd
    rw [hc, hd]
    simpa using ih
  | case4 c d rest hboth ih =>
    simp only [readAs, hboth, if_false, List.mem_append, or_and_right, exists_or]
    rw [hbyte c]
    simpa using or_congr_right ih

/-! ### The ends of the literal -/

/-- A blank byte at the front is read as a space, with the line feed behind it when it is the first
half of a line ending. -/
lemma readAs_front {c : UInt8} {rest : List UInt8} (hc : blankByte c = true) :
    readAs space (c :: rest) =
      space :: readAs space (rest.drop
        (if c = carriageReturn ∧ rest.head? = some lineFeed then 1 else 0)) := by
  cases rest with
  | nil => simp [readAs, readByte_of_blank hc]
  | cons d rest =>
    by_cases hboth : c = carriageReturn ∧ d = lineFeed
    · simp [readAs, hboth]
    · simp [readAs, hboth, readByte_of_blank hc]

/-- A byte in front that is not blank is not read as a space. -/
lemma head?_readAs (c : UInt8) (rest : List UInt8) :
    (readAs space (c :: rest)).head? = some space ↔ blankByte c = true := by
  constructor
  · intro h
    by_contra hblank
    have hcr : c ≠ carriageReturn := by
      rintro rfl
      simp [blankByte] at hblank
    have hread : readAs space (c :: rest) = readByte space c ++ readAs space rest := by
      cases rest <;> simp [readAs, hcr]
    obtain ⟨d, more, hbyte⟩ := List.exists_cons_of_ne_nil (readByte_ne_nil space c)
    rw [hread, hbyte] at h
    have hd : d = space := by simpa using h
    exact hblank ((mem_readByte (d := d) (by simp [hbyte])).mp hd)
  · intro hblank
    rw [readAs_front hblank]
    rfl

/-- A blank byte at the back is read as a space, with the carriage return before it when it is the
second half of a line ending. -/
lemma readAs_back {c : UInt8} {front : List UInt8} (hc : blankByte c = true) :
    readAs space (front ++ [c]) =
      readAs space (front.take (front.length -
        (if c = lineFeed ∧ front.getLast? = some carriageReturn then 1 else 0))) ++ [space] := by
  by_cases hboth : c = lineFeed ∧ front.getLast? = some carriageReturn
  · obtain ⟨rfl, hlast⟩ := hboth
    obtain ⟨front, rfl⟩ := List.getLast?_eq_some_iff.mp hlast
    have hseam : front.getLast? = some carriageReturn →
        [carriageReturn, lineFeed].head? ≠ some lineFeed := by
      intro _
      simp [carriageReturn, lineFeed]
    rw [List.append_assoc, List.singleton_append, readAs_append _ _ _ hseam]
    simp [readAs, hlast]
  · have hseam : front.getLast? = some carriageReturn → [c].head? ≠ some lineFeed := by
      intro hlast h
      exact hboth ⟨by simpa using h, hlast⟩
    rw [readAs_append _ _ _ hseam, if_neg hboth, Nat.sub_zero, List.take_length]
    simp [readAs, readByte_of_blank hc]

/-- A byte at the back that is not blank is not read as a space. -/
lemma getLast?_readAs (c : UInt8) (front : List UInt8) :
    (readAs space (front ++ [c])).getLast? = some space ↔ blankByte c = true := by
  constructor
  · intro h
    by_contra hblank
    have hseam : front.getLast? = some carriageReturn → [c].head? ≠ some lineFeed := by
      intro _ hc
      have hc : c = lineFeed := by simpa using hc
      simp [hc, blankByte] at hblank
    obtain ⟨more, d, hbyte⟩ := (List.eq_nil_or_concat (readByte space c)).resolve_left
      (readByte_ne_nil space c)
    rw [readAs_append _ _ _ hseam, readAs, hbyte, List.concat_eq_append,
      ← List.append_assoc] at h
    have hd : d = space := by simpa using h
    exact hblank ((mem_readByte (d := d) (by simp [hbyte])).mp hd)
  · intro hblank
    rw [readAs_back hblank]
    simp

/-- What lies inside a piece of a text, a few bytes from either end. -/
lemma slice_inner (before body after : List UInt8) {lead trail : ℕ}
    (h : lead + trail ≤ body.length) :
    slice (before ++ body ++ after)
        ⟨before.length + lead, before.length + body.length - trail⟩ =
      (body.drop lead).take (body.length - lead - trail) := by
  have hlead : lead ≤ body.length := by omega
  have hsize : before.length + body.length - trail - (before.length + lead) =
      body.length - lead - trail := by omega
  have hdrop : (before ++ body ++ after).drop (before.length + lead) = body.drop lead ++ after := by
    rw [List.append_assoc, ← List.drop_drop, List.drop_left,
      List.drop_append_of_le_length hlead]
  have hroom : body.length - lead - trail ≤ (body.drop lead).length := by
    rw [List.length_drop]
    exact Nat.sub_le _ _
  rw [slice, hsize, hdrop, List.take_append_of_le_length hroom]

lemma byteAt_inner (before body after : List UInt8) {i : ℕ} (h : i < body.length) :
    byteAt (before ++ body ++ after) (before.length + i) = byteAt body i := by
  rw [List.append_assoc, byteAt, byteAt, List.getD_eq_getElem?_getD, List.getD_eq_getElem?_getD,
    List.getElem?_append_right (Nat.le_add_right _ _), Nat.add_sub_cancel_left,
    List.getElem?_append_left h]

/-- The line feed a front takes along is not all there is. -/
lemma lead_lt {c : UInt8} {front : List UInt8}
    (hseen : (front.any fun c => !blankByte c) = true) :
    (if c = carriageReturn ∧ front.head? = some lineFeed then 1 else 0) < front.length := by
  cases front with
  | nil => simp at hseen
  | cons e rest =>
    by_cases hboth : c = carriageReturn ∧ (e :: rest).head? = some lineFeed
    · rw [if_pos hboth]
      have he : e = lineFeed := by simpa using hboth.2
      cases rest with
      | nil => simp [he, blankByte] at hseen
      | cons f rest => simp
    · rw [if_neg hboth]
      exact Nat.succ_pos _

/-- A body that is blank at either end and not all over. -/
lemma stripped_readAs {c d : UInt8} {front : List UInt8} (hc : blankByte c = true)
    (hd : blankByte d = true) (hseen : (front.any fun c => !blankByte c) = true) {lead trail : ℕ}
    (hlead : lead = if c = carriageReturn ∧ front.head? = some lineFeed then 1 else 0)
    (htrail : trail = if d = lineFeed ∧ front.getLast? = some carriageReturn then 1 else 0) :
    stripped (readAs space (c :: (front ++ [d]))) =
        readAs space ((front.drop lead).take (front.length - lead - trail)) := by
  have hany : ∃ e ∈ readAs space (c :: (front ++ [d])), e ≠ space := by
    rw [exists_nonspace, List.any_cons, List.any_append, hseen]
    simp
  have hhead := (head?_readAs c (front ++ [d])).mpr hc
  have hlast := (getLast?_readAs d (c :: front)).mpr hd
  rw [List.cons_append] at hlast
  have hlt : lead < front.length := hlead ▸ lead_lt hseen
  have hfront : (front ++ [d]).head? = front.head? := by
    cases front with
    | nil => simp at hseen
    | cons e rest => rfl
  have hinner : (front.drop lead).getLast? = front.getLast? := by
    rw [List.getLast?_drop, if_neg (Nat.not_le.mpr hlt)]
  rw [stripped, if_pos ⟨hhead, hlast, hany⟩, readAs_front hc, hfront, ← hlead, List.tail_cons,
    List.drop_append_of_le_length hlt.le, readAs_back hd, hinner, ← htrail, List.dropLast_concat,
    List.length_drop]

/-- The bytes of the literal, read with each line ending as a space, are the stripped text. -/
lemma slice_literalSpan (before body after : List UInt8) :
    readAs space (slice (before ++ body ++ after) (literalSpan (before ++ body ++ after)
        before.length (before.length + body.length))) = stripped (readAs space body) := by
  have hwhole : slice (before ++ body ++ after)
      ⟨before.length, before.length + body.length⟩ = body := by
    have h := @slice_inner before body after 0 0 (Nat.zero_le _)
    simpa using h
  have hbyte := @byteAt_inner before body after
  have hinner {lead trail : ℕ} := @slice_inner before body after lead trail
  revert hwhole hbyte hinner
  generalize before ++ body ++ after = text
  generalize before.length = start
  intro hwhole hbyte hinner
  rw [literalSpan, hwhole]
  by_cases hseen : (body.any fun c => !blankByte c) = true
  · cases body with
    | nil => simp at hseen
    | cons c rest =>
      have hfirst : byteAt text start = c := hbyte (Nat.succ_pos _)
      rcases List.eq_nil_or_concat rest with rfl | ⟨front, d, rfl⟩
      · -- one byte, which is not blank
        have hc : ¬ blankByte c = true := by simpa using hseen
        rw [if_neg, hwhole, stripped, if_neg]
        · rintro ⟨h, -⟩
          exact hc ((head?_readAs c []).mp h)
        · rintro ⟨-, h, -⟩
          simp at h
      · rw [List.concat_eq_append] at *
        have hsize : (c :: (front ++ [d])).length = front.length + 2 := by simp
        have hlast : byteAt text (start + (front.length + 1)) = d := by
          rw [hbyte (by simp)]
          simp [byteAt, List.getD_eq_getElem?_getD]
        rw [hsize, show start + (front.length + 2) - 1 = start + (front.length + 1) from rfl,
          hfirst, hlast]
        by_cases hends : blankByte c = true ∧ blankByte d = true
        · obtain ⟨hc, hd⟩ := hends
          have hfront : (front.any fun c => !blankByte c) = true := by
            simpa [List.any_append, hc, hd] using hseen
          have hlt := lead_lt (c := c) hfront
          have hroom : 2 ≤ start + (front.length + 2) - start := by omega
          have hnext : byteAt text (start + 1) = lineFeed ↔ front.head? = some lineFeed := by
            rw [hbyte (by simp)]
            cases front with
            | nil => simp at hfront
            | cons e rest => simp [byteAt]
          have hbefore : byteAt text (start + (front.length + 2) - 2) = carriageReturn ↔
              front.getLast? = some carriageReturn := by
            obtain ⟨n, hn⟩ := Nat.exists_eq_add_one_of_ne_zero (Nat.ne_zero_of_lt hlt)
            have hat : start + (front.length + 2) - 2 = start + (n + 1) := by omega
            rw [hat, hbyte (by simp [hn]), List.getLast?_eq_getElem?, hn]
            simp [byteAt, List.getD_eq_getElem?_getD, hn]
          rw [if_pos ⟨hseen, hroom, hc, hd⟩]
          simp only [hnext, hbefore]
          rw [stripped_readAs hc hd hfront rfl rfl]
          have hlead : (if c = carriageReturn ∧ front.head? = some lineFeed then 2 else 1) =
              (if c = carriageReturn ∧ front.head? = some lineFeed then 1 else 0) + 1 := by
            split_ifs <;> rfl
          have htrail (lead : ℕ) (h : lead < front.length) :
              (if d = lineFeed ∧ start + (lead + 1) ≤ start + (front.length + 2) - 2 ∧
                front.getLast? = some carriageReturn then 2 else 1) =
              (if d = lineFeed ∧ front.getLast? = some carriageReturn then 1 else 0) + 1 := by
            have hle : start + (lead + 1) ≤ start + (front.length + 2) - 2 := by omega
            simp only [hle, true_and]
            split_ifs <;> rfl
          rw [hlead, htrail _ hlt]
          generalize (if c = carriageReturn ∧ front.head? = some lineFeed then 1 else 0) = lead
            at hlt
          have hone :
              (if d = lineFeed ∧ front.getLast? = some carriageReturn then 1 else 0) ≤ 1 := by
            split_ifs <;> simp
          generalize (if d = lineFeed ∧ front.getLast? = some carriageReturn then 1 else 0) = trail
            at hone
          have hfits : lead + 1 + (trail + 1) ≤ (c :: (front ++ [d])).length := by
            rw [hsize]
            omega
          have h := hinner hfits
          rw [hsize] at h
          have hcut : front.length + 2 - (lead + 1) - (trail + 1) =
              front.length - lead - trail := by omega
          rw [h, hcut, List.drop_succ_cons, List.drop_append_of_le_length hlt.le,
            List.take_append_of_le_length]
          rw [List.length_drop]
          exact Nat.sub_le _ _
        · rw [if_neg, stripped, if_neg]
          · rw [← hsize, hwhole]
          · rintro ⟨h1, h2, -⟩
            exact hends ⟨(head?_readAs c _).mp h1, (getLast?_readAs d (c :: front)).mp h2⟩
          · rintro ⟨-, -, h⟩
            exact hends h
  · have hplain : ¬ ∃ c ∈ readAs space body, c ≠ space :=
      fun h => hseen ((exists_nonspace body).mp h)
    rw [if_neg fun h => hseen h.1, hwhole, stripped, if_neg fun h => hplain h.2.2]

/-! ### The closer -/

/-- Outside a run, the backticks ahead are a run of their own. -/
lemma run_width {data : List UInt8} {pos : ℕ} (hout : ¬ Inside data pos)
    (h : data[pos]? = some tick) : Run data pos (width (fun c => c = tick) data pos) where
  pos := width_pos _ h (by simp)
  ticks i hi := by
    obtain ⟨c, hc, hp⟩ := width_holds _ _ _ i hi
    have hp : c = tick := by simpa using hp
    rw [hc, hp]
  left before hbefore hin := hout ⟨⟨before, hbefore, hin⟩, h⟩
  right hin := by
    have hstop := width_stops _ _ _ hin
    simp at hstop

/-- A code span in its source: between two runs of as many backticks stand bytes that neither
begin nor end with one and hold no such run; what follows is not a backtick. -/
structure CodeSource where
  ticks : ℕ
  body : List UInt8
  rest : List UInt8
  ticks_pos : 0 < ticks
  body_ne : body ≠ []
  first : body.head? ≠ some tick
  last : body.getLast? ≠ some tick
  unclosed : ∀ start, ¬ Run body start ticks
  behind : rest.head? ≠ some tick

namespace CodeSource

variable (source : CodeSource)

def text : List UInt8 :=
  List.replicate source.ticks tick ++ source.body ++
    (List.replicate source.ticks tick ++ source.rest)

/-- The content between the runs, as the line reader hands it. -/
def content : List UInt8 := readAs lineFeed source.body

/-- Where the closer stands. -/
def close : ℕ := source.ticks + source.body.length

lemma getElem?_ticks {i : ℕ} (h : i < source.ticks) : source.text[i]? = some tick := by
  rw [text, List.append_assoc, List.getElem?_append_left (by simpa using h),
    List.getElem?_replicate, if_pos h]

lemma getElem?_body {i : ℕ} (h : i < source.body.length) :
    source.text[source.ticks + i]? = source.body[i]? := by
  rw [text, List.append_assoc, List.getElem?_append_right (by simp)]
  simp [List.getElem?_append_left h]

lemma getElem?_behind (i : ℕ) :
    source.text[source.close + i]? =
      (List.replicate source.ticks tick ++ source.rest)[i]? := by
  rw [text, close, List.getElem?_append_right (by simp)]
  simp

lemma body_pos : 0 < source.body.length := List.length_pos_iff.mpr source.body_ne

lemma not_tick_last : ∀ before, before + 1 = source.close → source.text[before]? ≠ some tick := by
  intro before hbefore
  have hlt : source.body.length - 1 < source.body.length :=
    Nat.sub_lt source.body_pos Nat.one_pos
  have hat : before = source.ticks + (source.body.length - 1) := by
    have hpos := source.body_pos
    simp only [close] at hbefore
    omega
  rw [hat, getElem?_body _ hlt, ← List.getLast?_eq_getElem?]
  exact source.last

/-- The closer is a run of as many backticks as the opener. -/
lemma run_close : Run source.text source.close source.ticks where
  pos := source.ticks_pos
  ticks i h := by
    rw [getElem?_behind, List.getElem?_append_left (by simpa using h), List.getElem?_replicate,
      if_pos h]
  left := source.not_tick_last
  right := by
    rw [getElem?_behind, List.getElem?_append_right (by simp)]
    simpa [List.head?_eq_getElem?] using source.behind

/-- No run of as many begins between the opener and the closer. -/
lemma no_run {start : ℕ} (hstart : source.ticks ≤ start) (hlt : start < source.close) :
    ¬ Run source.text start source.ticks := by
  intro hrun
  obtain ⟨i, rfl⟩ := Nat.exists_eq_add_of_le hstart
  have hi : i < source.body.length := Nat.lt_of_add_lt_add_left hlt
  have hend := hrun.not_inside source.run_close hlt
  have hstop : i + source.ticks ≤ source.body.length := by
    simp only [close] at hend
    omega
  apply source.unclosed i
  refine ⟨source.ticks_pos, ?_, ?_, ?_⟩
  · intro j hj
    rw [← getElem?_body _ (by omega), ← Nat.add_assoc]
    exact hrun.ticks j hj
  · intro before hbefore
    rw [← getElem?_body _ (by omega)]
    exact hrun.left _ (by omega)
  · rcases Nat.lt_or_ge (i + source.ticks) source.body.length with h | h
    · rw [← getElem?_body _ h, ← Nat.add_assoc]
      exact hrun.right
    · rw [List.getElem?_eq_none h]
      simp

lemma width_text : width (fun c => c = tick) source.text 0 = source.ticks := by
  have hfirst : source.text[source.ticks]? ≠ some tick := by
    have h := getElem?_body source source.body_pos
    rw [Nat.add_zero] at h
    rw [h, ← List.head?_eq_getElem?]
    exact source.first
  rcases Nat.lt_trichotomy (width (fun c => c = tick) source.text 0) source.ticks with h | h | h
  · have hstop := width_stops (fun c => c = tick) source.text 0 (c := tick)
    rw [Nat.zero_add] at hstop
    simpa using hstop (source.getElem?_ticks h)
  · exact h
  · obtain ⟨c, hc, hp⟩ := width_holds _ _ _ _ h
    rw [Nat.zero_add] at hc
    have hp : c = tick := by simpa using hp
    exact absurd (hp ▸ hc) hfirst

/-- The search finds the closer from wherever it stands before it, but inside a run. -/
lemma closerFrom_eq (steps : ℕ) {pos : ℕ} (hpos : source.ticks ≤ pos) (hle : pos ≤ source.close)
    (hout : ¬ Inside source.text pos) (hsteps : source.close < pos + steps) :
    closerFrom source.text source.ticks steps pos = source.close := by
  induction steps generalizing pos with
  | zero => exact absurd (Nat.lt_of_lt_of_le hsteps hle) (lt_irrefl _)
  | succ steps ih =>
    have hlt : pos < source.text.length := Nat.lt_of_le_of_lt hle source.run_close.lt
    have hget := List.getElem?_eq_getElem hlt
    rw [closerFrom, if_neg (Nat.not_le.mpr hlt), byteAt_eq_getElem hlt]
    by_cases htick : source.text[pos] = tick
    · rw [htick] at hget
      have hrun := run_width hout hget
      rw [if_neg (not_not.mpr htick)]
      generalize width (fun c => c = tick) source.text pos = run at hrun
      by_cases hsize : run = source.ticks
      · rw [if_pos hsize]
        subst hsize
        rcases Nat.lt_or_eq_of_le hle with h | h
        · exact absurd hrun (source.no_run hpos h)
        · exact h
      · have hbefore : pos < source.close := by
          rcases Nat.lt_or_eq_of_le hle with h | h
          · exact h
          · subst h
            exact absurd (hrun.length_unique source.run_close) hsize
        have hpass := hrun.not_inside source.run_close hbefore
        have hgrow := hrun.pos
        rw [if_neg hsize]
        refine ih (by omega) hpass ?_ (by omega)
        rintro ⟨-, hin⟩
        exact hrun.right hin
    · have hne : pos ≠ source.close := by
        rintro rfl
        have h := source.run_close.ticks 0 source.ticks_pos
        rw [Nat.add_zero, hget] at h
        exact htick (by simpa using h)
      rw [if_pos htick]
      refine ih (by omega) (by omega) ?_ (by omega)
      rintro ⟨⟨before, hbefore, hin⟩, -⟩
      obtain rfl : before = pos := Nat.succ_injective hbefore
      rw [hget] at hin
      exact htick (by simpa using hin)

/-- The closer the completion engine finds is the one of the span. -/
lemma closer_eq :
    closerFrom source.text source.ticks source.text.length source.ticks = source.close := by
  refine source.closerFrom_eq _ le_rfl (Nat.le_add_right _ _) ?_ ?_
  · rintro ⟨-, hin⟩
    have h := getElem?_body source source.body_pos
    rw [Nat.add_zero, hin, ← List.head?_eq_getElem?] at h
    exact source.first h.symm
  · have hlt := source.run_close.lt
    omega

/-- The literal the completion engine lists, read with each line ending as a space, is the
stripped text of the body. -/
lemma readAs_literalSpan :
    readAs space (slice source.text (literalSpan source.text source.ticks source.close)) =
      stripped (readAs space source.body) := by
  have h := slice_literalSpan (List.replicate source.ticks tick) source.body
    (List.replicate source.ticks tick ++ source.rest)
  rw [List.length_replicate] at h
  exact h

end CodeSource

lemma literalSpan_stop_le (text : List UInt8) (start stop : ℕ) :
    (literalSpan text start stop).stop ≤ stop := by
  simp only [literalSpan]
  split
  · exact Nat.sub_le _ _
  · exact le_rfl

lemma readAs_ne_nil {body : List UInt8} (h : body ≠ []) : readAs space body ≠ [] := by
  cases body using readAs.fun_cases with
  | case1 => exact absurd rfl h
  | case2 c => exact readByte_ne_nil space c
  | case3 c d rest hboth => simp [readAs, hboth]
  | case4 c d rest hboth => simp [readAs, hboth, readByte_ne_nil]

/-- Stripping leaves a byte of a text that has one. -/
lemma stripped_ne_nil {text : List UInt8} (h : text ≠ []) : stripped text ≠ [] := by
  rw [stripped]
  split
  case isTrue hends =>
    obtain ⟨hhead, hlast, c, hc, hne⟩ := hends
    cases text with
    | nil => exact absurd rfl h
    | cons d rest =>
      have hd : d = space := by simpa using hhead
      have hmem : c ∈ rest := by
        rcases List.mem_cons.mp hc with rfl | hmem
        · exact absurd hd hne
        · exact hmem
      rcases List.eq_nil_or_concat rest with rfl | ⟨front, e, rfl⟩
      · simp at hmem
      · rw [List.concat_eq_append, ← List.cons_append, List.getLast?_concat] at hlast
        have he : e = space := by simpa using hlast
        have hmem : c ∈ front := by simpa [he, hne] using hmem
        simpa using List.ne_nil_of_mem hmem
  case isFalse => exact h

/-- The text of a code span and the literal of its source agree: a content without a carriage
return is rewritten to its stripped text; and of every code span in its source the completion
engine lists a literal, whose bytes, each line ending read as a space, are what the parser makes of
the content. -/
theorem literal_of_code :
    (∀ content, carriageReturn ∉ content →
      normalizeCode content = stripped (content.map asSpace)) ∧
    ∀ (source : CodeSource) (storage : Bool),
      ∃ span, (codeParts source.text storage).literal = some span ∧
        span.stop ≤ source.text.length ∧
        readAs space (slice source.text span) = normalizeCode source.content := by
  refine ⟨normalizeCode_eq, ?_⟩
  intro source storage
  have hread := source.readAs_literalSpan
  have hcode : normalizeCode source.content = stripped (readAs space source.body) := by
    rw [CodeSource.content, normalizeCode_eq _ (readAs_clean _), readAs_map]
  have hstop : (literalSpan source.text source.ticks source.close).stop ≤ source.text.length :=
    (literalSpan_stop_le ..).trans source.run_close.lt.le
  have hlt : (literalSpan source.text source.ticks source.close).start <
      (literalSpan source.text source.ticks source.close).stop := by
    by_contra hle
    have hnone : slice source.text (literalSpan source.text source.ticks source.close) = [] := by
      rw [slice, Nat.sub_eq_zero_of_le (Nat.not_lt.mp hle), List.take_zero]
    rw [hnone, readAs] at hread
    exact stripped_ne_nil (readAs_ne_nil source.body_ne) hread.symm
  refine ⟨literalSpan source.text source.ticks source.close, ?_, hstop, ?_⟩
  · simp only [codeParts, source.width_text, source.closer_eq]
    rw [if_neg]
    rintro (h | h)
    · exact absurd hlt (Nat.not_lt.mpr h)
    · exact absurd hstop (Nat.not_le.mpr h)
  · rw [hread, hcode]

/-- A span of one letter between line endings, the first of two bytes. -/
def CodeSource.lines : CodeSource where
  ticks := 1
  body := [carriageReturn, lineFeed, 0x61, carriageReturn]
  rest := []
  ticks_pos := Nat.one_pos
  body_ne := by simp
  first := by simp [carriageReturn, tick]
  last := by simp [carriageReturn, tick]
  unclosed start h := by
    have hin := List.mem_of_getElem? (h.ticks 0 Nat.one_pos)
    simp [carriageReturn, lineFeed, tick] at hin
  behind := by simp

theorem literal_of_lines :
    normalizeCode [lineFeed, 0x61, lineFeed] = stripped [space, 0x61, space] ∧
      ∃ span, (codeParts CodeSource.lines.text true).literal = some span ∧
        span.stop ≤ CodeSource.lines.text.length ∧
        readAs space (slice CodeSource.lines.text span) =
          normalizeCode CodeSource.lines.content :=
  ⟨literal_of_code.1 [lineFeed, 0x61, lineFeed] (by simp [lineFeed, carriageReturn]),
    literal_of_code.2 CodeSource.lines true⟩

example : (codeParts CodeSource.lines.text true).literal = some ⟨3, 4⟩ ∧
    normalizeCode CodeSource.lines.content = [0x61] := by
  decide

end MarkdownCore.Inline
