import MarkdownCore.Text.Columns

/-!
# Virtual columns stay true to the tabs

A cursor stands at a scalar of its line, with a part of a tab consumed or none (`StandsAt`), and
what is kept of the first byte that is no space or tab is true from there (`Kept`). A count of
columns takes the cursor to its column, or to the line's end, and the column says where the cursor
stands; a count of bytes that ends between scalars takes it there.
-/

namespace MarkdownCore.Text

/-! ### Columns of a text -/

/-- The column past a scalar that begins at a column. -/
def pastScalar (column : ℕ) (c : Char) : ℕ :=
  if c = '\t' then column + (tabStop - column % tabStop) else column + 1

/-- The tab-expanded column of the scalar at an index. -/
def columnOf (text : List Char) (k : ℕ) : ℕ := (text.take k).foldl pastScalar 0

/-- Where the scalar at an index begins. -/
def offsetOf (text : List Char) (k : ℕ) : ℕ := (encode (text.take k)).length

/-- A space or a tab. -/
def isBlank (c : Char) : Bool := c = ' ' ∨ c = '\t'

/-- The first scalar from an index on that is no space or tab. -/
def nonspaceFrom (text : List Char) (k : ℕ) : ℕ := k + ((text.drop k).takeWhile isBlank).length

lemma lt_pastScalar (column : ℕ) (c : Char) : column < pastScalar column c := by
  have hmod := Nat.mod_lt column (by decide : 0 < tabStop)
  rw [pastScalar]
  split <;> omega

lemma columnOf_succ {text : List Char} {k : ℕ} {c : Char} (h : text[k]? = some c) :
    columnOf text (k + 1) = pastScalar (columnOf text k) c := by
  rw [columnOf, columnOf, List.take_add_one, h, List.foldl_append]
  rfl

lemma offsetOf_succ {text : List Char} {k : ℕ} {c : Char} (h : text[k]? = some c) :
    offsetOf text (k + 1) = offsetOf text k + (String.utf8EncodeChar c).length := by
  rw [offsetOf, offsetOf, List.take_add_one, h, encode_append, List.length_append]
  simp

lemma columnOf_lt {text : List Char} {i j : ℕ} (hij : i < j) (hj : j ≤ text.length) :
    columnOf text i < columnOf text j := by
  induction j, hij using Nat.le_induction with
  | base =>
    rw [columnOf_succ (List.getElem?_eq_getElem hj)]
    exact lt_pastScalar _ _
  | succ j _ ih =>
    have hlt := ih (by omega)
    rw [columnOf_succ (List.getElem?_eq_getElem hj)]
    exact hlt.trans (lt_pastScalar _ _)

lemma columnOf_mono {text : List Char} {i j : ℕ} (hij : i ≤ j) (hj : j ≤ text.length) :
    columnOf text i ≤ columnOf text j := by
  rcases Nat.eq_or_lt_of_le hij with rfl | hlt
  · exact le_refl _
  · exact (columnOf_lt hlt hj).le

lemma offsetOf_lt {text : List Char} {i j : ℕ} (hij : i < j) (hj : j ≤ text.length) :
    offsetOf text i < offsetOf text j := by
  induction j, hij using Nat.le_induction with
  | base =>
    rw [offsetOf_succ (List.getElem?_eq_getElem hj)]
    exact Nat.lt_add_of_pos_right (length_encodeChar_pos _)
  | succ j _ ih =>
    have hlt := ih (by omega)
    rw [offsetOf_succ (List.getElem?_eq_getElem hj)]
    omega

lemma offsetOf_lt_iff {text : List Char} {i j : ℕ} (hi : i ≤ text.length) (hj : j ≤ text.length) :
    offsetOf text i < offsetOf text j ↔ i < j := by
  constructor
  · intro h
    by_contra hge
    rcases Nat.eq_or_lt_of_le (not_lt.mp hge) with rfl | hlt
    · exact lt_irrefl _ h
    · exact absurd (offsetOf_lt hlt hi) (not_lt.mpr h.le)
  · intro h
    exact offsetOf_lt h hj

lemma offsetOf_le (text : List Char) (k : ℕ) : offsetOf text k ≤ (encode text).length :=
  length_encode_take_le text k

lemma offsetOf_length (text : List Char) : offsetOf text text.length = (encode text).length := by
  rw [offsetOf, List.take_length]

lemma drop_offsetOf (text : List Char) (k : ℕ) :
    (encode text).drop (offsetOf text k) = encode (text.drop k) := by
  have h := encode_append (text.take k) (text.drop k)
  rw [List.take_append_drop] at h
  rw [h, offsetOf, List.drop_left]

/-- The line's bytes from a scalar on. -/
lemma peekAt_eq {line rest : List UInt8} {n : ℕ} (h : line.drop n = rest) (i : ℕ) :
    peekAt line (n + i) = rest.getD i 0 := by
  rw [peekAt, List.getD_eq_getElem?_getD, List.getD_eq_getElem?_getD, ← h, List.getElem?_drop]

lemma peekAt_head {line rest : List UInt8} {n : ℕ} {b : UInt8} (h : line.drop n = b :: rest) :
    peekAt line n = b := peekAt_eq h 0

lemma lt_of_drop {line rest : List UInt8} {n : ℕ} {b : UInt8} (h : line.drop n = b :: rest) :
    n < line.length := by
  by_contra hge
  rw [List.drop_of_length_le (not_lt.mp hge)] at h
  exact absurd h (by simp)

lemma drop_succ {line rest : List UInt8} {n : ℕ} {b : UInt8} (h : line.drop n = b :: rest) :
    line.drop (n + 1) = rest := by
  rw [← List.drop_drop, h]
  rfl

lemma continues_cases : ∀ n : Fin 256, continues (UInt8.ofNat n) = true →
    UInt8.ofNat n ≠ 0 ∧ UInt8.ofNat n ≠ 9 := by
  decide +kernel

lemma ne_of_continues {b : UInt8} (h : continues b = true) : b ≠ 0 ∧ b ≠ 9 := by
  have hb := continues_cases ⟨b.toNat, b.toNat_lt⟩
  simp only [UInt8.ofNat_toNat] at hb
  exact hb h

/-! ### A scalar gone past -/

/-- The cursor past a scalar that is no tab. -/
def At.pass (s : At) (bytes : ℕ) : At :=
  { s with partiallyConsumedTab := false, offset := s.offset + bytes, column := s.column + 1 }

/-- A scalar that is no tab is gone past byte by byte, and counts at its last. -/
lemma advanceFrom_scalar {line post : List UInt8} {columns : Bool} (hpost : Begins post) :
    ∀ {tail : List UInt8} {b : UInt8} {s : At} {fuel count : ℕ},
      line.drop s.offset = b :: tail ++ post → b ≠ 0 → b ≠ 9 →
      (∀ x ∈ tail, continues x = true) → 0 < count →
      (columns = false → tail.length + 1 ≤ count) →
      advanceFrom line columns (fuel + (tail.length + 1)) count s =
        advanceFrom line columns fuel
          (if columns then count - 1 else count - (tail.length + 1)) (s.pass (tail.length + 1)) := by
  intro tail
  induction tail with
  | nil =>
    intro b s fuel count hdrop hzero htab _ hcount _
    have hlt := lt_of_drop hdrop
    have hend : (s.offset + 1 = line.length ∨
        continues (peekAt line (s.offset + 1)) = false) := by
      cases post with
      | nil =>
        have hlen := congrArg List.length hdrop
        simp at hlen
        exact .inl (by omega)
      | cons x post =>
        refine .inr ?_
        rw [peekAt_head (drop_succ hdrop)]
        exact hpost x rfl
    rw [List.length_nil, Nat.zero_add, advanceFrom, peekAt_head hdrop, if_pos ⟨hcount, hlt, hzero⟩,
      if_neg htab]
    simp only [hend, decide_true, if_true]
    rfl
  | cons x tail ih =>
    intro b s fuel count hdrop hzero htab hcont hcount hbytes
    have hlt := lt_of_drop hdrop
    obtain ⟨hx, htail⟩ := List.forall_mem_cons.mp hcont
    have hnext := drop_succ hdrop
    have hgo : ¬ (s.offset + 1 = line.length ∨
        continues (peekAt line (s.offset + 1)) = false) := by
      rintro (hend | hstop)
      · have := lt_of_drop hnext
        omega
      · rw [peekAt_head hnext, hx] at hstop
        exact absurd hstop (by simp)
    obtain ⟨hxzero, hxtab⟩ := ne_of_continues hx
    rw [List.length_cons, ← Nat.add_assoc, advanceFrom, peekAt_head hdrop,
      if_pos ⟨hcount, hlt, hzero⟩, if_neg htab]
    simp only [hgo, decide_false, Bool.false_eq_true, if_false, Nat.add_zero]
    have hpass : ({ s with
          partiallyConsumedTab := false, offset := s.offset + 1 } : At).pass (tail.length + 1) =
        s.pass (tail.length + 1 + 1) := by
      simp only [At.pass, At.mk.injEq, and_true]
      omega
    have hrest : ({ s with
        partiallyConsumedTab := false, offset := s.offset + 1 } : At).offset = s.offset + 1 := rfl
    cases columns with
    | true =>
      have hgone := @ih x { s with partiallyConsumedTab := false, offset := s.offset + 1 } fuel
        count (by rw [hrest, hnext]; rfl) hxzero hxtab htail hcount (by simp)
      rw [hpass] at hgone
      exact hgone
    | false =>
      have hle := hbytes rfl
      rw [List.length_cons] at hle
      have hgone := @ih x { s with partiallyConsumedTab := false, offset := s.offset + 1 } fuel
        (count - 1) (by rw [hrest, hnext]; rfl) hxzero hxtab htail (by omega)
        (fun _ => by omega)
      rw [hpass] at hgone
      simp only [Bool.false_eq_true, if_false] at hgone ⊢
      rw [hgone, show count - 1 - (tail.length + 1) = count - (tail.length + 1 + 1) by omega]

/-! ### Where the cursor stands -/

/-- The cursor stands at a scalar, with as many columns of a tab there consumed. -/
structure StandsAt (text : List Char) (s : At) (k used : ℕ) : Prop where
  le : k ≤ text.length
  offset_eq : s.offset = offsetOf text k
  column_eq : s.column = columnOf text k + used
  flagged : s.partiallyConsumedTab = decide (0 < used)
  inside : 0 < used → text[k]? = some '\t' ∧ s.column < columnOf text (k + 1)

/-- What is kept of the first byte that is no space or tab, while the cursor is before it. -/
def Kept (text : List Char) (s : At) (k : ℕ) : Prop :=
  s.offset < s.firstNonspace →
    s.firstNonspace = offsetOf text (nonspaceFrom text k) ∧
      s.firstNonspaceColumn = columnOf text (nonspaceFrom text k)

/-- What an advance leaves as it is. -/
def At.SameFirst (s s' : At) : Prop :=
  s'.firstNonspace = s.firstNonspace ∧ s'.firstNonspaceColumn = s.firstNonspaceColumn ∧
    s'.indent = s.indent ∧ s'.blank = s.blank

section

variable {text : List Char} {s : At} {k used : ℕ}

/-- The line's bytes from the cursor on. -/
lemma StandsAt.drop (h : StandsAt text s k used) :
    (encode text).drop s.offset = encode (text.drop k) := by
  rw [h.offset_eq, drop_offsetOf]

/-- The columns still to go of a tab, with a part of it consumed or none. -/
lemma StandsAt.tab (h : StandsAt text s k used) (hk : text[k]? = some '\t') :
    s.column + (tabStop - s.column % tabStop) = columnOf text (k + 1) := by
  have hnext := columnOf_succ hk
  rw [pastScalar, if_pos rfl] at hnext
  have hin : s.column < columnOf text (k + 1) := by
    rcases Nat.eq_zero_or_pos used with hzero | hpos
    · rw [h.column_eq, hzero, Nat.add_zero]
      have := lt_pastScalar (columnOf text k) '\t'
      rw [pastScalar, if_pos rfl] at this
      omega
    · exact (h.inside hpos).2
  have hle : columnOf text k ≤ s.column := by
    rw [h.column_eq]
    exact Nat.le_add_right _ _
  rw [hnext] at hin ⊢
  rw [tabStop] at hin ⊢
  omega

/-- The column says where the cursor stands. -/
lemma StandsAt.unique {s' : At} {k' used' : ℕ} (h : StandsAt text s k used)
    (h' : StandsAt text s' k' used') (hcolumn : s.column = s'.column) : k = k' ∧ used = used' := by
  have hbefore : ∀ {s : At} {k used : ℕ}, StandsAt text s k used → k < text.length →
      s.column < columnOf text (k + 1) := by
    intro s k used h hk
    rcases Nat.eq_zero_or_pos used with hzero | hpos
    · rw [h.column_eq, hzero, Nat.add_zero]
      exact columnOf_lt (Nat.lt_succ_self k) hk
    · exact (h.inside hpos).2
  have hle : ∀ {s s' : At} {k used k' used' : ℕ}, StandsAt text s k used →
      StandsAt text s' k' used' → s.column = s'.column → ¬ k < k' := by
    intro s s' k used k' used' h h' hcolumn hlt
    have h₁ := hbefore h (lt_of_lt_of_le hlt h'.le)
    have h₂ : columnOf text (k + 1) ≤ columnOf text k' := columnOf_mono hlt h'.le
    have h₃ := h'.column_eq
    omega
  have hk : k = k' := by
    have h₁ := hle h h' hcolumn
    have h₂ := hle h' h hcolumn.symm
    omega
  subst hk
  have h₁ := h.column_eq
  have h₂ := h'.column_eq
  exact ⟨rfl, by omega⟩

/-- Cursors that stand at one column are one. -/
lemma StandsAt.ext {s' : At} {k' used' : ℕ} (h : StandsAt text s k used)
    (h' : StandsAt text s' k' used') (hcolumn : s.column = s'.column) (hsame : s.SameFirst s') :
    s = s' := by
  obtain ⟨rfl, rfl⟩ := h.unique h' hcolumn
  obtain ⟨h₁, h₂, h₃, h₄⟩ := hsame
  have hoffset := h.offset_eq.trans h'.offset_eq.symm
  have hflag := h.flagged.trans h'.flagged.symm
  cases s
  cases s'
  simp only at h₁ h₂ h₃ h₄ hoffset hflag hcolumn
  simp only [At.mk.injEq]
  exact ⟨hoffset, hcolumn, h₁.symm, h₂.symm, h₃.symm, h₄.symm, hflag⟩

lemma encodeChar_tab : String.utf8EncodeChar '\t' = [9] := by decide

/-- The first byte of a scalar is another ASCII scalar's only where the scalar is that one. -/
lemma head_ne {c d : Char} {head : UInt8} {tail : List UInt8} (h : Encoding c head tail)
    (hd : d.val.toNat < 128) (hne : c ≠ d) : head ≠ UInt8.ofNat d.val.toNat := by
  intro heq
  have hval := congrArg UInt8.toNat heq
  rw [toNat_of_lt (by omega)] at hval
  by_cases hsmall : c.val.toNat < 128
  · obtain ⟨rfl, -⟩ := h.ascii hsmall
    rw [toNat_of_lt (by omega)] at hval
    exact hne (Char.ext (UInt32.toNat_inj.mp hval))
  · have := h.wide (not_lt.mp hsmall)
    omega

/-- A scalar that is no tab is gone past. -/
lemma StandsAt.pass (h : StandsAt text s k 0) {c : Char} (hk : text[k]? = some c) (htab : c ≠ '\t') :
    StandsAt text (s.pass (String.utf8EncodeChar c).length) (k + 1) 0 where
  le := (List.getElem?_eq_some_iff.mp hk).choose
  offset_eq := by
    rw [offsetOf_succ hk, ← h.offset_eq]
    rfl
  column_eq := by
    have hcolumn := h.column_eq
    rw [columnOf_succ hk, pastScalar, if_neg htab]
    exact congrArg (· + 1) hcolumn
  flagged := rfl
  inside := fun hpos => absurd hpos (lt_irrefl 0)

/-- A tab is gone past. -/
lemma StandsAt.passTab (h : StandsAt text s k used) (hk : text[k]? = some '\t') :
    StandsAt text { s with
      partiallyConsumedTab := false
      column := s.column + (tabStop - s.column % tabStop)
      offset := s.offset + 1 } (k + 1) 0 where
  le := (List.getElem?_eq_some_iff.mp hk).choose
  offset_eq := by
    rw [offsetOf_succ hk, ← h.offset_eq, encodeChar_tab]
    rfl
  column_eq := h.tab hk
  flagged := rfl
  inside := fun hpos => absurd hpos (lt_irrefl 0)

/-- A part of a tab is consumed. -/
lemma StandsAt.part (h : StandsAt text s k used) (hk : text[k]? = some '\t') {count : ℕ}
    (hcount : 0 < count) (hlt : count < tabStop - s.column % tabStop) :
    StandsAt text { s with
      partiallyConsumedTab := true
      column := s.column + count } k (used + count) where
  le := h.le
  offset_eq := h.offset_eq
  column_eq := by
    have hcolumn := h.column_eq
    simp only
    omega
  flagged := by simp; omega
  inside := by
    intro _
    have htab := h.tab hk
    exact ⟨hk, by simp only; omega⟩

/-- What a turn of the loop finds at the cursor: the line's end, a tab, or another scalar. -/
lemma StandsAt.cases (h : StandsAt text s k used) :
    (k = text.length ∧ s.offset = (encode text).length) ∨
      (text[k]? = some '\t' ∧ (encode text).drop s.offset = 9 :: encode (text.drop (k + 1))) ∨
      ∃ c, text[k]? = some c ∧ c ≠ '\t' ∧ used = 0 ∧
        (encode text).drop s.offset = String.utf8EncodeChar c ++ encode (text.drop (k + 1)) := by
  rcases Nat.eq_or_lt_of_le h.le with heq | hlt
  · refine .inl ⟨heq, ?_⟩
    rw [h.offset_eq, heq, offsetOf_length]
  · have hget := List.getElem?_eq_getElem hlt
    have hdrop := h.drop
    rw [List.drop_eq_getElem_cons hlt, encode_cons] at hdrop
    by_cases htab : text[k] = '\t'
    · rw [htab] at hget hdrop
      exact .inr (.inl ⟨hget, by rw [hdrop, encodeChar_tab]; rfl⟩)
    · refine .inr (.inr ⟨text[k], hget, htab, ?_, hdrop⟩)
      by_contra hne
      have := (h.inside (Nat.pos_of_ne_zero hne)).1
      rw [hget] at this
      exact htab (Option.some.inj this)

lemma advanceFrom_zero (line : List UInt8) (columns : Bool) (fuel : ℕ) (s : At) :
    advanceFrom line columns fuel 0 s = s := by
  cases fuel with
  | zero => rfl
  | succ fuel => rw [advanceFrom, if_neg (by simp)]

/-- At the line's end the cursor stays. -/
lemma advanceFrom_end {line : List UInt8} (columns : Bool) (fuel count : ℕ) {s : At}
    (h : s.offset = line.length) : advanceFrom line columns fuel count s = s := by
  cases fuel with
  | zero => rfl
  | succ fuel =>
    rw [advanceFrom]
    exact if_neg (fun hgo => absurd hgo.2.1 (by omega))

/-- A turn at a scalar that is no tab goes past it. -/
lemma StandsAt.turn (h : StandsAt text s k used) {c : Char} (hk : text[k]? = some c)
    (hnul : c ≠ '\x00') (htab : c ≠ '\t') (columns : Bool) {fuel count : ℕ} (hcount : 0 < count)
    (hfuel : (encode text).length - s.offset + 1 ≤ fuel)
    (hbytes : columns = false → (String.utf8EncodeChar c).length ≤ count) :
    ∃ fuel', (encode text).length - (s.pass (String.utf8EncodeChar c).length).offset + 1 ≤ fuel' ∧
      advanceFrom (encode text) columns fuel count s =
        advanceFrom (encode text) columns fuel'
          (if columns then count - 1 else count - (String.utf8EncodeChar c).length)
          (s.pass (String.utf8EncodeChar c).length) := by
  obtain ⟨head, tail, henc⟩ := exists_encoding c
  have hzero : head ≠ 0 := head_ne henc (by decide) hnul
  have hnine : head ≠ 9 := head_ne henc (by decide) htab
  have hlen : (String.utf8EncodeChar c).length = tail.length + 1 := by rw [henc.bytes]; rfl
  have hdrop : (encode text).drop s.offset = head :: tail ++ encode (text.drop (k + 1)) := by
    obtain ⟨hlt, hget⟩ := List.getElem?_eq_some_iff.mp hk
    rw [h.drop, List.drop_eq_getElem_cons hlt, encode_cons, hget, henc.bytes]
  have hroom := congrArg List.length hdrop
  rw [List.length_drop, List.length_append, List.length_cons] at hroom
  obtain ⟨fuel', rfl⟩ : ∃ f, fuel = f + (tail.length + 1) := ⟨fuel - (tail.length + 1), by omega⟩
  refine ⟨fuel', ?_, ?_⟩
  · simp only [At.pass, hlen]
    omega
  · rw [hlen] at hbytes ⊢
    exact advanceFrom_scalar (begins_encode _) hdrop hzero hnine henc.tail_continues hcount hbytes

lemma StandsAt.column_le (h : StandsAt text s k used) : s.column ≤ columnOf text text.length := by
  rcases Nat.eq_zero_or_pos used with hzero | hpos
  · have := columnOf_mono h.le (le_refl text.length)
    have := h.column_eq
    omega
  · obtain ⟨hk, hlt⟩ := h.inside hpos
    have hkl : k < text.length := (List.getElem?_eq_some_iff.mp hk).choose
    have := columnOf_mono (Nat.succ_le_of_lt hkl) (le_refl text.length)
    exact (hlt.trans_le this).le

lemma At.SameFirst.refl (s : At) : s.SameFirst s := ⟨rfl, rfl, rfl, rfl⟩

lemma At.SameFirst.trans {s s' s'' : At} (h : s.SameFirst s') (h' : s'.SameFirst s'') :
    s.SameFirst s'' :=
  ⟨h'.1.trans h.1, h'.2.1.trans h.2.1, h'.2.2.1.trans h.2.2.1, h'.2.2.2.trans h.2.2.2⟩

/-- A count of columns takes the cursor to its column, or to the line's end. -/
theorem StandsAt.advanceColumns (hnul : ∀ c ∈ text, c ≠ '\x00') :
    ∀ {d fuel count k used : ℕ} {s : At}, StandsAt text s k used → k + d = text.length →
      (encode text).length - s.offset + 1 ≤ fuel →
      ∃ k' used', k ≤ k' ∧
        StandsAt text (advanceFrom (encode text) true fuel count s) k' used' ∧
        (advanceFrom (encode text) true fuel count s).column =
          min (s.column + count) (columnOf text text.length) ∧
        s.SameFirst (advanceFrom (encode text) true fuel count s) := by
  intro d
  induction d with
  | zero =>
    intro fuel count k used s h hd hfuel
    have hk : k = text.length := by omega
    have hend : s.offset = (encode text).length := by rw [h.offset_eq, hk, offsetOf_length]
    rw [advanceFrom_end true fuel count hend]
    refine ⟨k, used, le_refl k, h, ?_, At.SameFirst.refl s⟩
    have hle := h.column_le
    have hcolumn := h.column_eq
    rw [← hk] at hle ⊢
    omega
  | succ d ih =>
    intro fuel count k used s h hd hfuel
    have hle := h.column_le
    rcases Nat.eq_zero_or_pos count with rfl | hcount
    · rw [advanceFrom_zero]
      exact ⟨k, used, le_refl k, h, by omega, At.SameFirst.refl s⟩
    rcases h.cases with ⟨hend, -⟩ | ⟨hk, hdrop⟩ | ⟨c, hk, htab, hused, hdrop⟩
    · omega
    · obtain ⟨fuel, rfl⟩ : ∃ f, fuel = f + 1 := ⟨fuel - 1, by omega⟩
      have hlt := lt_of_drop hdrop
      have hgo : 0 < count ∧ s.offset < (encode text).length ∧ (9 : UInt8) ≠ 0 :=
        ⟨hcount, hlt, by decide⟩
      have hcolumn := h.tab hk
      rw [advanceFrom, peekAt_head hdrop]
      simp only [if_pos hgo, if_true]
      by_cases hpart : count < tabStop - s.column % tabStop
      · -- a part of the tab is all the count takes
        simp only [hpart, decide_true, if_true, Nat.add_zero, min_eq_left hpart.le, Nat.sub_self,
          advanceFrom_zero]
        have hpartial := h.part hk hcount hpart
        exact ⟨k, used + count, le_refl k, hpartial, by
          have := hpartial.column_le
          simp only at this
          omega, rfl, rfl, rfl, rfl⟩
      · simp only [hpart, decide_false, Bool.false_eq_true, if_false,
          min_eq_right (not_lt.mp hpart)]
        obtain ⟨k', used', hk', hstands, hcol, hsame⟩ :=
          @ih fuel (count - (tabStop - s.column % tabStop)) _ _ _ (h.passTab hk) (by omega)
            (by simp only; omega)
        refine ⟨k', used', by omega, hstands, ?_, (At.SameFirst.trans ⟨rfl, rfl, rfl, rfl⟩ hsame)⟩
        rw [hcol]
        simp only
        omega
    · subst hused
      have hc : c ≠ '\x00' := hnul c (List.mem_of_getElem? hk)
      obtain ⟨fuel', hfuel', hturn⟩ := h.turn hk hc htab true hcount hfuel (by simp)
      rw [hturn]
      obtain ⟨k', used', hk', hstands, hcol, hsame⟩ :=
        @ih fuel' (count - 1) _ _ _ (h.pass hk htab) (by omega) hfuel'
      refine ⟨k', used', by omega, hstands, ?_, (At.SameFirst.trans ⟨rfl, rfl, rfl, rfl⟩ hsame)⟩
      simp only [if_true]
      rw [hcol]
      simp only [At.pass]
      omega

/-- A count of bytes that ends between scalars takes the cursor there. -/
theorem StandsAt.advanceBytes (hnul : ∀ c ∈ text, c ≠ '\x00') :
    ∀ {d fuel k used more : ℕ} {s : At}, StandsAt text s k used → k + d ≤ text.length →
      (encode text).length - s.offset + 1 ≤ fuel →
      (more = 0 ∨ k + d = text.length) →
      ∃ used', StandsAt text (advanceFrom (encode text) false fuel
          ((encode ((text.drop k).take d)).length + more) s) (k + d) used' ∧
        s.SameFirst (advanceFrom (encode text) false fuel
          ((encode ((text.drop k).take d)).length + more) s) := by
  intro d
  induction d with
  | zero =>
    intro fuel k used more s h hd hfuel hmore
    rw [List.take_zero, encode_nil, List.length_nil, Nat.zero_add, Nat.add_zero]
    rcases hmore with rfl | hend
    · rw [advanceFrom_zero]
      exact ⟨used, h, At.SameFirst.refl s⟩
    · have hend' : s.offset = (encode text).length := by
        rw [h.offset_eq, show k = text.length by omega, offsetOf_length]
      rw [advanceFrom_end false fuel more hend']
      exact ⟨used, h, At.SameFirst.refl s⟩
  | succ d ih =>
    intro fuel k used more s h hd hfuel hmore
    have hlt : k < text.length := by omega
    have hbytes : (encode ((text.drop k).take (d + 1))).length =
        (String.utf8EncodeChar text[k]).length +
          (encode ((text.drop (k + 1)).take d)).length := by
      rw [List.drop_eq_getElem_cons hlt, List.take_succ_cons, encode_cons, List.length_append]
    have hpos := length_encodeChar_pos text[k]
    have hmore' : more = 0 ∨ k + 1 + d = text.length := by omega
    rw [hbytes, show k + (d + 1) = k + 1 + d by omega]
    rcases h.cases with ⟨hend, -⟩ | ⟨hk, hdrop⟩ | ⟨c, hk, htab, hused, hdrop⟩
    · omega
    · obtain ⟨fuel, rfl⟩ : ∃ f, fuel = f + 1 := ⟨fuel - 1, by omega⟩
      have hget : text[k] = '\t' := by
        rw [List.getElem?_eq_getElem hlt] at hk
        exact Option.some.inj hk
      have hlt' := lt_of_drop hdrop
      rw [hget, encodeChar_tab, List.length_singleton, advanceFrom, peekAt_head hdrop]
      have hgo : 0 < 1 + (encode ((text.drop (k + 1)).take d)).length + more ∧
          s.offset < (encode text).length ∧ (9 : UInt8) ≠ 0 := ⟨by omega, hlt', by decide⟩
      simp only [if_pos hgo, if_true, Bool.false_eq_true, if_false]
      rw [show 1 + (encode ((text.drop (k + 1)).take d)).length + more - 1 =
        (encode ((text.drop (k + 1)).take d)).length + more by omega]
      obtain ⟨used', hstands, hsame⟩ := ih (h.passTab hk) (by omega)
        (show (encode text).length - (s.offset + 1) + 1 ≤ fuel by omega) hmore'
      exact ⟨used', hstands, At.SameFirst.trans ⟨rfl, rfl, rfl, rfl⟩ hsame⟩
    · subst hused
      have hget : text[k] = c := by
        rw [List.getElem?_eq_getElem hlt] at hk
        exact Option.some.inj hk
      rw [hget] at hpos ⊢
      have hc : c ≠ '\x00' := hnul c (List.mem_of_getElem? hk)
      obtain ⟨fuel', hfuel', hturn⟩ := @StandsAt.turn text s k 0 h c hk hc htab false fuel
        ((String.utf8EncodeChar c).length + (encode ((text.drop (k + 1)).take d)).length + more)
        (by omega) hfuel (fun _ => by omega)
      rw [hturn]
      simp only [Bool.false_eq_true, if_false]
      rw [Nat.add_assoc, Nat.add_sub_cancel_left]
      obtain ⟨used', hstands, hsame⟩ := ih (h.pass hk htab) (by omega) hfuel' hmore'
      exact ⟨used', hstands, At.SameFirst.trans ⟨rfl, rfl, rfl, rfl⟩ hsame⟩

/-! ### The first byte that is no space or tab -/

lemma nonspaceFrom_le (hk : k ≤ text.length) : nonspaceFrom text k ≤ text.length := by
  have h := (List.takeWhile_prefix isBlank (l := text.drop k)).length_le
  rw [List.length_drop] at h
  rw [nonspaceFrom]
  omega

lemma nonspaceFrom_blank {c : Char} (hk : text[k]? = some c) (hc : isBlank c = true) :
    nonspaceFrom text k = nonspaceFrom text (k + 1) := by
  obtain ⟨hlt, rfl⟩ := List.getElem?_eq_some_iff.mp hk
  rw [nonspaceFrom, nonspaceFrom, List.drop_eq_getElem_cons hlt, List.takeWhile_cons_of_pos hc,
    List.length_cons]
  omega

lemma nonspaceFrom_self (h : ∀ c, text[k]? = some c → isBlank c = false) :
    nonspaceFrom text k = k := by
  rw [nonspaceFrom]
  cases hd : text.drop k with
  | nil => rfl
  | cons c rest =>
    have hget : text[k]? = some c := by
      have hzero := congrArg (·[0]?) hd
      simpa using hzero
    rw [List.takeWhile_cons_of_neg (by simp [h c hget])]
    rfl

/-- The scalar that is no space or tab, found from one before it. -/
lemma nonspaceFrom_of_le {k' : ℕ} (hk : k ≤ k') (hk' : k' ≤ nonspaceFrom text k) :
    nonspaceFrom text k' = nonspaceFrom text k := by
  induction k', hk using Nat.le_induction with
  | base => rfl
  | succ j hj ih =>
    have heq := ih (by omega)
    rw [← heq] at hk' ⊢
    by_cases hblank : ∃ c, text[j]? = some c ∧ isBlank c = true
    · obtain ⟨c, hc, hcblank⟩ := hblank
      exact (nonspaceFrom_blank hc hcblank).symm
    · have hself : nonspaceFrom text j = j := by
        apply nonspaceFrom_self
        intro c hc
        by_contra htrue
        exact hblank ⟨c, hc, by simpa using htrue⟩
      omega

lemma encodeChar_space : String.utf8EncodeChar ' ' = [32] := by decide

/-- The walk over spaces and tabs comes to the first byte that is neither. -/
lemma skipBlanks_eq :
    ∀ {d fuel k used : ℕ} {s : At}, StandsAt text s k used → k + d = text.length →
      (encode text).length - s.offset ≤ fuel →
      skipBlanks (encode text) fuel s.offset s.column =
        (offsetOf text (nonspaceFrom text k), columnOf text (nonspaceFrom text k)) := by
  intro d
  induction d with
  | zero =>
    intro fuel k used s h hd hfuel
    have hk : k = text.length := by omega
    have hself : nonspaceFrom text k = k :=
      nonspaceFrom_self fun c hc => by simp [hk] at hc
    have hend : (encode text).drop s.offset = [] := by
      rw [h.offset_eq, hk, offsetOf_length, List.drop_length]
    have hused : used = 0 := by
      by_contra hne
      have := (h.inside (Nat.pos_of_ne_zero hne)).1
      simp [hk] at this
    have hcolumn := h.column_eq
    rw [hself, ← h.offset_eq, show columnOf text k = s.column by omega]
    cases fuel with
    | zero => rfl
    | succ fuel =>
      have hpeek : peekAt (encode text) s.offset = 0 := peekAt_eq hend 0
      rw [skipBlanks, hpeek]
      rfl
  | succ d ih =>
    intro fuel k used s h hd hfuel
    rcases h.cases with ⟨hend, -⟩ | ⟨hk, hdrop⟩ | ⟨c, hk, htab, hused, hdrop⟩
    · omega
    · have hlt := lt_of_drop hdrop
      obtain ⟨fuel, rfl⟩ : ∃ f, fuel = f + 1 := ⟨fuel - 1, by omega⟩
      rw [skipBlanks, peekAt_head hdrop, nonspaceFrom_blank hk (by decide)]
      exact ih (h.passTab hk) (by omega) (show _ - (s.offset + 1) ≤ fuel by omega)
    · subst hused
      by_cases hspace : c = ' '
      · subst hspace
        rw [encodeChar_space] at hdrop
        have hlt := lt_of_drop hdrop
        obtain ⟨fuel, rfl⟩ : ∃ f, fuel = f + 1 := ⟨fuel - 1, by omega⟩
        rw [skipBlanks, peekAt_head hdrop, nonspaceFrom_blank hk (by decide)]
        exact ih (h.pass hk htab) (by omega) (show _ - (s.offset + 1) ≤ fuel by omega)
      · obtain ⟨head, tail, henc⟩ := exists_encoding c
        have hself : nonspaceFrom text k = k := by
          apply nonspaceFrom_self
          intro c' hc'
          rw [hk] at hc'
          obtain rfl := Option.some.inj hc'
          simp [isBlank, hspace, htab]
        have hcolumn := h.column_eq
        rw [hself, ← h.offset_eq, show columnOf text k = s.column by omega]
        cases fuel with
        | zero => rfl
        | succ fuel =>
          rw [henc.bytes] at hdrop
          rw [skipBlanks, peekAt_head hdrop]
          have h₁ : head ≠ 32 := head_ne henc (by decide) hspace
          have h₂ : head ≠ 9 := head_ne henc (by decide) htab
          simp only [if_neg h₁, if_neg h₂]

/-- Finding the first byte that is no space or tab, kept or anew. -/
theorem StandsAt.find (h : StandsAt text s k used) (hkept : Kept text s k) :
    findFirstNonspace (encode text) s =
      { s with
        firstNonspace := offsetOf text (nonspaceFrom text k)
        firstNonspaceColumn := columnOf text (nonspaceFrom text k)
        indent := (columnOf text (nonspaceFrom text k) : ℤ) - s.column
        blank := isLineEnd (peekAt (encode text) (offsetOf text (nonspaceFrom text k))) } := by
  have hfirst : (if s.firstNonspace ≤ s.offset then
      skipBlanks (encode text) (encode text).length s.offset s.column
      else (s.firstNonspace, s.firstNonspaceColumn)) =
        (offsetOf text (nonspaceFrom text k), columnOf text (nonspaceFrom text k)) := by
    split
    next =>
      have hle := h.le
      exact skipBlanks_eq h (by omega : k + (text.length - k) = text.length) (Nat.sub_le _ _)
    next hlt =>
      obtain ⟨h₁, h₂⟩ := hkept (not_le.mp hlt)
      rw [h₁, h₂]
  rw [findFirstNonspace, hfirst]

/-- What is kept stays true where the cursor moves on. -/
lemma Kept.mono (hkept : Kept text s k) (h : StandsAt text s k used) {s' : At} {k' used' : ℕ}
    (h' : StandsAt text s' k' used') (hle : k ≤ k') (hsame : s.SameFirst s') :
    Kept text s' k' := by
  intro hlt
  rw [hsame.1] at hlt
  have hoffset : s.offset ≤ s'.offset := by
    rw [h.offset_eq, h'.offset_eq]
    rcases Nat.eq_or_lt_of_le hle with rfl | hlt'
    · exact le_refl _
    · exact (offsetOf_lt hlt' h'.le).le
  obtain ⟨h₁, h₂⟩ := hkept (lt_of_le_of_lt hoffset hlt)
  have hbefore : k' < nonspaceFrom text k := by
    rw [h₁, h'.offset_eq] at hlt
    exact (offsetOf_lt_iff h'.le (nonspaceFrom_le h.le)).mp hlt
  rw [hsame.1, hsame.2.1, nonspaceFrom_of_le hle hbefore.le]
  exact ⟨h₁, h₂⟩

end

/-! ### Runs -/

/-- A byte offset between scalars of a text. -/
def Between (text : List Char) (n : ℕ) : Prop := ∃ k ≤ text.length, n = offsetOf text k

/-- The cursor as calls leave it: from a line's start, or from where a reading stopped, with
nothing kept, by finding the first byte that is no space or tab, by advances, a count of bytes
never splitting a scalar, and by containers' prefixes. -/
inductive Reaches (text : List Char) : At → Prop
  | start : Reaches text At.lineStart
  | resume {s : At} (h : Reaches text s) (saved : At) :
    Reaches text { saved with
      offset := s.offset
      column := s.column
      partiallyConsumedTab := s.partiallyConsumedTab
      firstNonspace := 0
      firstNonspaceColumn := 0 }
  | find {s : At} (h : Reaches text s) : Reaches text (findFirstNonspace (encode text) s)
  | columns {s : At} (h : Reaches text s) (count : ℕ) :
    Reaches text (advanceOffset (encode text) count true s)
  | bytes {s : At} (h : Reaches text s) {count : ℕ}
    (hcount : Between text (min (s.offset + count) (encode text).length)) :
    Reaches text (advanceOffset (encode text) count false s)
  | indented {s : At} (h : Reaches text s) (continuation : ℕ) (acceptsBlank : Bool) :
    Reaches text (continueIndented (encode text) continuation acceptsBlank s).2

lemma offsetOf_add (text : List Char) (k d : ℕ) :
    offsetOf text (k + d) = offsetOf text k + (encode ((text.drop k).take d)).length := by
  rw [offsetOf, offsetOf, List.take_add, encode_append, List.length_append]

section

variable {text : List Char} {s : At} {k used : ℕ}

/-- An advance in columns, where the cursor stands. -/
lemma StandsAt.columns (hnul : ∀ c ∈ text, c ≠ '\x00') (h : StandsAt text s k used) (count : ℕ) :
    ∃ k' used', k ≤ k' ∧ StandsAt text (advanceOffset (encode text) count true s) k' used' ∧
      (advanceOffset (encode text) count true s).column =
        min (s.column + count) (columnOf text text.length) ∧
      s.SameFirst (advanceOffset (encode text) count true s) := by
  have hle := h.le
  exact h.advanceColumns hnul (by omega : k + (text.length - k) = text.length) (le_refl _)

/-- An advance in bytes that ends between scalars, where the cursor stands. -/
lemma StandsAt.bytes (hnul : ∀ c ∈ text, c ≠ '\x00') (h : StandsAt text s k used) {count : ℕ}
    (hcount : Between text (min (s.offset + count) (encode text).length)) :
    ∃ k' used', k ≤ k' ∧ StandsAt text (advanceOffset (encode text) count false s) k' used' ∧
      s.SameFirst (advanceOffset (encode text) count false s) := by
  obtain ⟨k', hk', heq⟩ := hcount
  have hle := h.le
  have hoffset := h.offset_eq
  have hend := offsetOf_le text k
  have hkk' : k ≤ k' := by
    by_contra hlt
    have := offsetOf_lt (not_le.mp hlt) hle
    omega
  obtain ⟨d, rfl⟩ := Nat.exists_eq_add_of_le hkk'
  have hadd := offsetOf_add text k d
  obtain ⟨more, hmore, hlast⟩ : ∃ more,
      count = (encode ((text.drop k).take d)).length + more ∧
        (more = 0 ∨ k + d = text.length) := by
    refine ⟨count - (encode ((text.drop k).take d)).length, by omega, ?_⟩
    by_cases hpast : s.offset + count ≤ (encode text).length
    · exact .inl (by omega)
    · refine .inr ?_
      by_contra hne
      have hlt := offsetOf_lt (by omega : k + d < text.length) (le_refl _)
      rw [offsetOf_length] at hlt
      omega
  obtain ⟨used', hstands, hsame⟩ := h.advanceBytes hnul hk'
    (le_refl ((encode text).length - s.offset + 1)) hlast
  rw [← hmore] at hstands hsame
  exact ⟨k + d, used', hkk', hstands, hsame⟩

/-- However it was reached, the cursor stands at a scalar and what is kept is true from there. -/
theorem Reaches.stands (hnul : ∀ c ∈ text, c ≠ '\x00') (h : Reaches text s) :
    ∃ k used, StandsAt text s k used ∧ Kept text s k := by
  induction h with
  | start =>
    refine ⟨0, 0, ⟨Nat.zero_le _, rfl, rfl, rfl, fun hpos => absurd hpos (lt_irrefl 0)⟩, ?_⟩
    exact fun hlt => absurd hlt (lt_irrefl 0)
  | resume _ saved ih =>
    obtain ⟨k, used, h, -⟩ := ih
    exact ⟨k, used, ⟨h.le, h.offset_eq, h.column_eq, h.flagged, h.inside⟩,
      fun hlt => absurd hlt (Nat.not_lt_zero _)⟩
  | find _ ih =>
    obtain ⟨k, used, h, hkept⟩ := ih
    rw [h.find hkept]
    exact ⟨k, used, ⟨h.le, h.offset_eq, h.column_eq, h.flagged, h.inside⟩, fun _ => ⟨rfl, rfl⟩⟩
  | columns _ count ih =>
    obtain ⟨k, used, h, hkept⟩ := ih
    obtain ⟨k', used', hle, h', -, hsame⟩ := h.columns hnul count
    exact ⟨k', used', h', hkept.mono h h' hle hsame⟩
  | bytes _ hcount ih =>
    obtain ⟨k, used, h, hkept⟩ := ih
    obtain ⟨k', used', hle, h', hsame⟩ := h.bytes hnul hcount
    exact ⟨k', used', h', hkept.mono h h' hle hsame⟩
  | @indented s _ continuation acceptsBlank ih =>
    obtain ⟨k, used, h, hkept⟩ := ih
    rw [continueIndented]
    split
    next =>
      obtain ⟨k', used', hle, h', -, hsame⟩ := h.columns hnul continuation
      exact ⟨k', used', h', hkept.mono h h' hle hsame⟩
    next =>
      split
      next =>
        -- the bytes up to the first that is no space or tab
        have hcount : Between text
            (min (s.offset + (s.firstNonspace - s.offset)) (encode text).length) := by
          by_cases hlt : s.offset < s.firstNonspace
          · refine ⟨nonspaceFrom text k, nonspaceFrom_le h.le, ?_⟩
            have hfirst := (hkept hlt).1
            have := offsetOf_le text (nonspaceFrom text k)
            omega
          · have := offsetOf_le text k
            have := h.offset_eq
            exact ⟨k, h.le, by omega⟩
        obtain ⟨k', used', hle, h', hsame⟩ := h.bytes hnul hcount
        exact ⟨k', used', h', hkept.mono h h' hle hsame⟩
      next => exact ⟨k, used, h, hkept⟩

/-- Advances in columns add up. -/
lemma StandsAt.advance_add (hnul : ∀ c ∈ text, c ≠ '\x00') (h : StandsAt text s k used) (a b : ℕ) :
    advanceOffset (encode text) b true (advanceOffset (encode text) a true s) =
      advanceOffset (encode text) (a + b) true s := by
  obtain ⟨k₁, used₁, -, h₁, hcol₁, hsame₁⟩ := h.columns hnul a
  obtain ⟨k₂, used₂, -, h₂, hcol₂, hsame₂⟩ := h₁.columns hnul b
  obtain ⟨k₃, used₃, -, h₃, hcol₃, hsame₃⟩ := h.columns hnul (a + b)
  refine h₂.ext h₃ (by omega) ?_
  obtain ⟨h₁, h₂, h₃, h₄⟩ := hsame₁.trans hsame₂
  exact ⟨hsame₃.1.trans h₁.symm, hsame₃.2.1.trans h₂.symm, hsame₃.2.2.1.trans h₃.symm,
    hsame₃.2.2.2.trans h₄.symm⟩

/-- The rest of a line, with the columns to go of a tab as spaces. -/
lemma StandsAt.addLine (h : StandsAt text s k used) (content : List UInt8) (owns : Bool) :
    (Text.addLine (encode text) s content owns true).failed = false ∧
      (Text.addLine (encode text) s content owns true).content =
        if 0 < used then
          content ++ List.replicate (columnOf text (k + 1) - s.column) 32 ++
            encode (text.drop (k + 1))
        else content ++ encode (text.drop k) := by
  have hflag := h.flagged
  rw [Text.addLine, if_neg (by simp)]
  by_cases hpos : 0 < used
  · obtain ⟨hk, hlt⟩ := h.inside hpos
    have htab := h.tab hk
    have hdrop : (encode text).drop (s.offset + 1) = encode (text.drop (k + 1)) := by
      rw [← drop_offsetOf, offsetOf_succ hk, encodeChar_tab, h.offset_eq]
      rfl
    rw [decide_eq_true hpos] at hflag
    simp only [hflag, if_true, if_pos hpos, hdrop]
    rw [show tabStop - s.column % tabStop = columnOf text (k + 1) - s.column by omega]
    exact ⟨trivial, rfl⟩
  · rw [decide_eq_false hpos] at hflag
    simp only [hflag, Bool.false_eq_true, if_false, if_neg hpos, h.drop]
    exact ⟨trivial, trivial⟩

end

/-- **Virtual columns stay true to the tabs.** However a line's cursor was reached, its column is
the tab-expanded column of its offset and the columns already consumed of a tab there, which is
flagged exactly then and is not consumed whole. The indent found is what the column of the first
scalar that is no space or tab is past the cursor's, kept or found anew. Advances in columns add
up. The rest of the line, added to a block, is the columns of the tab still to go as spaces, and
the bytes after it. -/
theorem virtual_columns {text : List Char} (hnul : ∀ c ∈ text, c ≠ '\x00') {s : At}
    (h : Reaches text s) :
    ∃ k used, k ≤ text.length ∧ s.offset = offsetOf text k ∧
      s.column = columnOf text k + used ∧ (s.partiallyConsumedTab = true ↔ 0 < used) ∧
      (0 < used → text[k]? = some '\t' ∧ s.column < columnOf text (k + 1)) ∧
      ((findFirstNonspace (encode text) s).firstNonspace = offsetOf text (nonspaceFrom text k) ∧
        (findFirstNonspace (encode text) s).indent =
          (columnOf text (nonspaceFrom text k) : ℤ) - s.column) ∧
      (∀ a b, advanceOffset (encode text) b true (advanceOffset (encode text) a true s) =
        advanceOffset (encode text) (a + b) true s) ∧
      ∀ content owns, (addLine (encode text) s content owns true).failed = false ∧
        (addLine (encode text) s content owns true).content =
          if 0 < used then
            content ++ List.replicate (columnOf text (k + 1) - s.column) 32 ++
              encode (text.drop (k + 1))
          else content ++ encode (text.drop k) := by
  obtain ⟨k, used, hstands, hkept⟩ := h.stands hnul
  refine ⟨k, used, hstands.le, hstands.offset_eq, hstands.column_eq, ?_, hstands.inside, ?_,
    fun a b => hstands.advance_add hnul a b, fun content owns => hstands.addLine content owns⟩
  · rw [hstands.flagged, decide_eq_true_eq]
  · rw [hstands.find hkept]
    exact ⟨rfl, rfl⟩

/-- Two columns of a tab consumed, before a letter. -/
theorem virtual_columns_tab :
    ∃ k used, k ≤ 2 ∧ (advanceOffset (encode ['\t', 'a']) 2 true At.lineStart).column =
      columnOf ['\t', 'a'] k + used := by
  obtain ⟨k, used, hle, -, hcolumn, -⟩ := @virtual_columns ['\t', 'a'] (by simp) _
    (Reaches.columns Reaches.start 2)
  exact ⟨k, used, hle, hcolumn⟩

end MarkdownCore.Text
