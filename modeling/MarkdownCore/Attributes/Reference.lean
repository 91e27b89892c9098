import MarkdownCore.Inline.Opaque

/-!
# Character references

A reference is read behind its `&`: a number with its `#`, or a name of the table. What is read
does not depend on what stands behind a byte that no reference holds.
-/

namespace MarkdownCore.Attributes

open Inline

/-- A letter or a digit. -/
def isalnum (c : UInt8) : Bool :=
  isdigit c || (0x41 ≤ c && c ≤ 0x5a) || (0x61 ≤ c && c ≤ 0x7a)

/-- `_isxdigit`. The NUL at the end of its string of digits is found too. -/
def isxdigit (c : UInt8) : Bool :=
  isdigit c || (0x41 ≤ c && c ≤ 0x46) || (0x61 ≤ c && c ≤ 0x66) || c = 0

/-- The table of the named references, `S_lookup_entity`. -/
structure EntityTable where
  lookup : List UInt8 → Option (List UInt8)
  names : ∀ name text, lookup name = some text → ∀ c ∈ name, isalnum c = true

/-- `markdown_core_utf8proc_encode_char`. -/
def encodeChar (uc : ℕ) : List UInt8 :=
  if 0x110000 ≤ uc then [0xef, 0xbf, 0xbd]
  else if uc < 0x80 then [UInt8.ofNat uc]
  else if uc < 0x800 then [UInt8.ofNat (0xc0 + uc / 64), UInt8.ofNat (0x80 + uc % 64)]
  else if uc < 0x10000 then
    [UInt8.ofNat (0xe0 + uc / 4096), UInt8.ofNat (0x80 + uc / 64 % 64),
      UInt8.ofNat (0x80 + uc % 64)]
  else
    [UInt8.ofNat (0xf0 + uc / 262144), UInt8.ofNat (0x80 + uc / 4096 % 64),
      UInt8.ofNat (0x80 + uc / 64 % 64), UInt8.ofNat (0x80 + uc % 64)]

/-- The code point of digits, held at the first that is none. -/
def codepoint (base : ℕ) (digit : UInt8 → ℕ) (digits : List UInt8) : ℕ :=
  digits.foldl (fun value c => min 0x110000 (value * base + digit c)) 0

/-- A number of so many digits at most, from `first` up to its `;`. -/
def readNumber (test : UInt8 → Bool) (base : ℕ) (digit : UInt8 → ℕ) (maxDigits first : ℕ)
    (src : List UInt8) : Option (ℕ × List UInt8) :=
  let count := width test src first
  let i := first + count
  if 1 ≤ count ∧ count ≤ maxDigits ∧ i < src.length ∧ byteAt src i = 0x3b then
    let value := codepoint base digit ((src.drop first).take count)
    let value :=
      if value = 0 ∨ (0xd800 ≤ value ∧ value < 0xe000) ∨ 0x110000 ≤ value then 0xfffd else value
    some (i + 1, encodeChar value)
  else none

/-- A name, up to the first space or `;` from its third byte on. -/
def readName (table : EntityTable) (src : List UInt8) : Option (ℕ × List UInt8) :=
  let src := src.take 32
  let i := 2 + width (fun c => c != 0x20 && c != 0x3b) src 2
  if i < src.length ∧ byteAt src i = 0x3b then
    (table.lookup (src.take i)).map fun text => (i + 1, text)
  else none

/-- `houdini_unescape_ent`: how many bytes are read, none for `0`, and what is written. -/
def unescapeEnt (table : EntityTable) (src : List UInt8) : Option (ℕ × List UInt8) :=
  if 3 ≤ src.length ∧ byteAt src 0 = 0x23 then
    if isdigit (byteAt src 1) then readNumber isdigit 10 (fun c => c.toNat - 0x30) 7 1 src
    else if byteAt src 1 = 0x78 ∨ byteAt src 1 = 0x58 then
      readNumber isxdigit 16 (fun c => (c ||| 32).toNat % 39 - 9) 6 2 src
    else none
  else readName table src

/-! ### What a reference holds -/

/-- A byte that a reference may hold. -/
def inReference (c : UInt8) : Bool := isalnum c || c = 0 || c = 0x23 || c = 0x3b

lemma isalnum_inReference {c : UInt8} (h : isalnum c = true) : inReference c = true := by
  simp [inReference, h]

lemma isdigit_inReference {c : UInt8} (h : isdigit c = true) : inReference c = true := by
  simp [inReference, isalnum, h]

lemma isxdigit_inReference {c : UInt8} (h : isxdigit c = true) : inReference c = true := by
  simp only [isxdigit, Bool.or_eq_true, Bool.and_eq_true, decide_eq_true_eq,
    UInt8.le_iff_toNat_le] at h
  simp only [inReference, isalnum, Bool.or_eq_true, Bool.and_eq_true, decide_eq_true_eq,
    UInt8.le_iff_toNat_le]
  simp only [UInt8.reduceToNat] at h ⊢
  rcases h with ((h | h) | h) | h
  · exact Or.inl (Or.inl (Or.inl (Or.inl (Or.inl h))))
  · exact Or.inl (Or.inl (Or.inl (Or.inl (Or.inr ⟨h.1, by omega⟩))))
  · exact Or.inl (Or.inl (Or.inl (Or.inr ⟨h.1, by omega⟩)))
  · exact Or.inl (Or.inl (Or.inr h))

section

variable {test : UInt8 → Bool} {base maxDigits first used : ℕ} {digit : UInt8 → ℕ}
  {src text l r : List UInt8} {c : UInt8} {table : EntityTable}

lemma readNumber_some (h : readNumber test base digit maxDigits first src = some (used, text)) :
    used ≤ src.length ∧ first < used ∧
      ∀ k, first ≤ k → k < used → test (byteAt src k) = true ∨ byteAt src k = 0x3b := by
  unfold readNumber at h
  dsimp only at h
  split at h
  · rename_i hc
    obtain ⟨rfl, _⟩ := Prod.mk.inj (Option.some.inj h)
    refine ⟨hc.2.2.1, by omega, ?_⟩
    intro k hle hlt
    rcases Nat.eq_or_lt_of_le (Nat.lt_succ_iff.mp hlt) with rfl | hin
    · exact Or.inr hc.2.2.2
    · exact Or.inl (width_byteAt test hle hin).2
  · cases h

lemma readName_some (h : readName table src = some (used, text)) :
    used ≤ src.length ∧ 0 < used ∧ ∀ k < used, isalnum (byteAt src k) = true ∨
      byteAt src k = 0x3b := by
  unfold readName at h
  dsimp only at h
  split at h
  · rename_i hc
    obtain ⟨name, hname, hpair⟩ := Option.map_eq_some_iff.mp h
    obtain ⟨rfl, _⟩ := Prod.mk.inj hpair
    have hlt : 2 + width (fun c => c != 0x20 && c != 0x3b) (src.take 32) 2 < min 32 src.length := by
      have hlength := hc.1
      rwa [List.length_take] at hlength
    refine ⟨by omega, Nat.succ_pos _, ?_⟩
    intro k hk
    rcases Nat.eq_or_lt_of_le (Nat.lt_succ_iff.mp hk) with rfl | hin
    · right
      have hbyte := hc.2
      rwa [byteAt_take (by omega)] at hbyte
    · left
      apply table.names _ _ hname
      rw [byteAt_eq_getElem (by omega), List.take_take, List.mem_iff_getElem]
      exact ⟨k, by rw [List.length_take]; omega, by simp⟩
  · cases h

/-- A reference is not empty, and holds only bytes of a reference. -/
lemma unescapeEnt_some (h : unescapeEnt table src = some (used, text)) :
    used ≤ src.length ∧ 0 < used ∧ ∀ k < used, inReference (byteAt src k) = true := by
  have hsemicolon : inReference 0x3b = true := by decide
  unfold unescapeEnt at h
  split at h
  · rename_i hnumber
    have hfirst : inReference (byteAt src 0) = true := by
      rw [hnumber.2]
      decide
    split at h
    · obtain ⟨hle, hlt, hin⟩ := readNumber_some h
      refine ⟨hle, Nat.zero_lt_of_lt hlt, fun k hk => ?_⟩
      rcases Nat.eq_zero_or_pos k with rfl | hpos
      · exact hfirst
      · rcases hin k hpos hk with hdigit | hend
        · exact isdigit_inReference hdigit
        · rw [hend]
          exact hsemicolon
    · split at h
      · rename_i hx
        obtain ⟨hle, hlt, hin⟩ := readNumber_some h
        refine ⟨hle, Nat.zero_lt_of_lt hlt, fun k hk => ?_⟩
        rcases Nat.lt_or_ge k 2 with hsmall | hbig
        · obtain rfl | rfl : k = 0 ∨ k = 1 := by omega
          · exact hfirst
          · rcases hx with h | h <;> rw [h] <;> decide
        · rcases hin k hbig hk with hdigit | hend
          · exact isxdigit_inReference hdigit
          · rw [hend]
            exact hsemicolon
      · cases h
  · obtain ⟨hle, hlt, hin⟩ := readName_some h
    refine ⟨hle, hlt, fun k hk => ?_⟩
    rcases hin k hk with halnum | hend
    · exact isalnum_inReference halnum
    · rw [hend]
      exact hsemicolon

/-! ### What stands behind a quote -/

lemma byteAt_append_length : byteAt (l ++ c :: r) l.length = c := by
  rw [byteAt, List.getD_eq_getElem?_getD, List.getElem?_append_right le_rfl, Nat.sub_self]
  rfl

/-- A loop that a byte stops does not see what is behind it. -/
lemma width_append (hc : test c = false) (hle : first ≤ l.length) :
    width test (l ++ c :: r) first = width test l first := by
  have hrun : ∀ k, first ≤ k → k < first + width test l first →
      test (byteAt (l ++ c :: r) k) = true := by
    intro k hk hlt
    obtain ⟨hin, hbyte⟩ := width_byteAt test hk hlt
    rwa [byteAt_append_left hin]
  have hwidth := width_le test l first
  have hlength : (l ++ c :: r).length = l.length + (r.length + 1) := by
    rw [List.length_append, List.length_cons]
  apply width_eq test hrun (by omega)
  rcases Nat.lt_or_ge (first + width test l first) l.length with hin | hout
  · rw [byteAt_append_left hin]
    exact width_stops_byteAt test hin
  · rw [show first + width test l first = l.length by omega, byteAt_append_length, hc]

lemma readNumber_append (hc : test c = false) (hne : c ≠ 0x3b) (hle : first ≤ l.length) :
    readNumber test base digit maxDigits first (l ++ c :: r) =
      readNumber test base digit maxDigits first l := by
  have hwidth := width_le test l first
  have hlength : (l ++ c :: r).length = l.length + (r.length + 1) := by
    rw [List.length_append, List.length_cons]
  unfold readNumber
  rw [width_append hc hle]
  dsimp only
  rcases Nat.lt_or_ge (first + width test l first) l.length with hin | hout
  · have hdrop : ((l ++ c :: r).drop first).take (width test l first) =
        (l.drop first).take (width test l first) := by
      rw [List.drop_append_of_le_length hle, List.take_append_of_le_length]
      rw [List.length_drop]
      omega
    rw [byteAt_append_left hin, hdrop, hlength]
    simp only [hin, Nat.lt_add_right _ hin]
  · have heq : first + width test l first = l.length := by omega
    rw [heq, byteAt_append_length, if_neg (fun h => hne h.2.2.2),
      if_neg (fun h => Nat.lt_irrefl _ h.2.2.1)]

/-- The scan for a name's end passes a byte that is none and that no name holds. -/
lemma readName_append (hc : isalnum c = false) (hsemi : c ≠ 0x3b) (hspace : c ≠ 0x20) :
    readName table (l ++ c :: r) = readName table l := by
  rcases Nat.lt_or_ge l.length 32 with hshort | hlong
  · have htake : (l ++ c :: r).take 32 = l ++ c :: r.take (31 - l.length) := by
      rw [List.take_append, List.take_of_length_le hshort.le,
        show 32 - l.length = (31 - l.length) + 1 by omega, List.take_succ_cons]
    unfold readName
    rw [htake, List.take_of_length_le hshort.le]
    dsimp only
    generalize r.take (31 - l.length) = r
    have hlength : (l ++ c :: r).length = l.length + (r.length + 1) := by
      rw [List.length_append, List.length_cons]
    generalize htest : (fun c : UInt8 => c != 0x20 && c != 0x3b) = test
    have hpass : test c = true := by simp [← htest, hspace, hsemi]
    have hstop : test 0x3b = false := by simp [← htest]
    rcases Nat.lt_or_ge (2 + width test l 2) l.length with hin | hout
    · -- The end is found before the byte.
      have hsame : width test (l ++ c :: r) 2 = width test l 2 := by
        apply width_eq test
        · intro k hk hlt
          obtain ⟨hlt', hbyte⟩ := width_byteAt test hk hlt
          rwa [byteAt_append_left hlt']
        · omega
        · rw [byteAt_append_left hin]
          exact width_stops_byteAt test hin
      rw [hsame, byteAt_append_left hin, List.take_append_of_le_length hin.le, hlength]
      simp only [hin, Nat.lt_add_right _ hin]
    · have hnone : ¬ (2 + width test l 2 < l.length ∧ byteAt l (2 + width test l 2) = 0x3b) :=
        fun h => Nat.not_lt.mpr hout h.1
      rw [if_neg hnone]
      split
      · rename_i hfound
        -- An end behind the byte makes a name that holds it.
        have hbehind : l.length < 2 + width test (l ++ c :: r) 2 := by
          by_contra hcon
          rcases Nat.eq_or_lt_of_le (Nat.not_lt.mp hcon) with heq | hlt
          · rw [heq, byteAt_append_length] at hfound
            exact hsemi hfound.2
          · have hsame : width test l 2 = width test (l ++ c :: r) 2 := by
              apply width_eq test
              · intro k hk hlt'
                have hbyte := (width_byteAt test hk hlt').2
                rwa [byteAt_append_left (by omega)] at hbyte
              · exact hlt
              · have hbyte := hfound.2
                rw [byteAt_append_left hlt] at hbyte
                rw [hbyte]
                exact hstop
            omega
        cases hlookup : table.lookup ((l ++ c :: r).take (2 + width test (l ++ c :: r) 2)) with
        | none => rfl
        | some text =>
          have hmem : c ∈ (l ++ c :: r).take (2 + width test (l ++ c :: r) 2) := by
            rw [List.mem_take_iff_getElem]
            exact ⟨l.length, by rw [hlength]; omega, by simp⟩
          rw [table.names _ _ hlookup c hmem] at hc
          cases hc
      · rfl
  · unfold readName
    rw [List.take_append_of_le_length hlong]

/-- A reference is read without what stands behind a quote. -/
lemma unescapeEnt_append (hc : c = 0x22 ∨ c = 0x27) :
    unescapeEnt table (l ++ c :: r) = unescapeEnt table l := by
  have hname : readName table (l ++ c :: r) = readName table l := by
    rcases hc with rfl | rfl <;> exact readName_append (by decide) (by decide) (by decide)
  have hdigit : isdigit c = false := by rcases hc with rfl | rfl <;> decide
  have hxdigit : isxdigit c = false := by rcases hc with rfl | rfl <;> decide
  have hne : c ≠ 0x3b ∧ c ≠ 0x23 ∧ c ≠ 0x78 ∧ c ≠ 0x58 := by
    rcases hc with rfl | rfl <;> decide
  rcases Nat.lt_or_ge l.length 3 with hshort | hlong
  · -- Too short for a number: what follows cannot make it one.
    have hright : unescapeEnt table l = readName table l := by
      rw [unescapeEnt, if_neg (fun h => Nat.not_le.mpr hshort h.1)]
    rw [hright]
    unfold unescapeEnt
    split
    · rename_i hnumber
      have hnone : ∀ {test base digit maxDigits first}, test c = false → 0 < first →
          first ≤ l.length →
          readNumber test base digit maxDigits first (l ++ c :: r) = none := by
        intro test base digit maxDigits first htest hpos hle
        rw [readNumber_append htest hne.1 hle, readNumber]
        dsimp only
        rw [if_neg]
        rintro ⟨hcount, _, hlt, _⟩
        omega
      have hshortName : readName table l = none := by
        unfold readName
        dsimp only
        rw [if_neg]
        rintro ⟨hlt, _⟩
        rw [List.length_take] at hlt
        omega
      rw [hshortName]
      cases l with
      | nil => exact absurd hnumber.2 hne.2.1
      | cons a l =>
        cases l with
        | nil =>
          have hsecond : byteAt ([a] ++ c :: r) 1 = c := rfl
          rw [hsecond, hdigit, if_neg Bool.false_ne_true, if_neg (not_or.mpr hne.2.2)]
        | cons b l =>
          have htwo : 2 ≤ (a :: b :: l).length := by simp
          split
          · exact hnone hdigit Nat.one_pos (by omega)
          · split
            · exact hnone hxdigit Nat.two_pos htwo
            · rfl
    · exact hname
  · have hlength : 3 ≤ (l ++ c :: r).length := by
      rw [List.length_append]
      omega
    unfold unescapeEnt
    rw [byteAt_append_left (by omega), byteAt_append_left (by omega),
      readNumber_append hdigit hne.1 (by omega), readNumber_append hxdigit hne.1 (by omega), hname]
    simp only [hlength, hlong]

end

end MarkdownCore.Attributes
