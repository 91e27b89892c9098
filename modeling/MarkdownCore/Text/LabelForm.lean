import MarkdownCore.Text.LabelText

/-!
# Labels of UTF-8

The characters of a text in UTF-8 are its scalars. The images of a fold table are texts too, of
scalars that are folded already, so that a normal form is its own normal form.
-/

namespace MarkdownCore.Text

open Inline (isWhitespace byteAt)
open Autolink (decode)
open Squeeze

/-! ### Scalars -/

/-- Bits below a shift do not meet what is shifted. -/
lemma shiftLeft_xor {a b k : ℕ} (hb : b < 2 ^ k) : a <<< k ^^^ b = a * 2 ^ k + b := by
  have hor : a <<< k ^^^ b = a <<< k ||| b := by
    apply Nat.eq_of_testBit_eq
    intro i
    rw [Nat.testBit_xor, Nat.testBit_or, Nat.testBit_shiftLeft]
    by_cases hi : i < k
    · simp [show ¬ i ≥ k by omega]
    · have hzero : b.testBit i = false :=
        Nat.testBit_lt_two_pow (hb.trans_le (Nat.pow_le_pow_right (by decide) (by omega)))
      simp [hzero]
  rw [hor, ← Nat.shiftLeft_add_eq_or_of_lt hb, Nat.shiftLeft_eq]

lemma tail_xor : ∀ r : Fin 64, (r.val + 0x80) ^^^ 0x80 = r.val := by decide

lemma lead_xor : (∀ q : Fin 32, (q.val + 0xc0) ^^^ 0xc0 = q.val) ∧
    (∀ q : Fin 16, (q.val + 0xe0) ^^^ 0xe0 = q.val) ∧
    ∀ q : Fin 8, (q.val + 0xf0) ^^^ 0xf0 = q.val := by
  decide

lemma shift_tag {x tag v k : ℕ} (h : x ^^^ tag = v) : x <<< k ^^^ tag <<< k = v <<< k := by
  rw [← Nat.shiftLeft_xor_distrib, h]

lemma two_bytes {q r : ℕ} (hq : q < 32) (hr : r < 64) :
    (q + 0xc0) <<< 6 ^^^ (r + 0x80) ^^^ 0x3080 = q * 64 + r := by
  have htag : 0x3080 = 0xc0 <<< 6 ^^^ 0x80 := by decide
  calc (q + 0xc0) <<< 6 ^^^ (r + 0x80) ^^^ 0x3080
      = ((q + 0xc0) <<< 6 ^^^ 0xc0 <<< 6) ^^^ ((r + 0x80) ^^^ 0x80) := by rw [htag]; ac_rfl
    _ = q <<< 6 ^^^ r := by rw [shift_tag (lead_xor.1 ⟨q, hq⟩), tail_xor ⟨r, hr⟩]
    _ = q * 64 + r := shiftLeft_xor hr

lemma xor_pair (a b a' b' : ℕ) : a ^^^ b ^^^ (a' ^^^ b') = (a ^^^ a') ^^^ (b ^^^ b') := by
  ac_rfl

lemma xor_regroup (a b c a' b' c' : ℕ) :
    a ^^^ b ^^^ c ^^^ (a' ^^^ b' ^^^ c') = (a ^^^ a') ^^^ ((b ^^^ b') ^^^ (c ^^^ c')) := by
  ac_rfl

lemma three_bytes {q s r : ℕ} (hq : q < 16) (hs : s < 64) (hr : r < 64) :
    (q + 0xe0) <<< 12 ^^^ (s + 0x80) <<< 6 ^^^ (r + 0x80) ^^^ 0xe2080 =
      q * 4096 + (s * 64 + r) := by
  have htag : 0xe2080 = 0xe0 <<< 12 ^^^ 0x80 <<< 6 ^^^ 0x80 := by decide
  calc (q + 0xe0) <<< 12 ^^^ (s + 0x80) <<< 6 ^^^ (r + 0x80) ^^^ 0xe2080
      = ((q + 0xe0) <<< 12 ^^^ 0xe0 <<< 12) ^^^
          (((s + 0x80) <<< 6 ^^^ 0x80 <<< 6) ^^^ ((r + 0x80) ^^^ 0x80)) := by
        rw [htag, xor_regroup]
    _ = q <<< 12 ^^^ (s <<< 6 ^^^ r) := by
        rw [shift_tag (lead_xor.2.1 ⟨q, hq⟩), shift_tag (tail_xor ⟨s, hs⟩), tail_xor ⟨r, hr⟩]
    _ = q * 4096 + (s * 64 + r) := by
        rw [shiftLeft_xor (show r < 2 ^ 6 from hr), shiftLeft_xor (by omega)]
        rfl

lemma four_bytes {q t s r : ℕ} (hq : q < 8) (ht : t < 64) (hs : s < 64) (hr : r < 64) :
    (q + 0xf0) <<< 18 ^^^ (t + 0x80) <<< 12 ^^^ (s + 0x80) <<< 6 ^^^ (r + 0x80) ^^^ 0x3c82080 =
      q * 262144 + (t * 4096 + (s * 64 + r)) := by
  have htag : 0x3c82080 = 0xf0 <<< 18 ^^^ 0x80 <<< 12 ^^^ 0x80 <<< 6 ^^^ 0x80 := by decide
  calc (q + 0xf0) <<< 18 ^^^ (t + 0x80) <<< 12 ^^^ (s + 0x80) <<< 6 ^^^ (r + 0x80) ^^^ 0x3c82080
      = ((q + 0xf0) <<< 18 ^^^ 0xf0 <<< 18) ^^^ (((t + 0x80) <<< 12 ^^^ 0x80 <<< 12) ^^^
          (((s + 0x80) <<< 6 ^^^ 0x80 <<< 6) ^^^ ((r + 0x80) ^^^ 0x80))) := by
        rw [htag, xor_regroup, xor_pair ((q + 0xf0) <<< 18), Nat.xor_assoc]
    _ = q <<< 18 ^^^ (t <<< 12 ^^^ (s <<< 6 ^^^ r)) := by
        rw [shift_tag (lead_xor.2.2 ⟨q, hq⟩), shift_tag (tail_xor ⟨t, ht⟩),
          shift_tag (tail_xor ⟨s, hs⟩), tail_xor ⟨r, hr⟩]
    _ = q * 262144 + (t * 4096 + (s * 64 + r)) := by
        rw [shiftLeft_xor (show r < 2 ^ 6 from hr),
          shiftLeft_xor (show s * 2 ^ 6 + r < 2 ^ 12 by omega),
          shiftLeft_xor (show t * 2 ^ 12 + (s * 2 ^ 6 + r) < 2 ^ 18 by omega)]
        rfl

/-- The scalar of a character's bytes is the character's. -/
lemma decode_encode (c : Char) (rest : List UInt8) :
    decode (String.utf8EncodeChar c ++ rest) 0 =
      ((String.utf8EncodeChar c).length, c.val.toNat) := by
  have hval := val_lt c
  by_cases h₁ : c.val.toNat ≤ 0x7f
  · have hbytes : String.utf8EncodeChar c = [UInt8.ofNat c.val.toNat] := by
      simp only [String.utf8EncodeChar, if_pos h₁]
    rw [hbytes, decode]
    simp only [byteAt, List.singleton_append, List.getD_cons_zero, List.length_singleton,
      toNat_of_lt (show c.val.toNat < 256 by omega)]
    rw [if_pos (by omega)]
  by_cases h₂ : c.val.toNat ≤ 0x7ff
  · have hbytes : String.utf8EncodeChar c = [UInt8.ofNat (c.val.toNat / 64 % 0x20 + 0xc0),
        UInt8.ofNat (c.val.toNat % 0x40 + 0x80)] := by
      simp only [String.utf8EncodeChar, if_neg h₁, if_pos h₂]
    rw [hbytes, decode]
    simp only [byteAt, List.cons_append, List.nil_append, List.getD_cons_zero,
      List.getD_cons_succ, Nat.zero_add, List.length_cons, List.length_nil,
      toNat_of_lt (show c.val.toNat / 64 % 0x20 + 0xc0 < 256 by omega),
      toNat_of_lt (show c.val.toNat % 0x40 + 0x80 < 256 by omega)]
    rw [if_neg (by omega), if_neg (by omega), if_pos (by omega), if_pos (by omega),
      two_bytes (by omega) (by omega)]
    exact Prod.ext rfl (show _ = _ by omega)
  by_cases h₃ : c.val.toNat ≤ 0xffff
  · have hbytes : String.utf8EncodeChar c = [UInt8.ofNat (c.val.toNat / 4096 % 0x10 + 0xe0),
        UInt8.ofNat (c.val.toNat / 64 % 0x40 + 0x80),
        UInt8.ofNat (c.val.toNat % 0x40 + 0x80)] := by
      simp only [String.utf8EncodeChar, if_neg h₁, if_neg h₂, if_pos h₃]
    rw [hbytes, decode]
    simp only [byteAt, List.cons_append, List.nil_append, List.getD_cons_zero,
      List.getD_cons_succ, Nat.zero_add, List.length_cons, List.length_nil,
      toNat_of_lt (show c.val.toNat / 4096 % 0x10 + 0xe0 < 256 by omega),
      toNat_of_lt (show c.val.toNat / 64 % 0x40 + 0x80 < 256 by omega),
      toNat_of_lt (show c.val.toNat % 0x40 + 0x80 < 256 by omega)]
    rw [if_neg (by omega), if_neg (by omega), if_neg (by omega), if_pos (by omega),
      if_pos (by omega), three_bytes (by omega) (by omega) (by omega)]
    exact Prod.ext rfl (show _ = _ by omega)
  · have hbytes : String.utf8EncodeChar c = [UInt8.ofNat (c.val.toNat / 262144 % 0x8 + 0xf0),
        UInt8.ofNat (c.val.toNat / 4096 % 0x40 + 0x80),
        UInt8.ofNat (c.val.toNat / 64 % 0x40 + 0x80),
        UInt8.ofNat (c.val.toNat % 0x40 + 0x80)] := by
      simp only [String.utf8EncodeChar, if_neg h₁, if_neg h₂, if_neg h₃]
    rw [hbytes, decode]
    simp only [byteAt, List.cons_append, List.nil_append, List.getD_cons_zero,
      List.getD_cons_succ, Nat.zero_add, List.length_cons, List.length_nil,
      toNat_of_lt (show c.val.toNat / 262144 % 0x8 + 0xf0 < 256 by omega),
      toNat_of_lt (show c.val.toNat / 4096 % 0x40 + 0x80 < 256 by omega),
      toNat_of_lt (show c.val.toNat / 64 % 0x40 + 0x80 < 256 by omega),
      toNat_of_lt (show c.val.toNat % 0x40 + 0x80 < 256 by omega)]
    rw [if_neg (by omega), if_neg (by omega), if_neg (by omega), if_neg (by omega),
      if_pos (by omega), four_bytes (by omega) (by omega) (by omega) (by omega)]
    exact Prod.ext rfl (show _ = _ by omega)

/-! ### Characters of a text -/

/-- A scalar as a walk over its text meets it. -/
def toCharacter (c : Char) : Character := ⟨String.utf8EncodeChar c, c.val.toNat⟩

/-- A space, a tab or a line ending. -/
def isSpaceChar (c : Char) : Bool := c = ' ' || c = '\t' || c = '\n' || c = '\r'

/-- A scalar in lower case, where it is an ASCII letter. -/
def lowerChar (c : Char) : Char :=
  if 65 ≤ c.toNat ∧ c.toNat ≤ 90 then Char.ofNat (c.toNat + 32) else c

lemma length_encodeChar_wide {c : Char} (h : 128 ≤ c.val.toNat) :
    1 < (String.utf8EncodeChar c).length := by
  have hascii : ¬ c.val.toNat ≤ 0x7f := by omega
  simp only [String.utf8EncodeChar, if_neg hascii]
  split_ifs <;> simp

lemma encodeChar_ascii {c : Char} (h : c.val.toNat < 128) :
    String.utf8EncodeChar c = [UInt8.ofNat c.val.toNat] := by
  obtain ⟨head, tail, henc⟩ := exists_encoding c
  obtain ⟨rfl, rfl⟩ := henc.ascii h
  exact henc.bytes

/-- The characters of a text in UTF-8 are its scalars. -/
lemma characters_encode (text : List Char) :
    ∀ fuel, (encode text).length ≤ fuel →
      characters fuel (encode text) = text.map toCharacter := by
  induction text with
  | nil => intro fuel _; cases fuel <;> rfl
  | cons c text ih =>
    intro fuel hfuel
    have hpos := length_encodeChar_pos c
    rw [encode_cons, List.length_append] at hfuel
    obtain ⟨fuel, rfl⟩ : ∃ f, fuel = f + 1 := ⟨fuel - 1, by omega⟩
    have hdecode := decode_encode c (encode text)
    rw [encode_cons]
    cases hbytes : String.utf8EncodeChar c ++ encode text with
    | nil =>
      have hlength := congrArg List.length hbytes
      rw [List.length_append, List.length_nil] at hlength
      omega
    | cons head tail =>
      rw [hbytes] at hdecode
      rw [characters_cons, firstCharacter, hdecode, ← hbytes]
      dsimp only
      rw [List.take_left, List.drop_left, ih fuel (by omega)]
      rfl

/-- The ASCII scalars, one by one. -/
lemma ascii_facts : ∀ n : Fin 128,
    isWhitespace (UInt8.ofNat n) = isSpaceChar (Char.ofNat n) ∧
      [lowered (UInt8.ofNat n)] = String.utf8EncodeChar (lowerChar (Char.ofNat n)) ∧
      (lowerChar (Char.ofNat n)).val.toNat < 128 ∧
      lowerChar (lowerChar (Char.ofNat n)) = lowerChar (Char.ofNat n) ∧
      isSpaceChar (lowerChar (Char.ofNat n)) = isSpaceChar (Char.ofNat n) ∧
      (isSpaceChar (Char.ofNat n) = true → lowerChar (Char.ofNat n) = Char.ofNat n) := by
  decide +kernel

lemma ascii_char {c : Char} (h : c.val.toNat < 128) :
    isWhitespace (UInt8.ofNat c.val.toNat) = isSpaceChar c ∧
      [lowered (UInt8.ofNat c.val.toNat)] = String.utf8EncodeChar (lowerChar c) ∧
      (lowerChar c).val.toNat < 128 ∧ lowerChar (lowerChar c) = lowerChar c ∧
      isSpaceChar (lowerChar c) = isSpaceChar c ∧
      (isSpaceChar c = true → lowerChar c = c) := by
  have hfacts := ascii_facts ⟨c.val.toNat, h⟩
  have hc : Char.ofNat c.val.toNat = c := Char.ofNat_toNat c
  simpa only [hc] using hfacts

lemma isSpaceChar_wide {c : Char} (h : 128 ≤ c.val.toNat) : isSpaceChar c = false := by
  rw [← Bool.not_eq_true]
  intro hspace
  simp only [isSpaceChar, Bool.or_eq_true, decide_eq_true_eq] at hspace
  rcases hspace with ((rfl | rfl) | rfl) | rfl <;> exact absurd h (by decide)

lemma lowerChar_wide {c : Char} (h : 128 ≤ c.val.toNat) : lowerChar c = c := by
  have hnot : ¬ (65 ≤ c.toNat ∧ c.toNat ≤ 90) := by
    have : c.toNat = c.val.toNat := rfl
    omega
  rw [lowerChar, if_neg hnot]

lemma isSpace_toCharacter (c : Char) : (toCharacter c).isSpace = isSpaceChar c := by
  by_cases h : c.val.toNat < 128
  · rw [Character.isSpace, toCharacter, encodeChar_ascii h]
    exact (ascii_char h).1
  · have hmany := @length_encodeChar_wide c (by omega)
    rw [isSpaceChar_wide (by omega)]
    unfold Character.isSpace
    split
    next b hbytes =>
      have hone : (String.utf8EncodeChar c).length = 1 := congrArg List.length hbytes
      omega
    next => rfl

/-! ### Folding a text -/

/-- A scalar folded. -/
def foldChar (image : ℕ → Option (List Char)) (c : Char) : List Char :=
  if c.val.toNat < 128 then [lowerChar c]
  else (if c.val.toNat < cfMax then image c.val.toNat else none).getD [c]

/-- A fold table: its images are one to six bytes of UTF-8, without whitespace, of scalars that
fold to themselves. -/
structure FoldTable where
  image : ℕ → Option (List Char)
  nonempty : ∀ c text, image c = some text → text ≠ []
  short : ∀ c text, image c = some text → (encode text).length ≤ 6
  plain : ∀ c text, image c = some text → ∀ d ∈ text, isSpaceChar d = false
  folded : ∀ c text, image c = some text → ∀ d ∈ text, foldChar image d = [d]

/-- The table as its entries are stored. -/
def FoldTable.fold (table : FoldTable) (c : ℕ) : Option (List UInt8) :=
  (table.image c).map encode

/-- A projection's table: no image is longer than half as much again as its scalar's encoding. -/
structure AnchorTable where
  project : ℕ → ℕ
  narrow : NarrowImages project

lemma isWhitespace_wide {b : UInt8} (h : 128 ≤ b.toNat) : isWhitespace b = false := by
  rw [← Bool.not_eq_true]
  intro hspace
  simp only [isWhitespace, Bool.or_eq_true, decide_eq_true_eq] at hspace
  rcases hspace with ((rfl | rfl) | rfl) | rfl <;> exact absurd h (by decide)

lemma continues_wide : ∀ b : UInt8, continues b = true → 128 ≤ b.toNat := by
  have hall : ∀ n : Fin 256, continues (UInt8.ofNat n) = true → 128 ≤ (UInt8.ofNat n).toNat := by
    decide +kernel
  intro b
  have hb := hall ⟨b.toNat, b.toNat_lt⟩
  rwa [UInt8.ofNat_toNat] at hb

/-- The bytes of a scalar are whitespace where it is. -/
lemma plain_encodeChar {c : Char} (h : isSpaceChar c = false) :
    ∀ b ∈ String.utf8EncodeChar c, isWhitespace b = false := by
  intro b hb
  by_cases hascii : c.val.toNat < 128
  · rw [encodeChar_ascii hascii, List.mem_singleton] at hb
    rw [hb, (ascii_char hascii).1, h]
  · obtain ⟨head, tail, henc⟩ := exists_encoding c
    rw [henc.bytes] at hb
    rcases List.mem_cons.mp hb with rfl | hb
    · exact isWhitespace_wide (by have := henc.wide (by omega); omega)
    · exact isWhitespace_wide (continues_wide b (henc.tail_continues b hb))

lemma encode_ne_nil {text : List Char} (h : text ≠ []) : encode text ≠ [] := by
  cases text with
  | nil => exact absurd rfl h
  | cons c text =>
    have hpos := length_encodeChar_pos c
    rw [encode_cons]
    intro hnil
    have hlength := congrArg List.length hnil
    rw [List.length_append, List.length_nil] at hlength
    omega

namespace FoldTable
variable (table : FoldTable)

lemma plainFolds : PlainFolds table.fold := by
  refine ⟨?_, ?_, ?_⟩
  all_goals
    intro c image hfold
    obtain ⟨text, htext, rfl⟩ := Option.map_eq_some_iff.mp hfold
  · exact encode_ne_nil (table.nonempty c text htext)
  · exact table.short c text htext
  · intro b hb
    obtain ⟨d, hd, hbd⟩ := List.mem_flatMap.mp hb
    exact plain_encodeChar (table.plain c text htext d hd) b hbd

/-- A character folds to the encoding of its scalar folded. -/
lemma folded_toCharacter (c : Char) :
    (toCharacter c).folded table.fold = encode (foldChar table.image c) := by
  by_cases h : c.val.toNat < 128
  · rw [Character.folded, toCharacter, encodeChar_ascii h, foldChar, if_pos h]
    dsimp only
    rw [(ascii_char h).2.1]
    exact (List.append_nil _).symm
  · have hmany : ∀ b, (toCharacter c).bytes ≠ [b] := by
      intro b hbytes
      have hlength := @length_encodeChar_wide c (by omega)
      have hone : (String.utf8EncodeChar c).length = 1 := congrArg List.length hbytes
      omega
    rw [folded_of_many hmany, foldChar, if_neg h]
    change (if c.val.toNat < cfMax then table.fold c.val.toNat else none).getD
      (String.utf8EncodeChar c) = _
    split
    next =>
      rw [fold]
      cases table.image c.val.toNat with
      | none => exact (List.append_nil _).symm
      | some text => rfl
    next => exact (List.append_nil _).symm

/-- What a scalar folds to is folded, and whitespace where the scalar is. -/
lemma foldChar_spec (c : Char) :
    (∀ d ∈ foldChar table.image c, foldChar table.image d = [d]) ∧
      (isSpaceChar c = true → foldChar table.image c = [c]) ∧
      (isSpaceChar c = false → foldChar table.image c ≠ [] ∧
        ∀ d ∈ foldChar table.image c, isSpaceChar d = false) := by
  by_cases h : c.val.toNat < 128
  · obtain ⟨-, -, hlow, htwice, hsame, hspace⟩ := ascii_char h
    have hfold : foldChar table.image c = [lowerChar c] := if_pos h
    rw [hfold]
    refine ⟨fun d hd => ?_, fun hc => by rw [hspace hc], fun hc => ⟨by simp, fun d hd => ?_⟩⟩
    · rw [List.mem_singleton.mp hd, foldChar, if_pos hlow, htwice]
    · rw [List.mem_singleton.mp hd, hsame, hc]
  · have hwide := @isSpaceChar_wide c (by omega)
    have hfold : foldChar table.image c =
        (if c.val.toNat < cfMax then table.image c.val.toNat else none).getD [c] := if_neg h
    cases hentry : (if c.val.toNat < cfMax then table.image c.val.toNat else none) with
    | none =>
      rw [hentry, Option.getD_none] at hfold
      rw [hfold]
      refine ⟨fun d hd => ?_, fun hc => rfl, fun hc => ⟨by simp, fun d hd => ?_⟩⟩
      · rw [List.mem_singleton.mp hd, hfold]
      · rw [List.mem_singleton.mp hd, hc]
    | some text =>
      have himage : table.image c.val.toNat = some text := by
        split at hentry
        next => exact hentry
        next => cases hentry
      rw [hentry, Option.getD_some] at hfold
      rw [hfold]
      refine ⟨table.folded _ text himage, fun hc => ?_,
        fun _ => ⟨table.nonempty _ text himage, table.plain _ text himage⟩⟩
      rw [hwide] at hc
      cases hc

lemma keeps_foldChar : Keeps isSpaceChar ' ' isSpaceChar ' ' (foldChar table.image) := by
  refine ⟨fun c hc => ⟨c, (table.foldChar_spec c).2.1 hc, hc⟩,
    fun c hc => (table.foldChar_spec c).2.2 hc, ?_⟩
  exact (table.foldChar_spec ' ').2.1 (by decide)

/-- The normal form of a text, on its scalars. -/
def formText (text : List Char) : List Char :=
  Squeeze.pass isSpaceChar ' ' false false (text.flatMap (foldChar table.image))

lemma keeps_toCharacter :
    Keeps isSpaceChar ' ' Character.isSpace Character.blank fun c => [toCharacter c] := by
  refine ⟨fun c hc => ⟨_, rfl, by rw [isSpace_toCharacter, hc]⟩, fun c hc => ⟨by simp, ?_⟩, ?_⟩
  · simp only [List.mem_singleton, forall_eq]
    rw [isSpace_toCharacter, hc]
  · have hspace : String.utf8EncodeChar ' ' = [0x20] := encodeChar_ascii (by decide)
    rw [toCharacter, hspace]
    rfl

/-- The normal form of a text in UTF-8 is the encoding of the one on its scalars. -/
lemma normalForm_encode (text : List Char) :
    normalForm table.fold (encode text) = encode (table.formText text) := by
  have hpass := keeps_toCharacter.pass_flatMap text false false
  have hencode : ∀ l : List Char, (l.map toCharacter).flatMap (Character.folded table.fold) =
      encode (l.flatMap (foldChar table.image)) := by
    intro l
    induction l with
    | nil => rfl
    | cons c l ih =>
      rw [List.map_cons, List.flatMap_cons, ih, table.folded_toCharacter, List.flatMap_cons,
        encode_append]
  rw [← List.map_eq_flatMap, ← List.map_eq_flatMap] at hpass
  rw [normalForm, ← labelRest_eq table.plainFolds, labelRest, characters_encode text _ le_rfl,
    hpass, hencode, formText, table.keeps_foldChar.pass_flatMap]

/-- A normal form is its own. -/
lemma formText_formText (text : List Char) :
    table.formText (table.formText text) = table.formText text := by
  have hfolded : ∀ d ∈ table.formText text, foldChar table.image d = [d] := by
    intro d hd
    rcases mem_pass hd with hmem | rfl
    · obtain ⟨c, -, hc⟩ := List.mem_flatMap.mp hmem
      exact (table.foldChar_spec c).1 d hc
    · exact (table.foldChar_spec ' ').2.1 (by decide)
  have hself : ∀ l : List Char, (∀ d ∈ l, foldChar table.image d = [d]) →
      l.flatMap (foldChar table.image) = l := by
    intro l hl
    induction l with
    | nil => rfl
    | cons c l ih =>
      obtain ⟨hc, hl⟩ := List.forall_mem_cons.mp hl
      rw [List.flatMap_cons, hc, ih hl, List.singleton_append]
  rw [formText, hself _ hfolded, formText, pass_idempotent (by decide)]

lemma foldChar_lowerChar (c : Char) :
    foldChar table.image (lowerChar c) = foldChar table.image c := by
  by_cases h : c.val.toNat < 128
  · obtain ⟨-, -, hlow, htwice, -⟩ := ascii_char h
    rw [foldChar, if_pos hlow, htwice, foldChar, if_pos h]
  · rw [lowerChar_wide (by omega)]

/-- The case of ASCII letters makes no difference. -/
lemma formText_lower (text : List Char) :
    table.formText (text.map lowerChar) = table.formText text := by
  rw [formText, formText, List.flatMap_map]
  congr 1
  exact List.flatMap_congr fun c _ => table.foldChar_lowerChar c

lemma flatMap_spaces {spaces : List Char} (h : ∀ c ∈ spaces, isSpaceChar c = true) :
    spaces.flatMap (foldChar table.image) = spaces := by
  induction spaces with
  | nil => rfl
  | cons c spaces ih =>
    obtain ⟨hc, hspaces⟩ := List.forall_mem_cons.mp h
    rw [List.flatMap_cons, (table.foldChar_spec c).2.1 hc, ih hspaces, List.singleton_append]

/-- Neither whitespace at the ends nor which whitespace separates makes a difference. -/
lemma formText_spaces {spaces spaces' : List Char} (h : ∀ c ∈ spaces, isSpaceChar c = true)
    (h' : ∀ c ∈ spaces', isSpaceChar c = true) (text rest : List Char) :
    table.formText (spaces ++ text) = table.formText text ∧
      table.formText (text ++ spaces) = table.formText text ∧
      (spaces ≠ [] → spaces' ≠ [] → table.formText (text ++ (spaces ++ rest)) =
        table.formText (text ++ (spaces' ++ rest))) := by
  simp only [formText, List.flatMap_append, table.flatMap_spaces h, table.flatMap_spaces h']
  exact ⟨pass_spaces_front h _, pass_spaces_back h _ _ _,
    fun hne hne' => pass_spaces_congr h h' hne hne' _ _ _ _⟩

end FoldTable

/-! ### The normal form -/

lemma Ends.oom_iff {granted : ℕ → Bool} {before image : List UInt8} {buf : Strbuf}
    (h : Ends granted before image buf) (hall : ∀ n, granted n = true) :
    buf.oom = true ↔ strbufLimit < before.length + image.length := by
  rcases h with ⟨hfresh, -, hle⟩ | ⟨hoom, -, hlimit⟩
  · rw [hfresh]
    simp only [Bool.false_eq_true, false_iff]
    omega
  · exact iff_of_true hoom (hlimit hall)

/-- Both projections append their image to any content, never writing past the room, or poison
the buffer, where storage is granted exactly when the image would pass the limit; each bound asked
for holds what is left to write. A label's image is its normal form, one pass for folding,
trimming and collapsing. On UTF-8 the normal form is its own normal form, and neither ASCII case
nor the amount and kind of whitespace makes a difference. -/
theorem label_normal_form (table : FoldTable) (anchors : AnchorTable) :
    (∀ (granted : ℕ → Bool) (dest : Strbuf) (str : List UInt8), dest.Good →
      ∃ buf, normalizeLabel table.fold granted dest str = .ok buf ∧
        Ends granted dest.content (normalForm table.fold str) buf ∧
        ((∀ n, granted n = true) → (buf.oom = true ↔
          strbufLimit < dest.content.length + (normalForm table.fold str).length))) ∧
    (∀ (granted : ℕ → Bool) (dest : Strbuf) (str : List UInt8), dest.Good →
      ∃ buf, anchor anchors.project granted dest str = .ok buf ∧
        Ends granted dest.content (anchorImage anchors.project str) buf ∧
        ((∀ n, granted n = true) → (buf.oom = true ↔
          strbufLimit < dest.content.length + (anchorImage anchors.project str).length))) ∧
    (∀ (str : List UInt8), (normalForm table.fold str).length ≤ 3 * str.length ∧
      (anchorImage anchors.project str).length ≤ 2 * str.length) ∧
    (∀ (head : UInt8) (tail : List UInt8) (fuel : ℕ) (started space : Bool),
      ((firstCharacter (head :: tail)).isSpace = false →
        (labelRest table.fold started space (fuel + 1) (head :: tail)).length ≤
          labelBound table.fold space (head :: tail)) ∧
      ((characters (fuel + 1) (head :: tail)).flatMap
          (Character.projected anchors.project)).length ≤
        scalarWidth (anchorScalar anchors.project (decode (head :: tail) 0).2) +
          2 * ((head :: tail).drop (decode (head :: tail) 0).1).length) ∧
    (∀ (text : List Char), ∃ form, normalForm table.fold (encode text) = encode form ∧
      normalForm table.fold (encode form) = encode form) ∧
    (∀ (text text' : List Char), text.map lowerChar = text'.map lowerChar →
      normalForm table.fold (encode text) = normalForm table.fold (encode text')) ∧
    ∀ (spaces spaces' text rest : List Char), (∀ c ∈ spaces, isSpaceChar c = true) →
      (∀ c ∈ spaces', isSpaceChar c = true) →
      normalForm table.fold (encode (spaces ++ text)) = normalForm table.fold (encode text) ∧
        normalForm table.fold (encode (text ++ spaces)) = normalForm table.fold (encode text) ∧
        (spaces ≠ [] → spaces' ≠ [] →
          normalForm table.fold (encode (text ++ (spaces ++ rest))) =
            normalForm table.fold (encode (text ++ (spaces' ++ rest)))) := by
  refine ⟨?_, ?_, ?_, ?_, ?_, ?_, ?_⟩
  · intro granted dest str hdest
    obtain ⟨buf, hloop, hends⟩ := @normalizeFrom_ends table.fold granted table.plainFolds
      dest.content.length str.length str _ false le_rfl hdest.cursor le_rfl
    have hunstarted : decide (dest.content.length > dest.content.length) = false := by simp
    simp only [hunstarted] at hends
    rw [labelRest_eq table.plainFolds] at hends
    exact ⟨buf, hloop, hends, Ends.oom_iff hends⟩
  · intro granted dest str hdest
    obtain ⟨buf, hloop, hends⟩ := @anchorFrom_ends anchors.project granted str.length str _
      le_rfl hdest.cursor
    exact ⟨buf, hloop, hends, Ends.oom_iff hends⟩
  · intro str
    refine ⟨?_, length_projected_le anchors.narrow _ str⟩
    have hle := length_labelRest_le table.plainFolds str.length str false false
    rw [labelRest_eq table.plainFolds, Bool.toNat_false, Nat.zero_add] at hle
    exact hle
  · intro head tail fuel started space
    refine ⟨fun hword => length_labelRest_le_bound table.plainFolds hword, ?_⟩
    have hrest := length_projected_le anchors.narrow fuel
      ((head :: tail).drop (decode (head :: tail) 0).1)
    rw [characters_cons, List.flatMap_cons, List.length_append]
    refine Nat.add_le_add ?_ hrest
    rw [Character.projected]
    split
    next => exact Nat.zero_le _
    next => exact (length_encodeScalar _).le
  · intro text
    refine ⟨table.formText text, table.normalForm_encode text, ?_⟩
    rw [table.normalForm_encode, table.formText_formText]
  · intro text text' h
    rw [table.normalForm_encode, table.normalForm_encode, ← table.formText_lower text, h,
      table.formText_lower]
  · intro spaces spaces' text rest h h'
    simp only [table.normalForm_encode]
    obtain ⟨hfront, hback, hinner⟩ := table.formText_spaces h h' text rest
    exact ⟨by rw [hfront], by rw [hback], fun hne hne' => by rw [hinner hne hne']⟩

/-- The table's one entry for U+0390, the widest there is. -/
def iotaFolds : FoldTable where
  image := fun c => if c = 0x390 then some ['\u03b9', '\u0308', '\u0301'] else none
  nonempty := by
    intro c text h
    split at h
    next => rw [← Option.some.inj h]; simp
    next => cases h
  short := by
    intro c text h
    split at h
    next => rw [← Option.some.inj h]; decide
    next => cases h
  plain := by
    intro c text h
    split at h
    next => rw [← Option.some.inj h]; simp [isSpaceChar]
    next => cases h
  folded := by
    intro c text h
    split at h
    next => rw [← Option.some.inj h]; simp [foldChar]
    next => cases h

/-- The projection of the ASCII letters. -/
def letterProject (uc : ℕ) : ℕ :=
  if 0x61 ≤ uc ∧ uc ≤ 0x7a then uc else if 0x41 ≤ uc ∧ uc ≤ 0x5a then uc + 0x20 else 0

lemma narrow_letterProject : NarrowImages letterProject := by
  intro uc _ hkept
  simp only [letterProject, scalarWidth] at hkept ⊢
  split_ifs at hkept ⊢ <;> omega

def letterAnchors : AnchorTable where
  project := letterProject
  narrow := narrow_letterProject

/-- U+0390 between spaces, appended to an empty buffer, and `A` to a buffer of some room. -/
theorem label_normal_form_iota :
    (∃ buf, normalizeLabel iotaFolds.fold (fun _ => true) ⟨[], 0, false⟩ [0x20, 0xce, 0x90, 0x20] =
        .ok buf ∧
      Ends (fun _ => true) [] (normalForm iotaFolds.fold [0x20, 0xce, 0x90, 0x20]) buf) ∧
    ∃ buf, anchor letterAnchors.project (fun _ => true) ⟨[0x62], 4, false⟩ [0x41] = .ok buf ∧
      Ends (fun _ => true) [0x62] (anchorImage letterAnchors.project [0x41]) buf := by
  have hempty : Strbuf.Good ⟨[], 0, false⟩ := ⟨rfl, Or.inr ⟨rfl, rfl⟩, Nat.zero_le _⟩
  have hsome : Strbuf.Good ⟨[0x62], 4, false⟩ := ⟨rfl, Or.inl (by decide), by decide⟩
  obtain ⟨hlabel, hanchor, -⟩ := label_normal_form iotaFolds letterAnchors
  obtain ⟨buf, hloop, hends, -⟩ := hlabel (fun _ => true) _ [0x20, 0xce, 0x90, 0x20] hempty
  obtain ⟨buf', hloop', hends', -⟩ := hanchor (fun _ => true) _ [0x41] hsome
  exact ⟨⟨buf, hloop, hends⟩, buf', hloop', hends'⟩

end MarkdownCore.Text
