import Mathlib.Data.List.Basic
import Mathlib.Algebra.Order.Ring.Nat

/-!
# Scalars and columns

A text is its bytes. The program steps over them by whole scalars, each a byte and the
continuation bytes after it, and counts columns in bytes or in UTF-16 code units. A text is valid
when its bytes are the encoding of some characters; this module relates the two views.
-/

namespace MarkdownCore.Text

/-- `markdown_core_text_unit`: how columns are counted. -/
inductive TextUnit where
  | utf8
  | utf16
  deriving DecidableEq, Repr

/-- A byte that goes on a scalar. -/
def continues (byte : UInt8) : Bool := byte &&& 0xC0 == 0x80

/-- What a byte counts in UTF-16: the byte that begins a four-byte scalar is two units and a
continuation byte none. -/
def width (byte : UInt8) : ℕ := if continues byte then 0 else if byte ≥ 0xF0 then 2 else 1

/-- `columns`, `source_columns`: what the bytes from one offset to another count. -/
def columns (source : List UInt8) (start stop : ℕ) : TextUnit → ℕ
  | .utf8 => stop - start
  | .utf16 => (((source.drop start).take (stop - start)).map width).sum

/-- The offset after the scalar at `at'`, or `stop` when it goes on there. -/
def next (source : List UInt8) (at' stop : ℕ) : ℕ :=
  at' + 1 + (((source.drop (at' + 1)).take (stop - (at' + 1))).takeWhile continues).length

/-! ### Characters -/

/-- The bytes of a row of characters. -/
def encode (text : List Char) : List UInt8 := text.flatMap String.utf8EncodeChar

/-- What a character counts. -/
def units (c : Char) : TextUnit → ℕ
  | .utf8 => c.utf8Size
  | .utf16 => if 0x10000 ≤ c.val.toNat then 2 else 1

/-- What a row of characters counts. -/
def measure (text : List Char) (unit : TextUnit) : ℕ := (text.map (units · unit)).sum

@[simp] lemma encode_nil : encode [] = [] := rfl

@[simp] lemma encode_cons (c : Char) (text : List Char) :
    encode (c :: text) = String.utf8EncodeChar c ++ encode text := List.flatMap_cons

@[simp] lemma encode_append (text more : List Char) :
    encode (text ++ more) = encode text ++ encode more := List.flatMap_append

/-- A prefix of a row of characters has no more bytes. -/
lemma length_encode_take_le (text : List Char) (n : ℕ) :
    (encode (text.take n)).length ≤ (encode text).length := by
  have h := encode_append (text.take n) (text.drop n)
  rw [List.take_append_drop] at h
  rw [h, List.length_append]
  exact Nat.le_add_right _ _

@[simp] lemma measure_nil (unit : TextUnit) : measure [] unit = 0 := rfl

@[simp] lemma measure_cons (c : Char) (text : List Char) (unit : TextUnit) :
    measure (c :: text) unit = units c unit + measure text unit := by simp [measure]

@[simp] lemma measure_append (text more : List Char) (unit : TextUnit) :
    measure (text ++ more) unit = measure text unit + measure more unit := by simp [measure]

lemma units_pos (c : Char) (unit : TextUnit) : 0 < units c unit := by
  cases unit with
  | utf8 => exact c.utf8Size_pos
  | utf16 =>
    rw [units]
    split <;> omega

/-! ### The bytes of a character -/

lemma continues_ofNat : ∀ n : Fin 256, continues (UInt8.ofNat n) = decide (n.val / 64 = 2) := by
  decide +kernel

lemma ge_ofNat : ∀ n : Fin 256, decide (UInt8.ofNat n ≥ 0xF0) = decide (240 ≤ n.val) := by
  decide +kernel

/-- A character's bytes are one that begins a scalar and those that go it on. -/
structure Encoding (c : Char) (head : UInt8) (tail : List UInt8) : Prop where
  bytes : String.utf8EncodeChar c = head :: tail
  head_begins : continues head = false
  tail_continues : ∀ b ∈ tail, continues b = true
  width_head : width head = units c .utf16
  ascii : c.val.toNat < 128 → head = UInt8.ofNat c.val.toNat ∧ tail = []
  wide : 128 ≤ c.val.toNat → 192 ≤ head.toNat

lemma continues_of_lt {n : ℕ} (h : n < 256) :
    continues (UInt8.ofNat n) = decide (n / 64 = 2) := continues_ofNat ⟨n, h⟩

lemma width_of_lt {n : ℕ} (h : n < 256) :
    width (UInt8.ofNat n) = if n / 64 = 2 then 0 else if 240 ≤ n then 2 else 1 := by
  have hge := ge_ofNat ⟨n, h⟩
  rw [decide_eq_decide] at hge
  simp only [width, continues_of_lt h, hge, decide_eq_true_eq]

lemma toNat_of_lt {n : ℕ} (h : n < 256) : (UInt8.ofNat n).toNat = n := by
  rw [UInt8.toNat_ofNat']
  exact Nat.mod_eq_of_lt h

lemma val_lt (c : Char) : c.val.toNat < 0x110000 := by
  rcases c.valid with h | ⟨-, h⟩
  · exact lt_trans h (by decide)
  · exact h

lemma Encoding.of_head {c : Char} {n : ℕ} {tail : List UInt8}
    (hbytes : String.utf8EncodeChar c = UInt8.ofNat n :: tail) (hn : n < 256) (hbegin : n / 64 ≠ 2)
    (htail : ∀ b ∈ tail, continues b = true) (hfour : 240 ≤ n ↔ 0x10000 ≤ c.val.toNat)
    (hascii : c.val.toNat < 128 → n = c.val.toNat ∧ tail = [])
    (hwide : 128 ≤ c.val.toNat → 192 ≤ n) : Encoding c (UInt8.ofNat n) tail where
  bytes := hbytes
  head_begins := by
    rw [continues_of_lt hn]
    simpa using hbegin
  tail_continues := htail
  width_head := by
    rw [width_of_lt hn, if_neg hbegin, units]
    simp only [hfour]
  ascii := fun h => ⟨congrArg UInt8.ofNat (hascii h).1, (hascii h).2⟩
  wide := fun h => by
    rw [toNat_of_lt hn]
    exact hwide h

lemma continues_tail (n : ℕ) : continues (UInt8.ofNat (n % 0x40 + 0x80)) = true := by
  rw [continues_of_lt (by omega)]
  simp only [decide_eq_true_eq]
  omega

/-- A character has one, two, three or four bytes. -/
lemma exists_encoding (c : Char) : ∃ head tail, Encoding c head tail := by
  have hval := val_lt c
  by_cases h₁ : c.val.toNat ≤ 0x7f
  · refine ⟨_, [], Encoding.of_head (n := c.val.toNat) ?_ ?_ ?_ (by simp) ?_
      (fun _ => ⟨rfl, rfl⟩) ?_⟩
    · simp only [String.utf8EncodeChar, if_pos h₁]
    all_goals omega
  by_cases h₂ : c.val.toNat ≤ 0x7ff
  · refine ⟨_, [UInt8.ofNat (c.val.toNat % 0x40 + 0x80)],
      Encoding.of_head (n := c.val.toNat / 64 % 0x20 + 0xc0) ?_ ?_ ?_
      (by simp only [List.forall_mem_cons, continues_tail, true_and, List.not_mem_nil,
        false_implies, implies_true])
      ?_ ?_ ?_⟩
    · simp only [String.utf8EncodeChar, if_neg h₁, if_pos h₂]
    all_goals omega
  by_cases h₃ : c.val.toNat ≤ 0xffff
  · refine ⟨_, [UInt8.ofNat (c.val.toNat / 64 % 0x40 + 0x80),
        UInt8.ofNat (c.val.toNat % 0x40 + 0x80)],
      Encoding.of_head (n := c.val.toNat / 4096 % 0x10 + 0xe0) ?_ ?_ ?_
      (by simp only [List.forall_mem_cons, continues_tail, true_and, List.not_mem_nil,
        false_implies, implies_true])
      ?_ ?_ ?_⟩
    · simp only [String.utf8EncodeChar, if_neg h₁, if_neg h₂, if_pos h₃]
    all_goals omega
  · refine ⟨_, [UInt8.ofNat (c.val.toNat / 4096 % 0x40 + 0x80),
        UInt8.ofNat (c.val.toNat / 64 % 0x40 + 0x80), UInt8.ofNat (c.val.toNat % 0x40 + 0x80)],
      Encoding.of_head (n := c.val.toNat / 262144 % 0x8 + 0xf0) ?_ ?_ ?_
      (by simp only [List.forall_mem_cons, continues_tail, true_and, List.not_mem_nil,
        false_implies, implies_true])
      ?_ ?_ ?_⟩
    · simp only [String.utf8EncodeChar, if_neg h₁, if_neg h₂, if_neg h₃]
    all_goals omega

/-! ### Walking over characters -/

/-- A text that ends or begins a scalar. -/
def Begins (source : List UInt8) : Prop := ∀ b, source.head? = some b → continues b = false

lemma begins_encode (text : List Char) : Begins (encode text) := by
  intro b hb
  cases text with
  | nil => exact absurd hb (by simp)
  | cons c text =>
    obtain ⟨head, tail, h⟩ := exists_encoding c
    rw [encode_cons, h.bytes, List.cons_append, List.head?_cons, Option.some.injEq] at hb
    exact hb ▸ h.head_begins

lemma length_encodeChar_pos (c : Char) : 0 < (String.utf8EncodeChar c).length := by
  rw [String.length_utf8EncodeChar]
  exact c.utf8Size_pos

/-- A step from the start of a character goes past its bytes. -/
lemma next_encode (before : List UInt8) (c : Char) (text : List Char) (after : List UInt8) :
    next (before ++ encode (c :: text) ++ after) before.length
        (before.length + (encode (c :: text)).length) =
      before.length + (String.utf8EncodeChar c).length := by
  obtain ⟨head, tail, h⟩ := exists_encoding c
  have hdrop : (before ++ encode (c :: text) ++ after).drop (before.length + 1) =
      tail ++ (encode text ++ after) := by
    rw [encode_cons, h.bytes, ← List.drop_drop, List.append_assoc, List.drop_left]
    simp
  have hlen : before.length + (encode (c :: text)).length - (before.length + 1) =
      tail.length + (encode text).length := by
    rw [encode_cons, h.bytes]
    simp only [List.length_append, List.length_cons]
    omega
  have htake : (tail ++ (encode text ++ after)).take (tail.length + (encode text).length) =
      tail ++ encode text := by
    rw [← List.append_assoc, ← List.length_append, List.take_left]
  rw [next, hdrop, hlen, htake, List.takeWhile_append_of_pos h.tail_continues]
  have hnone : (encode text).takeWhile continues = [] := by
    cases hbytes : encode text with
    | nil => rfl
    | cons b rest =>
      refine List.takeWhile_cons_of_neg ?_
      rw [begins_encode text b (by rw [hbytes]; rfl)]
      simp
  rw [hnone, h.bytes, List.append_nil, List.length_cons]
  omega

lemma width_of_continues {b : UInt8} (h : continues b = true) : width b = 0 := by simp [width, h]

lemma sum_width_of_continues {tail : List UInt8} (h : ∀ b ∈ tail, continues b = true) :
    (tail.map width).sum = 0 := by
  induction tail with
  | nil => rfl
  | cons b tail ih =>
    obtain ⟨hb, htail⟩ := List.forall_mem_cons.mp h
    rw [List.map_cons, List.sum_cons, width_of_continues hb, ih htail]

lemma sum_width_encode (text : List Char) :
    ((encode text).map width).sum = measure text .utf16 := by
  induction text with
  | nil => rfl
  | cons c text ih =>
    obtain ⟨head, tail, h⟩ := exists_encoding c
    rw [encode_cons, List.map_append, List.sum_append, ih, measure_cons, h.bytes, List.map_cons,
      List.sum_cons, sum_width_of_continues h.tail_continues, h.width_head, Nat.add_zero]

lemma length_encode (text : List Char) : (encode text).length = measure text .utf8 := by
  induction text with
  | nil => rfl
  | cons c text ih =>
    rw [encode_cons, List.length_append, ih, measure_cons, String.length_utf8EncodeChar, units]

/-- The columns of a row of characters are what they count. -/
lemma columns_encode (before : List UInt8) (text : List Char) (after : List UInt8)
    (unit : TextUnit) :
    columns (before ++ encode text ++ after) before.length
      (before.length + (encode text).length) unit = measure text unit := by
  cases unit with
  | utf8 => rw [columns, Nat.add_sub_cancel_left, length_encode]
  | utf16 =>
    rw [columns, Nat.add_sub_cancel_left, List.append_assoc, List.drop_left, List.take_left,
      sum_width_encode]

end MarkdownCore.Text
