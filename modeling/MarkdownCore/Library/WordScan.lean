import Mathlib.Algebra.Order.Ring.Nat
import Mathlib.Data.Nat.Bitwise

/-!
# Bytes tested a word at a time

`(word - ones) & ~word` has the high bit of a byte that is zero, and of none where no byte is: the
subtraction borrows from a byte only where a lower one is zero. So the high bits of a word taken
against a byte repeated tell whether it holds that byte (`zeroBytes_eq_zero_iff`).
-/

namespace MarkdownCore.WordScan

/-- The number that bytes spell, lowest first. -/
def value : List UInt8 → ℕ
  | [] => 0
  | byte :: bytes => byte.toNat + 256 * value bytes

/-- A word of eight bytes. -/
def load (bytes : List UInt8) : BitVec 64 := BitVec.ofNat 64 (value bytes)

def ones : BitVec 64 := 0x0101010101010101#64

def highs : BitVec 64 := 0x8080808080808080#64

/-- The test's flags, in the high bits of the bytes. -/
def zeroBytes (word : BitVec 64) : BitVec 64 := (word - ones) &&& ~~~word

lemma value_lt (bytes : List UInt8) : value bytes < 256 ^ bytes.length := by
  induction bytes with
  | nil => exact Nat.one_pos
  | cons byte bytes ih =>
    have hbyte := byte.toNat_lt
    rw [value, List.length_cons, Nat.pow_succ]
    omega

/-! ### Digits -/

lemma add_eq (a x : ℕ) : a + 256 * x = 2 ^ 8 * x + a := Nat.add_comm _ _

lemma land_digit {a b : ℕ} (ha : a < 256) (hb : b < 256) (x y : ℕ) :
    (a + 256 * x) &&& (b + 256 * y) = (a &&& b) + 256 * (x &&& y) := by
  have hand : a &&& b < 2 ^ 8 := Nat.and_lt_two_pow a hb
  apply Nat.eq_of_testBit_eq
  intro j
  rw [Nat.testBit_and, add_eq, add_eq, add_eq, Nat.testBit_two_pow_mul_add x ha,
    Nat.testBit_two_pow_mul_add y hb, Nat.testBit_two_pow_mul_add _ hand]
  split
  next => rw [Nat.testBit_and]
  next => rw [Nat.testBit_and]

lemma xor_digit {a b : ℕ} (ha : a < 256) (hb : b < 256) (x y : ℕ) :
    (a + 256 * x) ^^^ (b + 256 * y) = (a ^^^ b) + 256 * (x ^^^ y) := by
  have hxor : a ^^^ b < 2 ^ 8 := Nat.xor_lt_two_pow ha hb
  apply Nat.eq_of_testBit_eq
  intro j
  rw [Nat.testBit_xor, add_eq, add_eq, add_eq, Nat.testBit_two_pow_mul_add x ha,
    Nat.testBit_two_pow_mul_add y hb, Nat.testBit_two_pow_mul_add _ hxor]
  split
  next => rw [Nat.testBit_xor]
  next => rw [Nat.testBit_xor]

/-- A digit repeated. -/
def repeated (digit : ℕ) : ℕ → ℕ
  | 0 => 0
  | n + 1 => digit + 256 * repeated digit n

lemma repeated_lt {digit : ℕ} (h : digit < 256) (n : ℕ) : repeated digit n < 256 ^ n := by
  induction n with
  | zero => exact Nat.one_pos
  | succ n ih =>
    rw [repeated, Nat.pow_succ]
    omega

/-- The flags of a number of `n` digits. -/
def flags (n x : ℕ) : ℕ :=
  ((256 ^ n - repeated 1 n + x) % 256 ^ n) &&& (256 ^ n - 1 - x) &&& repeated 128 n

lemma no_flag : ∀ byte : Fin 256, 1 ≤ byte.val →
    (byte.val - 1) &&& (255 - byte.val) &&& 128 = 0 := by
  decide +kernel

variable {n x digit : ℕ}

/-- A digit that is not zero lends nothing and has no flag. -/
lemma flags_succ_pos (hx : x < 256 ^ n) (hpos : 1 ≤ digit) (hdigit : digit < 256) :
    flags (n + 1) (digit + 256 * x) = 256 * flags n x := by
  have hones := repeated_lt (show 1 < 256 by decide) n
  have hpow : 256 ^ (n + 1) = 256 * 256 ^ n := Nat.pow_succ'
  have hsub : (256 ^ (n + 1) - repeated 1 (n + 1) + (digit + 256 * x)) % 256 ^ (n + 1) =
      (digit - 1) + 256 * ((256 ^ n - repeated 1 n + x) % 256 ^ n) := by
    have hsum : 256 ^ (n + 1) - repeated 1 (n + 1) + (digit + 256 * x) =
        (digit - 1) + 256 * (256 ^ n - repeated 1 n + x) := by
      rw [hpow, repeated]
      omega
    have hdiv : (digit - 1 + 256 * (256 ^ n - repeated 1 n + x)) / 256 =
        256 ^ n - repeated 1 n + x := by omega
    have hmod : (digit - 1 + 256 * (256 ^ n - repeated 1 n + x)) % 256 = digit - 1 := by omega
    rw [hsum, hpow, Nat.mod_mul, hdiv, hmod]
  have hnot : 256 ^ (n + 1) - 1 - (digit + 256 * x) = (255 - digit) + 256 * (256 ^ n - 1 - x) := by
    rw [hpow]
    omega
  have hflag := no_flag ⟨digit, hdigit⟩ hpos
  dsimp only at hflag
  rw [flags, hsub, hnot, land_digit (by omega) (by omega), repeated,
    land_digit (Nat.lt_of_le_of_lt Nat.and_le_left (by omega)) (by decide), hflag, Nat.zero_add]
  rfl

/-- The lowest digit that is zero has its flag. -/
lemma flags_succ_zero (hx : x < 256 ^ n) : flags (n + 1) (256 * x) ≠ 0 := by
  have hones := repeated_lt (show 1 < 256 by decide) n
  have hpow : 256 ^ (n + 1) = 256 * 256 ^ n := Nat.pow_succ'
  obtain ⟨y, hy⟩ : ∃ y, 256 ^ (n + 1) - repeated 1 (n + 1) + 256 * x = 255 + 256 * y := by
    refine ⟨256 ^ n - repeated 1 n - 1 + x, ?_⟩
    rw [hpow, repeated]
    omega
  have hsub : (256 ^ (n + 1) - repeated 1 (n + 1) + 256 * x) % 256 ^ (n + 1) =
      255 + 256 * (y % 256 ^ n) := by
    have hdiv : (255 + 256 * y) / 256 = y := by omega
    have hmod : (255 + 256 * y) % 256 = 255 := by omega
    rw [hy, hpow, Nat.mod_mul, hdiv, hmod]
  have hnot : 256 ^ (n + 1) - 1 - 256 * x = 255 + 256 * (256 ^ n - 1 - x) := by
    rw [hpow]
    omega
  rw [flags, hsub, hnot, land_digit (by decide) (by decide), repeated,
    land_digit (by decide) (by decide)]
  intro hzero
  have hlow : 255 &&& 255 &&& 128 = 128 := by decide
  rw [hlow] at hzero
  omega

/-- A word of bytes has no flag when no byte of it is zero, and only then. -/
lemma flags_eq_zero_iff (bytes : List UInt8) :
    flags bytes.length (value bytes) = 0 ↔ 0 ∉ bytes := by
  induction bytes with
  | nil => simp [flags, repeated]
  | cons byte bytes ih =>
    have hlt := value_lt bytes
    rw [List.length_cons, value, List.mem_cons, not_or]
    by_cases hbyte : byte = 0
    · subst hbyte
      have hflag := flags_succ_zero hlt
      simp only [UInt8.toNat_zero, Nat.zero_add, not_true_eq_false, false_and, iff_false]
      exact hflag
    · have hpos : 1 ≤ byte.toNat := by
        refine Nat.one_le_iff_ne_zero.mpr fun hzero => hbyte ?_
        exact UInt8.toNat_inj.mp hzero
      rw [flags_succ_pos hlt hpos byte.toNat_lt, ← ih]
      constructor
      · intro hzero
        exact ⟨fun heq => hbyte heq.symm, by omega⟩
      · rintro ⟨-, hzero⟩
        rw [hzero]

/-! ### Words -/

lemma value_xor (bytes : List UInt8) (byte : UInt8) :
    value bytes ^^^ repeated byte.toNat bytes.length = value (bytes.map (· ^^^ byte)) := by
  induction bytes with
  | nil => simp [value, repeated]
  | cons b bytes ih =>
    rw [value, List.length_cons, repeated, xor_digit b.toNat_lt byte.toNat_lt, ih, List.map_cons,
      value, UInt8.toNat_xor]

lemma repeated_eight (digit : ℕ) : repeated digit 8 = 72340172838076673 * digit := by
  simp only [repeated]
  omega

/-- The flags of a word against a byte repeated. -/
theorem zeroBytes_eq_zero_iff {bytes : List UInt8} (h : bytes.length = 8) (byte : UInt8) :
    zeroBytes (load bytes ^^^ ones * BitVec.ofNat 64 byte.toNat) &&& highs = 0 ↔ byte ∉ bytes := by
  have hbyte := byte.toNat_lt
  have hvalue := value_lt bytes
  rw [h] at hvalue
  have hxor := value_xor bytes byte
  rw [h, repeated_eight] at hxor
  have hlt := value_lt (bytes.map (· ^^^ byte))
  rw [List.length_map, h] at hlt
  have hword : (load bytes ^^^ ones * BitVec.ofNat 64 byte.toNat).toNat =
      value (bytes.map (· ^^^ byte)) := by
    have hones : ones.toNat = 72340172838076673 := rfl
    have hrepeated : ones.toNat * byte.toNat < 2 ^ 64 := by
      rw [hones]
      omega
    rw [BitVec.toNat_xor, BitVec.toNat_mul, load, BitVec.toNat_ofNat, BitVec.toNat_ofNat,
      Nat.mod_eq_of_lt (show value bytes < 2 ^ 64 from hvalue),
      Nat.mod_eq_of_lt (show byte.toNat < 2 ^ 64 by omega), Nat.mod_eq_of_lt hrepeated, hones, hxor]
  have hflags : (zeroBytes (load bytes ^^^ ones * BitVec.ofNat 64 byte.toNat) &&& highs).toNat =
      flags 8 (value (bytes.map (· ^^^ byte))) := by
    rw [zeroBytes, BitVec.toNat_and, BitVec.toNat_and, BitVec.toNat_sub, BitVec.toNat_not, hword]
    rfl
  have hiff := flags_eq_zero_iff (bytes.map (· ^^^ byte))
  rw [List.length_map, h] at hiff
  rw [← BitVec.toNat_inj, hflags, show (0 : BitVec 64).toNat = 0 from rfl, hiff, List.mem_map]
  constructor
  · intro hnot hmem
    exact hnot ⟨byte, hmem, UInt8.xor_self⟩
  · rintro hnot ⟨b, hb, hzero⟩
    rw [UInt8.xor_eq_zero_iff] at hzero
    exact hnot (hzero ▸ hb)

end MarkdownCore.WordScan
