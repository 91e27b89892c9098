import Mathlib.Data.List.Basic
import Mathlib.Tactic.Common
import MarkdownCore.Library.Naming

/-!
# Heading names and their suffixes

A heading's anchor is its base, or its base with a suffix `-k`. This module has the bytes of a
suffix, the number a suffix reads back as, and the parent of a name: what is left of it without
one suffix.
-/

namespace MarkdownCore

/-- The bytes of an anchor. -/
abbrev Name := List UInt8

/-- The digit `'0' + d`. -/
def digit (d : ℕ) : UInt8 := UInt8.ofNat (48 + d)

def isDigit (c : UInt8) : Bool := 48 ≤ c.toNat && c.toNat ≤ 57

/-- The digits of `ordinal`, written before `tail` from the last to the first. -/
def suffixDigits : ℕ → ℕ → List UInt8 → List UInt8
  | 0, _, tail => tail
  | fuel + 1, ordinal, tail =>
    let tail := digit (ordinal % 10) :: tail
    if ordinal / 10 = 0 then tail else suffixDigits fuel (ordinal / 10) tail

/-- The digits of `ordinal`: a number has fewer digits than it counts. -/
def decimal (ordinal : ℕ) : List UInt8 := suffixDigits (ordinal + 1) ordinal []

/-- `base` with the suffix of `ordinal`. -/
def appendAnchorSuffix (base : Name) (ordinal : ℕ) : Name := base ++ 45 :: decimal ordinal

/-- The number the bytes spell, as digits. -/
def digitsValue (bytes : List UInt8) : ℕ :=
  bytes.foldl (fun suffix c => suffix * 10 + (c.toNat - 48)) 0

/-- The suffix of a name whose base is its first `baseSize` bytes: zero for the base. -/
def nameSuffix (name : Name) (baseSize : ℕ) : ℕ := digitsValue (name.drop (baseSize + 1))

/-- Where the digits `key` ends with start, looked for from `at'` back. -/
def digitsStart (key : Name) : ℕ → ℕ
  | 0 => 0
  | i + 1 => if isDigit (key.getD i 0) then digitsStart key i else i + 1

/-- How many bytes of `key` its parent is: the name less a last suffix `-k`, `k` a number of no
leading zero; zero when it has none. -/
def stemParent (key : Name) : ℕ :=
  let i := digitsStart key key.length
  if i = key.length ∨ key.getD i 0 = 48 ∨ i < 2 ∨ key.getD (i - 1) 0 ≠ 45 then 0 else i - 1

/-! ### Digits -/

lemma digit_toNat {d : ℕ} (hd : d < 10) : (digit d).toNat = 48 + d := by
  simp only [digit, UInt8.toNat_ofNat']
  omega

lemma isDigit_digit {d : ℕ} (hd : d < 10) : isDigit (digit d) = true := by
  simp only [isDigit, digit_toNat hd, Bool.and_eq_true, decide_eq_true_eq]
  omega

lemma suffixDigits_eq_append (fuel ordinal : ℕ) (tail : List UInt8) :
    suffixDigits fuel ordinal tail = suffixDigits fuel ordinal [] ++ tail := by
  induction fuel generalizing ordinal tail with
  | zero => rfl
  | succ fuel ih =>
    simp only [suffixDigits]
    split_ifs
    · rfl
    · rw [ih, ih _ [_]]
      simp

/-- More fuel than the number counts changes no digit. -/
lemma suffixDigits_eq_decimal {fuel ordinal : ℕ} (h : ordinal < fuel) :
    suffixDigits fuel ordinal [] = decimal ordinal := by
  induction ordinal using Nat.strong_induction_on generalizing fuel with
  | _ ordinal ih =>
    obtain ⟨fuel, rfl⟩ : ∃ f, fuel = f + 1 := ⟨fuel - 1, by omega⟩
    simp only [decimal, suffixDigits]
    split_ifs with h0
    · rfl
    · rw [suffixDigits_eq_append, suffixDigits_eq_append ordinal, ih _ (by omega) (by omega),
        ih _ (by omega) (by omega)]

lemma decimal_of_lt {ordinal : ℕ} (h : ordinal < 10) : decimal ordinal = [digit ordinal] := by
  have h0 : ordinal / 10 = 0 := by omega
  simp [decimal, suffixDigits, h0, Nat.mod_eq_of_lt h]

lemma decimal_of_le {ordinal : ℕ} (h : 10 ≤ ordinal) :
    decimal ordinal = decimal (ordinal / 10) ++ [digit (ordinal % 10)] := by
  have h0 : ordinal / 10 ≠ 0 := by omega
  rw [decimal, suffixDigits, if_neg h0, suffixDigits_eq_append, suffixDigits_eq_decimal (by omega)]

lemma digitsValue_append_singleton (bytes : List UInt8) (c : UInt8) :
    digitsValue (bytes ++ [c]) = digitsValue bytes * 10 + (c.toNat - 48) := by
  simp [digitsValue]

@[simp] lemma digitsValue_decimal (ordinal : ℕ) : digitsValue (decimal ordinal) = ordinal := by
  induction ordinal using Nat.strong_induction_on with
  | _ ordinal ih =>
    rcases lt_or_ge ordinal 10 with h | h
    · simp [decimal_of_lt h, digitsValue, digit_toNat h]
    · rw [decimal_of_le h, digitsValue_append_singleton, ih _ (by omega),
        digit_toNat (Nat.mod_lt _ (by omega))]
      omega

lemma isDigit_of_mem_decimal {ordinal : ℕ} {c : UInt8} (hc : c ∈ decimal ordinal) :
    isDigit c = true := by
  induction ordinal using Nat.strong_induction_on with
  | _ ordinal ih =>
    rcases lt_or_ge ordinal 10 with h | h
    · obtain rfl : c = digit ordinal := by simpa [decimal_of_lt h] using hc
      exact isDigit_digit h
    · rcases List.mem_append.mp (decimal_of_le h ▸ hc) with hc | hc
      · exact ih _ (by omega) hc
      · obtain rfl := List.mem_singleton.mp hc
        exact isDigit_digit (Nat.mod_lt _ (by omega))

lemma decimal_ne_nil (ordinal : ℕ) : decimal ordinal ≠ [] := by
  rcases lt_or_ge ordinal 10 with h | h
  · simp [decimal_of_lt h]
  · simp [decimal_of_le h]

/-! ### The names of a heading -/

/-- The names a heading of base `base` tries: the base, then it with each suffix from 1 on. -/
def anchorName (base : Name) : ℕ → Name
  | 0 => base
  | k + 1 => appendAnchorSuffix base (k + 1)

@[simp] lemma anchorName_zero (base : Name) : anchorName base 0 = base := rfl

lemma anchorName_succ (base : Name) (k : ℕ) :
    anchorName base (k + 1) = appendAnchorSuffix base (k + 1) := rfl

lemma anchorName_of_pos (base : Name) {k : ℕ} (h : 0 < k) :
    anchorName base k = appendAnchorSuffix base k := by
  cases k with
  | zero => exact absurd h (Nat.lt_irrefl 0)
  | succ k => rfl

@[simp] lemma nameSuffix_anchorName (base : Name) (k : ℕ) :
    nameSuffix (anchorName base k) base.length = k := by
  have hbase : base.drop (base.length + 1) = [] := List.drop_eq_nil_of_le (Nat.le_succ _)
  cases k with
  | zero => simp [nameSuffix, hbase, digitsValue]
  | succ k => simp [anchorName, appendAnchorSuffix, nameSuffix, List.drop_append, hbase]

lemma anchorName_injective (base : Name) : Function.Injective (anchorName base) := fun k l h => by
  simpa using congrArg (nameSuffix · base.length) h

@[simp] lemma take_anchorName (base : Name) (k : ℕ) :
    (anchorName base k).take base.length = base := by
  cases k <;> simp [anchorName, appendAnchorSuffix]

/-- The sequences of names the headings try. -/
def anchors : Naming.Sequence Name Name where
  nth := anchorName
  injective := anchorName_injective

@[simp] lemma anchors_nth (base : Name) (k : ℕ) : anchors.nth base k = anchorName base k := rfl

end MarkdownCore
