import Mathlib.Algebra.Order.Ring.Nat
import Mathlib.Data.List.Basic

/-!
# The grammar of JSON

Which texts are JSON values (RFC 8259), and what each means. A string's bytes from 0x80 up are
taken as they are. An escaped surrogate without its other half means U+FFFD, and a pair of them the
scalar they encode.
-/

namespace MarkdownCore.Json

/-- What a text means: its numbers as they are spelled, its strings decoded. -/
inductive Datum where
  | null
  | no
  | yes
  | number (spelling : List UInt8)
  | string (bytes : List UInt8)
  | array (items : List Datum)
  | object (members : List (List UInt8 × Datum))

/-! ### Spaces and numbers -/

def isSpace (b : UInt8) : Bool := b == 32 || b == 9 || b == 10 || b == 13

def isDigit (b : UInt8) : Bool := 48 ≤ b.toNat && b.toNat ≤ 57

/-- `ws`. -/
def Spaces (u : List UInt8) : Prop := ∀ b ∈ u, isSpace b = true

/-- `1*DIGIT`. -/
def Digits (u : List UInt8) : Prop := u ≠ [] ∧ ∀ b ∈ u, isDigit b = true

/-- `int`. -/
inductive Whole : List UInt8 → Prop
  | zero : Whole [48]
  | digits {b : UInt8} {u : List UInt8} (h : Digits (b :: u)) (hb : b ≠ 48) : Whole (b :: u)

/-- `[ frac ]`. -/
inductive Frac : List UInt8 → Prop
  | none : Frac []
  | some {u : List UInt8} (h : Digits u) : Frac (46 :: u)

/-- `[ exp ]`. -/
inductive Exponent : List UInt8 → Prop
  | none : Exponent []
  | some {e : UInt8} {sign u : List UInt8} (he : e = 101 ∨ e = 69)
    (hsign : sign = [] ∨ sign = [43] ∨ sign = [45]) (h : Digits u) : Exponent (e :: (sign ++ u))

/-- `number`. -/
inductive Number : List UInt8 → Prop
  | mk {minus whole frac exponent : List UInt8} (hminus : minus = [] ∨ minus = [45])
    (hwhole : Whole whole) (hfrac : Frac frac) (hexponent : Exponent exponent) :
    Number (minus ++ (whole ++ (frac ++ exponent)))

/-! ### Strings -/

/-- `unescaped`, a byte of it. -/
def isPlain (b : UInt8) : Bool := b != 34 && b != 92 && 32 ≤ b.toNat

/-- What a letter after a backslash stands for. -/
def letterByte (b : UInt8) : Option UInt8 :=
  if b = 34 then some 34
  else if b = 92 then some 92
  else if b = 47 then some 47
  else if b = 98 then some 8
  else if b = 102 then some 12
  else if b = 110 then some 10
  else if b = 114 then some 13
  else if b = 116 then some 9
  else none

def hex (b : UInt8) : Option ℕ :=
  if isDigit b then some (b.toNat - 48)
  else if 97 ≤ b.toNat && b.toNat ≤ 102 then some (b.toNat - 97 + 10)
  else if 65 ≤ b.toNat && b.toNat ≤ 70 then some (b.toNat - 65 + 10)
  else none

/-- `escape_unit`: what the first four bytes stand for, as hex digits. -/
def escapeUnit : List UInt8 → Option ℕ
  | a :: b :: c :: d :: _ =>
    (hex a).bind fun a => (hex b).bind fun b => (hex c).bind fun c => (hex d).map fun d =>
      ((a * 16 + b) * 16 + c) * 16 + d
  | _ => none

def isHigh (unit : ℕ) : Bool := 0xD800 ≤ unit && unit ≤ 0xDBFF

def isLow (unit : ℕ) : Bool := 0xDC00 ≤ unit && unit ≤ 0xDFFF

/-- The low surrogate whose escape a text starts with. -/
@[grind =] def lowAfter : List UInt8 → Option ℕ
  | a :: b :: u => if a = 92 ∧ b = 117 then (escapeUnit u).filter isLow else none
  | _ => none

/-- The scalar that two surrogates encode. -/
def pairScalar (high low : ℕ) : ℕ := 0x10000 + (high - 0xD800) * 2 ^ 10 + (low - 0xDC00)

/-- The scalar of a unit, and U+FFFD for a surrogate. -/
def unitScalar (unit : ℕ) : ℕ := if isHigh unit || isLow unit then 0xFFFD else unit

/-- The bytes of a scalar: `put_scalar`. -/
def scalarBytes (scalar : ℕ) : List UInt8 :=
  if scalar < 0x80 then [UInt8.ofNat scalar]
  else if scalar < 0x800 then
    [UInt8.ofNat (0xC0 + scalar / 64), UInt8.ofNat (0x80 + scalar % 64)]
  else if scalar < 0x10000 then
    [UInt8.ofNat (0xE0 + scalar / 4096), UInt8.ofNat (0x80 + scalar / 64 % 64),
      UInt8.ofNat (0x80 + scalar % 64)]
  else
    [UInt8.ofNat (0xF0 + scalar / 262144), UInt8.ofNat (0x80 + scalar / 4096 % 64),
      UInt8.ofNat (0x80 + scalar / 64 % 64), UInt8.ofNat (0x80 + scalar % 64)]

/-- `*char`, and the bytes it means. -/
inductive Chars : List UInt8 → List UInt8 → Prop
  | nil : Chars [] []
  | plain {b : UInt8} {u d : List UInt8} (hb : isPlain b = true) (h : Chars u d) :
    Chars (b :: u) (b :: d)
  | letter {b byte : UInt8} {u d : List UInt8} (hb : letterByte b = some byte) (h : Chars u d) :
    Chars (92 :: b :: u) (byte :: d)
  | unit {digits u d : List UInt8} {unit : ℕ} (hlength : digits.length = 4)
    (hunit : escapeUnit digits = some unit) (halone : isHigh unit = true → lowAfter u = none)
    (h : Chars u d) : Chars (92 :: 117 :: (digits ++ u)) (scalarBytes (unitScalar unit) ++ d)
  | pair {digits digits' u d : List UInt8} {high low : ℕ} (hlength : digits.length = 4)
    (hhigh : escapeUnit digits = some high) (his : isHigh high = true)
    (hlength' : digits'.length = 4) (hlow : escapeUnit digits' = some low)
    (his' : isLow low = true) (h : Chars u d) :
    Chars (92 :: 117 :: (digits ++ 92 :: 117 :: (digits' ++ u)))
      (scalarBytes (pairScalar high low) ++ d)

/-- `*char` of the grammar, whatever it means. -/
inductive Characters : List UInt8 → Prop
  | nil : Characters []
  | unescaped {b : UInt8} {u : List UInt8} (hb : isPlain b = true) (h : Characters u) :
    Characters (b :: u)
  | letter {b byte : UInt8} {u : List UInt8} (hb : letterByte b = some byte) (h : Characters u) :
    Characters (92 :: b :: u)
  | unit {digits u : List UInt8} {unit : ℕ} (hlength : digits.length = 4)
    (hunit : escapeUnit digits = some unit) (h : Characters u) :
    Characters (92 :: 117 :: (digits ++ u))

/-- `string`. -/
inductive Quoted : List UInt8 → List UInt8 → Prop
  | mk {u d : List UInt8} (h : Chars u d) : Quoted (34 :: (u ++ [34])) d

/-! ### Values -/

section

variable {ι : Type*} (P : List UInt8 → ι → Prop)

/-- Something with spaces about it. -/
inductive Spaced : List UInt8 → ι → Prop
  | mk {before u after : List UInt8} {x : ι} (hbefore : Spaces before) (h : P u x)
    (hafter : Spaces after) : Spaced (before ++ (u ++ after)) x

/-- One or more, with a comma between. -/
inductive Listed : List UInt8 → List ι → Prop
  | last {u : List UInt8} {x : ι} (h : Spaced P u x) : Listed u [x]
  | more {u rest : List UInt8} {x : ι} {xs : List ι} (h : Spaced P u x) (hrest : Listed rest xs) :
    Listed (u ++ 44 :: rest) (x :: xs)

/-- None, or one or more, between brackets. -/
inductive Bracketed (opening closing : UInt8) : List UInt8 → List ι → Prop
  | none {w : List UInt8} (h : Spaces w) : Bracketed opening closing (opening :: (w ++ [closing])) []
  | some {u : List UInt8} {xs : List ι} (h : Listed P u xs) :
    Bracketed opening closing (opening :: (u ++ [closing])) xs

end

/-- `member`. -/
inductive Member (P : List UInt8 → Datum → Prop) : List UInt8 → List UInt8 × Datum → Prop
  | mk {s w w' u name : List UInt8} {v : Datum} (hname : Quoted s name) (hw : Spaces w)
    (hw' : Spaces w') (h : P u v) : Member P (s ++ (w ++ 58 :: (w' ++ u))) (name, v)

/-- A value with no brackets. -/
inductive Scalar : List UInt8 → Datum → Prop
  | null : Scalar [110, 117, 108, 108] .null
  | no : Scalar [102, 97, 108, 115, 101] .no
  | yes : Scalar [116, 114, 117, 101] .yes
  | number {u : List UInt8} (h : Number u) : Scalar u (.number u)
  | string {u d : List UInt8} (h : Quoted u d) : Scalar u (.string d)

/-- `value`, nested so many containers deep at most. -/
def IsValue : ℕ → List UInt8 → Datum → Prop
  | 0 => Scalar
  | levels + 1 => fun u v =>
    Scalar u v ∨ (∃ items, v = .array items ∧ Bracketed (IsValue levels) 91 93 u items) ∨
      ∃ members, v = .object members ∧ Bracketed (Member (IsValue levels)) 123 125 u members

/-- `JSON_DEPTH`. -/
def maxDepth : ℕ := 512

/-- `JSON-text`. -/
def IsText (t : List UInt8) (v : Datum) : Prop := Spaced (IsValue maxDepth) t v

end MarkdownCore.Json
