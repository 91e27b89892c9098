import MarkdownCore.Lsp.Json.Writer

/-!
# A meaning, spelled

What the writer writes of a meaning is a text of the grammar that means the same, nested as deep as
any other text of it.
-/

namespace MarkdownCore.Json

/-- What a string is written as, without its quotes. -/
def escaped (bytes : List UInt8) : List UInt8 :=
  bytes.flatMap fun b => if isPlain b then [b] else escape b

def quoted (bytes : List UInt8) : List UInt8 := 34 :: (escaped bytes ++ [34])

/-- With a comma between. -/
def commas : List (List UInt8) → List UInt8
  | [] => []
  | [u] => u
  | u :: v :: rest => u ++ 44 :: commas (v :: rest)

mutual

/-- What a meaning is written as. -/
def Datum.spell : Datum → List UInt8
  | .null => [110, 117, 108, 108]
  | .no => [102, 97, 108, 115, 101]
  | .yes => [116, 114, 117, 101]
  | .number spelling => spelling
  | .string bytes => quoted bytes
  | .array items => 91 :: (commas (spellItems items) ++ [93])
  | .object members => 123 :: (commas (spellMembers members) ++ [125])

def spellItems : List Datum → List (List UInt8)
  | [] => []
  | v :: items => v.spell :: spellItems items

def spellMembers : List (List UInt8 × Datum) → List (List UInt8)
  | [] => []
  | (name, v) :: members => (quoted name ++ 58 :: v.spell) :: spellMembers members

end

/-- What a member is written as. -/
def spellMember (member : List UInt8 × Datum) : List UInt8 :=
  quoted member.1 ++ 58 :: member.2.spell

lemma spellItems_eq (items : List Datum) : spellItems items = items.map Datum.spell := by
  induction items with
  | nil => rfl
  | cons v items ih => rw [spellItems, ih, List.map_cons]

lemma spellMembers_eq (members : List (List UInt8 × Datum)) :
    spellMembers members = members.map spellMember := by
  induction members with
  | nil => rfl
  | cons member members ih => rw [spellMembers, ih, List.map_cons, spellMember]

/-! ### Strings -/

/-- A control byte's hex digits. -/
lemma escapeUnit_control (b : UInt8) (h : b.toNat < 32) :
    escapeUnit [48, 48, hexDigit (b.toNat / 16), hexDigit (b.toNat % 16)] = some b.toNat := by
  have hall : ∀ n : Fin 32,
      escapeUnit [48, 48, hexDigit (n.val / 16), hexDigit (n.val % 16)] = some n.val := by decide
  exact hall ⟨b.toNat, h⟩

/-- An escape means its byte. -/
lemma Chars.escape {b : UInt8} (hb : isPlain b = false) {u d : List UInt8} (h : Chars u d) :
    Chars (escape b ++ u) (b :: d) := by
  rw [Json.escape]
  split
  next hquote =>
    refine Chars.letter ?_ h
    rcases hquote with rfl | rfl <;> rfl
  next hquote =>
  split
  next hb => exact hb ▸ Chars.letter rfl h
  next =>
  split
  next hb => exact hb ▸ Chars.letter rfl h
  next =>
  split
  next hb => exact hb ▸ Chars.letter rfl h
  next =>
  split
  next hb => exact hb ▸ Chars.letter rfl h
  next =>
  split
  next hb => exact hb ▸ Chars.letter rfl h
  next =>
    have hcontrol : b.toNat < 32 := by
      obtain ⟨h34, h92⟩ := not_or.mp hquote
      simpa [isPlain, h34, h92] using hb
    -- The unit is no surrogate, and the one byte of its scalar.
    have hhigh : isHigh b.toNat = false := by
      rw [isHigh, Bool.and_eq_false_iff]
      exact Or.inl (decide_eq_false (by omega))
    have hlow : isLow b.toNat = false := by
      rw [isLow, Bool.and_eq_false_iff]
      exact Or.inl (decide_eq_false (by omega))
    have hlength : [48, 48, hexDigit (b.toNat / 16), hexDigit (b.toNat % 16)].length = 4 := rfl
    have hunit := Chars.unit hlength (escapeUnit_control b hcontrol)
      (fun hh => absurd hh (by simp [hhigh])) h
    have hbytes : scalarBytes (unitScalar b.toNat) = [b] := by
      rw [unitScalar, hhigh, hlow, Bool.or_false, if_neg Bool.false_ne_true, scalarBytes,
        if_pos (by omega), UInt8.ofNat_toNat]
    rw [hbytes] at hunit
    exact hunit

lemma chars_escaped (d : List UInt8) : Chars (escaped d) d := by
  induction d with
  | nil => exact Chars.nil
  | cons b d ih =>
    rw [escaped, List.flatMap_cons]
    cases hb : isPlain b with
    | true => exact Chars.plain hb ih
    | false => exact Chars.escape hb ih

lemma quoted_quoted (d : List UInt8) : Quoted (quoted d) d := Quoted.mk (chars_escaped d)

/-! ### Values -/

section

variable {ι : Type} {P : List UInt8 → ι → Prop} {spell : ι → List UInt8}
  (hspell : ∀ u x, P u x → P (spell x) x)

include hspell

lemma Spaced.spelled {u : List UInt8} {x : ι} (h : Spaced P u x) : Spaced P (spell x) x := by
  obtain ⟨-, hx, -⟩ := h
  have hspaced := Spaced.mk Spaces.nil (hspell _ _ hx) Spaces.nil
  rwa [List.nil_append, List.append_nil] at hspaced

lemma Listed.spelled {u : List UInt8} {xs : List ι} (h : Listed P u xs) :
    Listed P (commas (xs.map spell)) xs := by
  induction h with
  | last h => exact Listed.last (h.spelled hspell)
  | @more u rest x xs h hrest ih =>
    cases xs with
    | nil => cases hrest
    | cons y ys => exact Listed.more (h.spelled hspell) ih

lemma Bracketed.spelled {opening closing : UInt8} {u : List UInt8} {xs : List ι}
    (h : Bracketed P opening closing u xs) :
    Bracketed P opening closing (opening :: (commas (xs.map spell) ++ [closing])) xs := by
  cases h with
  | none hw => exact Bracketed.none Spaces.nil
  | some h => exact Bracketed.some (h.spelled hspell)

end

lemma Member.spelled {P : List UInt8 → Datum → Prop} (hspell : ∀ u v, P u v → P v.spell v)
    (u : List UInt8) (member : List UInt8 × Datum) (h : Member P u member) :
    Member P (spellMember member) member := by
  obtain ⟨-, -, -, h⟩ := h
  exact Member.mk (quoted_quoted _) Spaces.nil Spaces.nil (hspell _ _ h)

lemma Scalar.spelled {u : List UInt8} {v : Datum} (h : Scalar u v) : Scalar v.spell v := by
  cases h with
  | null => exact Scalar.null
  | no => exact Scalar.no
  | yes => exact Scalar.yes
  | number h => exact Scalar.number h
  | string h => exact Scalar.string (quoted_quoted _)

lemma IsValue.spelled {levels : ℕ} (u : List UInt8) (v : Datum) (h : IsValue levels u v) :
    IsValue levels v.spell v := by
  induction levels generalizing u v with
  | zero => exact Scalar.spelled h
  | succ levels ih =>
    rcases h with h | ⟨items, rfl, h⟩ | ⟨members, rfl, h⟩
    · exact Or.inl h.spelled
    · refine Or.inr (Or.inl ⟨items, rfl, ?_⟩)
      rw [Datum.spell, spellItems_eq]
      exact Bracketed.spelled ih h
    · refine Or.inr (Or.inr ⟨members, rfl, ?_⟩)
      rw [Datum.spell, spellMembers_eq]
      exact Bracketed.spelled (Member.spelled ih) h

/-- What a meaning is written as is a text of it. -/
theorem IsText.spelled {t : List UInt8} {v : Datum} (h : IsText t v) : IsText v.spell v :=
  Spaced.spelled IsValue.spelled h

end MarkdownCore.Json
