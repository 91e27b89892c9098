import MarkdownCore.Text.ImageRun

/-!
# Labels and anchors

The characters of a text, and what the two loops write of them: of a label the squeezed characters
folded, of an anchor the projected scalars.
-/

namespace MarkdownCore.Text

open Inline (isWhitespace byteAt)
open Autolink (decode decode_width decode_ascii)
open Squeeze

/-! ### Characters -/

/-- A character as a walk over a text meets it: its bytes and its scalar. -/
structure Character where
  bytes : List UInt8
  scalar : ℕ
  deriving DecidableEq, Repr

/-- The characters of a text. -/
def characters : ℕ → List UInt8 → List Character
  | _, [] => []
  | 0, _ => []
  | fuel + 1, head :: tail =>
    let str := head :: tail
    ⟨str.take (decode str 0).1, (decode str 0).2⟩ :: characters fuel (str.drop (decode str 0).1)

def Character.isSpace (ch : Character) : Bool :=
  match ch.bytes with
  | [b] => isWhitespace b
  | _ => false

/-- A character folded: its fold, its byte in lower case, or its bytes. -/
def Character.folded (fold : ℕ → Option (List UInt8)) (ch : Character) : List UInt8 :=
  match ch.bytes with
  | [b] => [lowered b]
  | bytes => (if ch.scalar < cfMax then fold ch.scalar else none).getD bytes

/-- A space. -/
def Character.blank : Character := ⟨[0x20], 0x20⟩

/-- The scalars of a character that its projection keeps. -/
def Character.projected (project : ℕ → ℕ) (ch : Character) : List UInt8 :=
  if anchorScalar project ch.scalar = 0 then [] else encodeScalar (anchorScalar project ch.scalar)

lemma decode_le {str : List UInt8} (h : str ≠ []) :
    0 < (decode str 0).1 ∧ (decode str 0).1 ≤ str.length ∧ (decode str 0).1 ≤ 4 := by
  have hpos := List.length_pos_iff.mpr h
  have hwidth := @decode_width str 0 hpos
  refine ⟨hwidth.1, ?_, hwidth.2.1⟩
  simp only [decode]
  split_ifs <;> simp <;> omega

section
variable {fold : ℕ → Option (List UInt8)} {granted : ℕ → Bool}

/-- What a fold table is to hold: images of one to six bytes, none of them whitespace. -/
structure PlainFolds (fold : ℕ → Option (List UInt8)) : Prop where
  nonempty : ∀ c image, fold c = some image → image ≠ []
  short : ∀ c image, fold c = some image → image.length ≤ 6
  plain : ∀ c image, fold c = some image → ∀ b ∈ image, isWhitespace b = false

/-! ### The first character -/

variable {head : UInt8} {tail : List UInt8}

/-- The character that begins a text. -/
def firstCharacter (str : List UInt8) : Character := ⟨str.take (decode str 0).1, (decode str 0).2⟩

lemma characters_cons (fuel : ℕ) :
    characters (fuel + 1) (head :: tail) = firstCharacter (head :: tail) ::
      characters fuel ((head :: tail).drop (decode (head :: tail) 0).1) := rfl

lemma bytes_of_one (h : (decode (head :: tail) 0).1 = 1) :
    (firstCharacter (head :: tail)).bytes = [head] := by
  change (head :: tail).take _ = _
  rw [h]
  rfl

lemma length_bytes :
    (firstCharacter (head :: tail)).bytes.length = (decode (head :: tail) 0).1 := by
  change ((head :: tail).take _).length = _
  rw [List.length_take, min_eq_left (decode_le (by simp)).2.1]

/-- Only a character of one byte is one byte. -/
lemma bytes_ne_singleton (h : (decode (head :: tail) 0).1 ≠ 1) (b : UInt8) :
    (firstCharacter (head :: tail)).bytes ≠ [b] := by
  intro heq
  have hlength := @length_bytes head tail
  rw [heq] at hlength
  exact h hlength.symm

lemma isSpace_first : (firstCharacter (head :: tail)).isSpace = true ↔
    (decode (head :: tail) 0).1 = 1 ∧ isWhitespace head = true := by
  by_cases hone : (decode (head :: tail) 0).1 = 1
  · rw [Character.isSpace, bytes_of_one hone]
    simp [hone]
  · have hne := bytes_ne_singleton hone
    rw [Character.isSpace]
    split
    next b heq => exact absurd heq (hne b)
    next => simp [hone]

lemma folded_of_many {ch : Character} (h : ∀ b, ch.bytes ≠ [b]) : ch.folded fold =
    (if ch.scalar < cfMax then fold ch.scalar else none).getD ch.bytes := by
  rw [Character.folded]
  split
  next b heq => exact absurd heq (h b)
  next => rfl

/-- The entry the loop reads is the one of the character. -/
lemma folded_first : (firstCharacter (head :: tail)).folded fold =
    if (decode (head :: tail) 0).1 = 1 then [lowered head]
    else
      (foldEntry fold (head :: tail)).getD ((head :: tail).take (decode (head :: tail) 0).1) := by
  by_cases hone : (decode (head :: tail) 0).1 = 1
  · rw [if_pos hone, Character.folded, bytes_of_one hone]
  · have hpos := (@decode_le (head :: tail) (by simp)).1
    have hmany : (decode (head :: tail) 0).1 > 1 := by omega
    have hentry : foldEntry fold (head :: tail) =
        if (decode (head :: tail) 0).2 < cfMax then fold (decode (head :: tail) 0).2 else none := by
      simp [foldEntry, hmany]
    rw [if_neg hone, folded_of_many (bytes_ne_singleton hone), hentry]
    rfl

lemma foldEntry_some {image : List UInt8} (h : foldEntry fold (head :: tail) = some image) :
    fold (decode (head :: tail) 0).2 = some image ∧ 1 < (decode (head :: tail) 0).1 := by
  rw [foldEntry] at h
  split at h
  next hin => exact ⟨h, hin.1⟩
  next => cases h

/-- A folded character is one to six bytes, at most three for each of its own. -/
lemma length_folded (hfold : PlainFolds fold) :
    0 < ((firstCharacter (head :: tail)).folded fold).length ∧
      ((firstCharacter (head :: tail)).folded fold).length ≤ 6 ∧
      ((firstCharacter (head :: tail)).folded fold).length ≤ 3 * (decode (head :: tail) 0).1 := by
  obtain ⟨hpos, hle, hfour⟩ := @decode_le (head :: tail) (by simp)
  rw [folded_first]
  split
  next hone => exact ⟨by simp, by simp, by simp [hone]⟩
  next hmany =>
    cases hentry : foldEntry fold (head :: tail) with
    | none =>
      rw [Option.getD_none, List.length_take, min_eq_left hle]
      omega
    | some image =>
      obtain ⟨hfolds, hwide⟩ := foldEntry_some hentry
      have hne := List.length_pos_iff.mpr (hfold.nonempty _ _ hfolds)
      have hshort := hfold.short _ _ hfolds
      rw [Option.getD_some]
      omega

/-- The exact length asked for is the one of the pending space and the character folded. -/
lemma labelWidth_eq (space : Bool) : labelWidth fold space (head :: tail) =
    space.toNat + ((firstCharacter (head :: tail)).folded fold).length := by
  rw [labelWidth, folded_first]
  split
  next hone =>
    have hnone : foldEntry fold (head :: tail) = none := by
      rw [foldEntry, if_neg (by rw [hone]; simp)]
    rw [hnone, hone]
    rfl
  next hmany =>
    cases hentry : foldEntry fold (head :: tail) with
    | none =>
      rw [Option.map_none, Option.getD_none, Option.getD_none, List.length_take,
        min_eq_left (decode_le (by simp)).2.1]
    | some image => rfl

/-- What is written of a character is the character folded. -/
lemma labelImage_eq (hfold : PlainFolds fold) :
    labelImage fold (head :: tail) = (firstCharacter (head :: tail)).folded fold := by
  have hlength := @length_folded fold head tail hfold
  rw [folded_first] at hlength ⊢
  rw [labelImage]
  split
  next => rfl
  next hmany =>
    rw [if_neg hmany] at hlength
    exact copyImage_eq hlength.1 (by omega)

lemma folded_blank : Character.blank.folded fold = [0x20] := rfl

/-! ### The label's loop -/

/-- What is to be written of a text, by what was met before. -/
def labelRest (fold : ℕ → Option (List UInt8)) (started space : Bool) (fuel : ℕ)
    (str : List UInt8) : List UInt8 :=
  (Squeeze.pass Character.isSpace Character.blank started space (characters fuel str)).flatMap
    (Character.folded fold)

lemma labelRest_space {started space : Bool} {fuel : ℕ}
    (h : (firstCharacter (head :: tail)).isSpace = true) :
    labelRest fold started space (fuel + 1) (head :: tail) =
      labelRest fold started started fuel ((head :: tail).drop (decode (head :: tail) 0).1) := by
  rw [labelRest, characters_cons, Squeeze.pass, if_pos h]
  rfl

lemma labelRest_word {started space : Bool} {fuel : ℕ}
    (h : (firstCharacter (head :: tail)).isSpace = false) :
    labelRest fold started space (fuel + 1) (head :: tail) =
      (if space then [0x20] else []) ++ ((firstCharacter (head :: tail)).folded fold ++
        labelRest fold true false fuel ((head :: tail).drop (decode (head :: tail) 0).1)) := by
  rw [labelRest, characters_cons, Squeeze.pass, if_neg (by simp [h])]
  cases space with
  | true =>
    rw [if_pos rfl, List.flatMap_cons, List.flatMap_cons, folded_blank]
    rfl
  | false =>
    rw [if_neg (by simp), List.flatMap_cons]
    rfl

/-- Three bytes for each byte left bound what is left to write, with a pending space. -/
lemma length_labelRest_le (hfold : PlainFolds fold) :
    ∀ (fuel : ℕ) (str : List UInt8) (started space : Bool),
      (labelRest fold started space fuel str).length ≤ space.toNat + 3 * str.length := by
  intro fuel
  induction fuel with
  | zero =>
    intro str started space
    cases str <;> simp [labelRest, characters, Squeeze.pass]
  | succ fuel ih =>
    intro str started space
    cases str with
    | nil => simp [labelRest, characters, Squeeze.pass]
    | cons head tail =>
      obtain ⟨hpos, hle, -⟩ := @decode_le (head :: tail) (by simp)
      have hdrop : ((head :: tail).drop (decode (head :: tail) 0).1).length =
          (head :: tail).length - (decode (head :: tail) 0).1 := List.length_drop
      cases hspace : (firstCharacter (head :: tail)).isSpace with
      | true =>
        have hrest := ih ((head :: tail).drop (decode (head :: tail) 0).1) started started
        have hone := Bool.toNat_le started
        rw [labelRest_space hspace]
        omega
      | false =>
        have hrest := ih ((head :: tail).drop (decode (head :: tail) 0).1) true false
        have hfolded := (@length_folded fold head tail hfold).2.2
        rw [labelRest_word hspace, List.length_append, List.length_append]
        have hfalse : Bool.toNat false = 0 := rfl
        have hheld : (if space = true then [(0x20 : UInt8)] else []).length = space.toNat := by
          cases space <;> rfl
        omega

/-- The bound asked for at a character holds the rest of the label's image. -/
lemma length_labelRest_le_bound (hfold : PlainFolds fold) {fuel : ℕ} {started space : Bool}
    (h : (firstCharacter (head :: tail)).isSpace = false) :
    (labelRest fold started space (fuel + 1) (head :: tail)).length ≤
      labelBound fold space (head :: tail) := by
  have hrest := length_labelRest_le hfold fuel
    ((head :: tail).drop (decode (head :: tail) 0).1) true false
  have hheld : (if space = true then [(0x20 : UInt8)] else []).length = space.toNat := by
    cases space <;> rfl
  rw [labelRest_word h, List.length_append, List.length_append, hheld, labelBound, labelWidth_eq]
  rw [List.length_drop] at hrest
  have hfalse : Bool.toNat false = 0 := rfl
  omega

/-- The loop writes what is left of the label, never past the room. -/
lemma normalizeFrom_ends (hfold : PlainFolds fold) (first : ℕ) :
    ∀ (fuel : ℕ) (str : List UInt8) (c : ImageCursor) (space : Bool), str.length ≤ fuel → c.Good →
      first ≤ c.out.length →
      ∃ buf, normalizeFrom fold granted first fuel c space str = .ok buf ∧
        Ends granted c.out (labelRest fold (decide (c.out.length > first)) space fuel str) buf := by
  intro fuel
  induction fuel with
  | zero =>
    intro str c space hfuel hc _
    obtain rfl : str = [] := List.eq_nil_of_length_eq_zero (by omega)
    exact ⟨_, by rw [normalizeFrom], hc.ends⟩
  | succ fuel ih =>
    intro str c space hfuel hc hfirst
    cases str with
    | nil => exact ⟨_, by rw [normalizeFrom], hc.ends⟩
    | cons head tail =>
      obtain ⟨hpos, hle, -⟩ := @decode_le (head :: tail) (by simp)
      have hleft : ((head :: tail).drop (decode (head :: tail) 0).1).length ≤ fuel := by
        rw [List.length_drop]
        omega
      rw [normalizeFrom]
      cases hspace : (firstCharacter (head :: tail)).isSpace with
      | true =>
        rw [if_pos (isSpace_first.mp hspace), labelRest_space hspace]
        exact ih _ c _ hleft hc hfirst
      | false =>
        have hword : ¬ ((decode (head :: tail) 0).1 = 1 ∧ isWhitespace head = true) := by
          rw [← isSpace_first, hspace]
          simp
        rw [if_neg hword, labelRest_word hspace]
        obtain ⟨hfolded, hsix, -⟩ := @length_folded fold head tail hfold
        have hwidth := @labelWidth_eq fold head tail space
        have hone := Bool.toNat_le space
        have hbound : labelWidth fold space (head :: tail) ≤ labelBound fold space (head :: tail) :=
          Nat.le_add_right _ _
        have hheld : (if space = true then [(0x20 : UInt8)] else []).length = space.toNat := by
          cases space <;> rfl
        rcases @ensureRoom_spec granted c hc 7 _ _ (by omega) (by omega) hbound with
          ⟨buf, hensure, hoom, hcontent, hlimit⟩ | ⟨c', hensure, hc', hout, hroom⟩
        · rw [hensure]
          refine ⟨buf, rfl, Ends.poisoned hoom hcontent ?_ hlimit⟩
          rw [List.length_append, List.length_append, hheld]
          omega
        · rw [hensure]
          dsimp only
          -- the pending space, and then the character
          obtain ⟨c'', hwrite, hgood, hout', hstop⟩ := hc'.writeSpace space (by omega)
            (by rw [hout]; omega)
          rw [hout] at hout'
          rw [hwrite]
          dsimp only [bind, Except.bind]
          rw [labelImage_eq hfold]
          obtain ⟨hwrite', hgood'⟩ := @ImageCursor.Good.write c'' hgood
            ((firstCharacter (head :: tail)).folded fold) (by omega)
            (by rw [hout', List.length_append, hheld, hstop]; omega)
          rw [hwrite']
          dsimp only
          obtain ⟨buf, hloop, hends⟩ := ih _ _ false hleft hgood'
            (by simp only [hout', List.length_append]; omega)
          refine ⟨buf, hloop, ?_⟩
          have hstarted : decide ((c''.out ++
              (firstCharacter (head :: tail)).folded fold).length > first) = true := by
            rw [decide_eq_true_eq, List.length_append, hout', List.length_append]
            omega
          rw [hstarted, hout'] at hends
          exact Ends.append (Ends.append hends)

end

end MarkdownCore.Text
