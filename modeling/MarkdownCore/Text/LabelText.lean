import MarkdownCore.Text.Label
import MarkdownCore.Text.Scalars

/-!
# The normal form of a label

The loop's one pass is the three of the normal form: fold, trim, collapse. On UTF-8 the characters
of a text are its scalars, and those of a normal form are folded already, so that it is its own
normal form; neither the case of ASCII letters nor which whitespace separates two words tells two
labels apart.
-/

namespace MarkdownCore.Text

open Inline (isWhitespace byteAt)
open Autolink (decode)
open Squeeze

/-! ### Three passes -/

/-- An image that is one byte of whitespace. -/
def isBlankImage (image : List UInt8) : Bool :=
  match image with
  | [b] => isWhitespace b
  | _ => false

/-- The normal form of a label: each character folded, whitespace trimmed at both ends, and each
run of it inside collapsed to a space. -/
def normalForm (fold : ℕ → Option (List UInt8)) (str : List UInt8) : List UInt8 :=
  (collapse isBlankImage [0x20]
    (trim isBlankImage ((characters str.length str).map (Character.folded fold)))).flatten

lemma isWhitespace_lowered : ∀ b : UInt8, isWhitespace (lowered b) = isWhitespace b := by
  have hall : ∀ n : Fin 256, isWhitespace (lowered (UInt8.ofNat n)) =
      isWhitespace (UInt8.ofNat n) := by decide +kernel
  intro b
  have hb := hall ⟨b.toNat, b.toNat_lt⟩
  rwa [UInt8.ofNat_toNat] at hb

/-- Folding keeps whitespace and what is none. -/
lemma isBlankImage_folded {fold : ℕ → Option (List UInt8)} (hfold : PlainFolds fold)
    (ch : Character) :
    isBlankImage (ch.folded fold) = ch.isSpace := by
  by_cases hone : ∃ b, ch.bytes = [b]
  · obtain ⟨b, hb⟩ := hone
    rw [Character.folded, Character.isSpace, hb]
    exact isWhitespace_lowered b
  · have hmany : ∀ b, ch.bytes ≠ [b] := fun b hb => hone ⟨b, hb⟩
    have hspace : ch.isSpace = false := by
      rw [Character.isSpace]
      split
      next b heq => exact absurd heq (hmany b)
      next => rfl
    have hblank : ∀ image : List UInt8, (∀ b, image ≠ [b]) → isBlankImage image = false := by
      intro image hne
      unfold isBlankImage
      split
      next b => exact absurd rfl (hne b)
      next => rfl
    rw [hspace, folded_of_many hmany]
    cases hentry : (if ch.scalar < cfMax then fold ch.scalar else none) with
    | none => exact hblank _ hmany
    | some image =>
      have hfolds : fold ch.scalar = some image := by
        split at hentry
        next => exact hentry
        next => cases hentry
      rw [Option.getD_some]
      unfold isBlankImage
      split
      next b => exact hfold.plain _ _ hfolds b List.mem_cons_self
      next => rfl

/-- What the loop writes is the normal form. -/
lemma labelRest_eq {fold : ℕ → Option (List UInt8)} (hfold : PlainFolds fold) (fuel : ℕ)
    (str : List UInt8) : labelRest fold false false fuel str =
      (collapse isBlankImage [0x20]
        (trim isBlankImage ((characters fuel str).map (Character.folded fold)))).flatten := by
  have hkeeps : Keeps Character.isSpace Character.blank isBlankImage [0x20]
      fun ch => [ch.folded fold] := by
    refine ⟨fun ch hspace => ⟨_, rfl, ?_⟩, fun ch hword => ⟨by simp, ?_⟩, rfl⟩
    · rw [isBlankImage_folded hfold, hspace]
    · simp only [List.mem_singleton, forall_eq]
      rw [isBlankImage_folded hfold, hword]
  have hpass := hkeeps.pass_flatMap (characters fuel str) false false
  rw [pass_eq, ← List.map_eq_flatMap, ← List.map_eq_flatMap] at hpass
  rw [hpass, labelRest, List.flatMap_def]

/-! ### The anchor's loop -/

section
variable {project : ℕ → ℕ} {granted : ℕ → Bool}

/-- What a projection's table is to hold: images no longer than half as much again as their
scalars' encodings. -/
def NarrowImages (project : ℕ → ℕ) : Prop :=
  ∀ uc, uc < 0x110000 → project uc ≠ 0 → 2 * scalarWidth (project uc) ≤ 3 * scalarWidth uc

/-- The projection of an anchor. -/
def anchorImage (project : ℕ → ℕ) (str : List UInt8) : List UInt8 :=
  (characters str.length str).flatMap (Character.projected project)

lemma scalarWidth_bounds (uc : ℕ) : 0 < scalarWidth uc ∧ scalarWidth uc ≤ 4 := by
  rw [scalarWidth]
  split_ifs <;> omega

lemma length_encodeScalar (uc : ℕ) : (encodeScalar uc).length = scalarWidth uc := by
  rw [encodeScalar, scalarWidth]
  split_ifs <;> rfl

/-- A character of one byte that has a scalar is ASCII. -/
lemma scalar_of_one {head : UInt8} {tail : List UInt8} (h : (decode (head :: tail) 0).1 = 1) :
    (decode (head :: tail) 0).2 < 0x80 ∨ (decode (head :: tail) 0).2 = 0x110000 := by
  simp only [decode, Autolink.noScalar] at h ⊢
  split_ifs at h ⊢ with h₁ h₂ h₃ h₄ h₅ h₆ h₇ <;> simp_all

/-- Two bytes for each byte of a character bound its projection. -/
lemma scalarWidth_le (hnarrow : NarrowImages project) {head : UInt8} {tail : List UInt8}
    (hkept : anchorScalar project (decode (head :: tail) 0).2 ≠ 0) :
    scalarWidth (anchorScalar project (decode (head :: tail) 0).2) ≤
      2 * (decode (head :: tail) 0).1 := by
  obtain ⟨hpos, -, -⟩ := @decode_le (head :: tail) (by simp)
  have hfour := (scalarWidth_bounds (anchorScalar project (decode (head :: tail) 0).2)).2
  by_cases hone : (decode (head :: tail) 0).1 = 1
  · rcases scalar_of_one hone with hascii | hnone
    · have himage : anchorScalar project (decode (head :: tail) 0).2 =
          project (decode (head :: tail) 0).2 := if_neg (by omega)
      rw [himage] at hkept ⊢
      have hle := hnarrow _ (by omega) hkept
      have hwidth : scalarWidth (decode (head :: tail) 0).2 = 1 := if_pos hascii
      omega
    · rw [anchorScalar, if_pos (by omega)] at hkept
      exact absurd rfl hkept
  · omega

/-- Two bytes for each byte left bound what is left to write. -/
lemma length_projected_le (hnarrow : NarrowImages project) :
    ∀ (fuel : ℕ) (str : List UInt8),
      ((characters fuel str).flatMap (Character.projected project)).length ≤ 2 * str.length := by
  intro fuel
  induction fuel with
  | zero =>
    intro str
    cases str <;> simp [characters]
  | succ fuel ih =>
    intro str
    cases str with
    | nil => simp [characters]
    | cons head tail =>
      obtain ⟨hpos, hle, -⟩ := @decode_le (head :: tail) (by simp)
      have hrest := ih ((head :: tail).drop (decode (head :: tail) 0).1)
      rw [List.length_drop] at hrest
      rw [characters_cons, List.flatMap_cons, List.length_append, Character.projected]
      split
      next => simp only [List.length_nil]; omega
      next hkept =>
        have hwidth := scalarWidth_le hnarrow hkept
        rw [length_encodeScalar]
        change scalarWidth (anchorScalar project (decode (head :: tail) 0).2) + _ ≤ _
        omega

/-- The loop writes what is left of the projection, never past the room. -/
lemma anchorFrom_ends :
    ∀ (fuel : ℕ) (str : List UInt8) (c : ImageCursor), str.length ≤ fuel → c.Good →
      ∃ buf, anchorFrom project granted fuel c str = .ok buf ∧
        Ends granted c.out ((characters fuel str).flatMap (Character.projected project)) buf := by
  intro fuel
  induction fuel with
  | zero =>
    intro str c hfuel hc
    obtain rfl : str = [] := List.eq_nil_of_length_eq_zero (by omega)
    exact ⟨_, by rw [anchorFrom], hc.ends⟩
  | succ fuel ih =>
    intro str c hfuel hc
    cases str with
    | nil => exact ⟨_, by rw [anchorFrom], hc.ends⟩
    | cons head tail =>
      obtain ⟨hpos, hle, -⟩ := @decode_le (head :: tail) (by simp)
      have hleft : ((head :: tail).drop (decode (head :: tail) 0).1).length ≤ fuel := by
        rw [List.length_drop]
        omega
      rw [anchorFrom, characters_cons, List.flatMap_cons]
      dsimp only
      have himage : (firstCharacter (head :: tail)).projected project =
          if anchorScalar project (decode (head :: tail) 0).2 = 0 then []
          else encodeScalar (anchorScalar project (decode (head :: tail) 0).2) := rfl
      rw [himage]
      by_cases hremoved : anchorScalar project (decode (head :: tail) 0).2 = 0
      · rw [if_pos hremoved, if_pos hremoved]
        exact ih _ c hleft hc
      · rw [if_neg hremoved, if_neg hremoved]
        obtain ⟨hwidth, hfour⟩ :=
          scalarWidth_bounds (anchorScalar project (decode (head :: tail) 0).2)
        rcases @ensureRoom_spec granted c hc 4 _ _ hwidth hfour (Nat.le_add_right _ _) with
          ⟨buf, hensure, hoom, hcontent, hlimit⟩ | ⟨c', hensure, hc', hout, hroom⟩
        · rw [hensure]
          refine ⟨buf, rfl, Ends.poisoned hoom hcontent ?_ hlimit⟩
          rw [List.length_append, length_encodeScalar]
          omega
        · rw [hensure]
          dsimp only
          obtain ⟨hwrite, hgood⟩ := @ImageCursor.Good.write c' hc'
            (encodeScalar (anchorScalar project (decode (head :: tail) 0).2)) (by omega)
            (by rw [hout, length_encodeScalar]; exact hroom)
          rw [hwrite]
          dsimp only [bind, Except.bind]
          obtain ⟨buf, hloop, hends⟩ := ih _ _ hleft hgood
          rw [hout] at hends
          exact ⟨buf, hloop, Ends.append hends⟩

end

end MarkdownCore.Text
