import Mathlib.Data.List.Infix
import MarkdownCore.Autolink.DomainRun
import MarkdownCore.Library.Squeeze
import MarkdownCore.Text.Image

/-!
# What a write cursor writes

Before each character the room holds its image, or more is reserved, or the buffer is poisoned
since the image would take it past the limit. So the loops write the image of what they read, and
never past the room; and since a run of whitespace is remembered and written before the next
character, the image of a label is its folded characters trimmed and collapsed.
-/

namespace MarkdownCore.Text

open Inline (isWhitespace byteAt)
open Autolink (decode decode_width)
open Squeeze

/-! ### Moves -/

/-- Two moves that may overlap leave an image of up to eight bytes. -/
lemma copyImage_eq {image : List UInt8} (hpos : 0 < image.length) (hle : image.length ≤ 8) :
    copyImage image = image := by
  match image, hpos, hle with
  | [_], _, _ => rfl
  | [_, _], _, _ => rfl
  | [_, _, _], _, _ => rfl
  | [_, _, _, _], _, _ => rfl
  | [_, _, _, _, _], _, _ => rfl
  | [_, _, _, _, _, _], _, _ => rfl
  | [_, _, _, _, _, _, _], _, _ => rfl
  | [_, _, _, _, _, _, _, _], _, _ => rfl

/-! ### The room -/

/-- A buffer that is not poisoned: its content leaves room for the terminator, and its storage
does not reach past the limit. -/
structure Strbuf.Good (buf : Strbuf) : Prop where
  fresh : buf.oom = false
  room : buf.content.length < buf.asize ∨ buf.asize = 0 ∧ buf.content = []
  capped : buf.asize ≤ strbufLimit + 1

/-- A cursor whose room ends before the terminator's byte, or that has none yet. -/
structure ImageCursor.Good (c : ImageCursor) : Prop where
  fresh : c.buf.oom = false
  le : c.out.length ≤ c.stop
  room : c.stop < c.buf.asize ∨ c.buf.asize = 0 ∧ c.stop = 0 ∧ c.buf.content = []
  capped : c.buf.asize ≤ strbufLimit + 1

variable {granted : ℕ → Bool} {c : ImageCursor}

lemma Strbuf.Good.cursor {dest : Strbuf} (h : dest.Good) :
    ImageCursor.Good ⟨dest, dest.content, dest.content.length⟩ := by
  refine ⟨h.fresh, le_rfl, ?_, h.capped⟩
  rcases h.room with hroom | ⟨hzero, hnil⟩
  · exact Or.inl hroom
  · exact Or.inr ⟨hzero, by rw [hnil]; rfl, hnil⟩

lemma ImageCursor.Good.length_le (h : c.Good) : c.out.length ≤ strbufLimit := by
  have hle := h.le
  have hcapped := h.capped
  rcases h.room with hroom | ⟨-, hzero, -⟩ <;> omega

/-- What was written becomes the content. -/
lemma ImageCursor.Good.content_finish (h : c.Good) : (finishImage c.buf c.out).content = c.out := by
  rw [finishImage]
  split
  next => rfl
  next hzero =>
    have hle := h.le
    rcases h.room with hroom | ⟨-, hstop, hnil⟩
    · omega
    · rw [hnil]
      exact (List.eq_nil_of_length_eq_zero (by omega)).symm

lemma ImageCursor.Good.oom_finish (h : c.Good) : (finishImage c.buf c.out).oom = false := by
  rw [finishImage]
  split <;> exact h.fresh

lemma asize_finish (buf : Strbuf) (out : List UInt8) : (finishImage buf out).asize = buf.asize := by
  rw [finishImage]
  split <;> rfl

/-- Growing to a size up to the limit makes room for it, or poisons the buffer where storage is
refused. -/
lemma grow_spec {buf : Strbuf} (hfresh : buf.oom = false) (hcapped : buf.asize ≤ strbufLimit + 1)
    {target : ℕ} (hpos : 0 < target) (hle : target ≤ strbufLimit) :
    (buf.grow granted target).content = buf.content ∧
      ((buf.grow granted target).oom = true ∧ (∃ n, granted n = false) ∨
        (buf.grow granted target).oom = false ∧ target < (buf.grow granted target).asize ∧
          (buf.grow granted target).asize ≤ strbufLimit + 1) := by
  rw [Strbuf.grow, if_neg (by omega)]
  by_cases hroom : target < buf.asize
  · rw [if_pos (Or.inr hroom)]
    exact ⟨rfl, Or.inr ⟨hfresh, hroom, hcapped⟩⟩
  · rw [if_neg (by simp [hfresh]; omega), if_neg (by omega)]
    dsimp only
    obtain ⟨size, hsize⟩ : ∃ size, size = if (target + target / 2 + 1 + 7) / 8 * 8 > strbufLimit + 1
        then strbufLimit + 1 else (target + target / 2 + 1 + 7) / 8 * 8 := ⟨_, rfl⟩
    have hbounds : target < size ∧ size ≤ strbufLimit + 1 := by
      split at hsize <;> omega
    rw [← hsize]
    split
    next => exact ⟨rfl, Or.inr ⟨hfresh, hbounds⟩⟩
    next hrefused => exact ⟨rfl, Or.inl ⟨rfl, size, by simpa using hrefused⟩⟩

/-- A character's room is there, or the buffer is poisoned with what was written as its content:
since the image would pass the limit, or since storage was refused. -/
lemma ensureRoom_spec (h : c.Good) {most width bound : ℕ} (hpos : 0 < width)
    (hmost : width ≤ most) (hbound : width ≤ bound) :
    (∃ buf, ensureRoom granted most c width bound = .error buf ∧ buf.oom = true ∧
        buf.content = c.out ∧
        ((∀ n, granted n = true) → strbufLimit < c.out.length + width)) ∨
      ∃ c' : ImageCursor, ensureRoom granted most c width bound = .ok c' ∧ c'.Good ∧
        c'.out = c.out ∧
        c.out.length + width ≤ c'.stop := by
  by_cases hshort : c.stop - c.out.length < width
  · have hensure : ensureRoom granted most c width bound = reserveImage granted c width bound := by
      rw [ensureRoom, if_pos (by omega), if_pos hshort]
    have hcontent := h.content_finish
    have hlimit := h.length_le
    rw [hensure, reserveImage]
    dsimp only
    rw [hcontent]
    by_cases hroom : width > strbufLimit - c.out.length
    · rw [if_pos hroom]
      exact Or.inl ⟨_, rfl, rfl, rfl, fun _ => by omega⟩
    · rw [if_neg hroom]
      obtain ⟨target, htarget⟩ : ∃ target, target = c.out.length +
          if bound < strbufLimit - c.out.length then bound else strbufLimit - c.out.length :=
        ⟨_, rfl⟩
      have hbounds : c.out.length + width ≤ target ∧ target ≤ strbufLimit := by
        split at htarget <;> omega
      rw [← htarget]
      obtain ⟨hkept, hgrown⟩ := @grow_spec granted _ h.oom_finish
        (by rw [asize_finish]; exact h.capped) target (by omega) hbounds.2
      rw [hcontent] at hkept
      obtain ⟨grown, hgrow⟩ : ∃ grown, grown = (finishImage c.buf c.out).grow granted target :=
        ⟨_, rfl⟩
      rw [← hgrow] at hkept hgrown ⊢
      rcases hgrown with ⟨hoom, n, hrefused⟩ | ⟨hfresh, hasize, hcapped⟩
      · rw [if_pos hoom]
        refine Or.inl ⟨_, rfl, hoom, hkept, fun hall => ?_⟩
        rw [hall n] at hrefused
        cases hrefused
      · rw [if_neg (by simp [hfresh])]
        have hle : grown.content.length ≤ grown.asize - 1 := by
          rw [hkept]
          omega
        have hlt : grown.asize - 1 < grown.asize := by omega
        have hstop : c.out.length + width ≤ grown.asize - 1 := by omega
        exact Or.inr ⟨_, rfl, ⟨hfresh, hle, Or.inl hlt, hcapped⟩, hkept, hstop⟩
  · have hensure : ensureRoom granted most c width bound = .ok c := by
      rw [ensureRoom, if_neg hshort, ite_self]
    exact Or.inr ⟨c, hensure, h, rfl, by omega⟩

/-- What fits the room is written. -/
lemma ImageCursor.Good.write (h : c.Good) {bytes : List UInt8} (hpos : 0 < c.stop)
    (hroom : c.out.length + bytes.length ≤ c.stop) :
    c.write bytes = .ok { c with out := c.out ++ bytes } ∧
      ImageCursor.Good { c with out := c.out ++ bytes } := by
  have hstop : c.stop < c.buf.asize := by
    rcases h.room with hlt | ⟨-, hzero, -⟩
    · exact hlt
    · omega
  refine ⟨?_, h.fresh, ?_, h.room, h.capped⟩
  · rw [ImageCursor.write, if_pos ⟨hroom, hstop⟩]
  · change (c.out ++ bytes).length ≤ c.stop
    rw [List.length_append]
    exact hroom

/-- A pending space is written where it fits. -/
lemma ImageCursor.Good.writeSpace (h : c.Good) (space : Bool) (hpos : 0 < c.stop)
    (hroom : c.out.length + space.toNat ≤ c.stop) :
    ∃ c' : ImageCursor, c.writeSpace space = .ok c' ∧ c'.Good ∧
      c'.out = c.out ++ (if space then [0x20] else []) ∧ c'.stop = c.stop := by
  cases space with
  | true =>
    obtain ⟨hwrite, hgood⟩ := @ImageCursor.Good.write c h [0x20] hpos hroom
    exact ⟨_, hwrite, hgood, rfl, rfl⟩
  | false => exact ⟨c, rfl, h, (List.append_nil _).symm, rfl⟩

/-- How a projection ends: its image appended, within the limit; or the buffer poisoned behind a
part of the image, which with all storage granted is only where the image passes the limit. -/
def Ends (granted : ℕ → Bool) (before image : List UInt8) (buf : Strbuf) : Prop :=
  buf.oom = false ∧ buf.content = before ++ image ∧ before.length + image.length ≤ strbufLimit ∨
    buf.oom = true ∧ (∃ written, written <+: image ∧ buf.content = before ++ written) ∧
      ((∀ n, granted n = true) → strbufLimit < before.length + image.length)

lemma Ends.append {before image more : List UInt8} {buf : Strbuf}
    (h : Ends granted (before ++ image) more buf) : Ends granted before (image ++ more) buf := by
  rcases h with ⟨hfresh, hcontent, hle⟩ | ⟨hoom, ⟨written, hprefix, hcontent⟩, hlimit⟩
  · refine Or.inl ⟨hfresh, by rw [hcontent, List.append_assoc], ?_⟩
    rw [List.length_append] at hle ⊢
    omega
  · refine Or.inr ⟨hoom, ⟨image ++ written, (List.prefix_append_right_inj image).mpr hprefix,
      by rw [hcontent, List.append_assoc]⟩, fun hall => ?_⟩
    have := hlimit hall
    rw [List.length_append] at this ⊢
    omega

lemma ImageCursor.Good.ends (h : c.Good) : Ends granted c.out [] (finishImage c.buf c.out) := by
  refine Or.inl ⟨h.oom_finish, by rw [h.content_finish, List.append_nil], ?_⟩
  have := h.length_le
  simpa using this

lemma Ends.poisoned {image : List UInt8} {buf : Strbuf} {out : List UInt8} {width : ℕ}
    (hoom : buf.oom = true) (hcontent : buf.content = out) (hwidth : width ≤ image.length)
    (hlimit : (∀ n, granted n = true) → strbufLimit < out.length + width) :
    Ends granted out image buf :=
  Or.inr ⟨hoom, ⟨[], List.nil_prefix, by rw [hcontent, List.append_nil]⟩,
    fun hall => by have := hlimit hall; omega⟩

end MarkdownCore.Text
