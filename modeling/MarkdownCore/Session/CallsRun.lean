import MarkdownCore.Session.Calls

/-!
# What a refused call leaves

A call that is refused leaves the session; an edit that fails for storage leaves the text and the
document it had, or no document, and then each later edit is refused. Where the parse keeps to its
contract (`Parse.Sound`), no document is held after a flush, and none is answered by any call, that
is not the reading of the text held.
-/

namespace MarkdownCore.Calls

open Text (Input Replaced Decisions TextUnit columnOffset columns next trim walkColumn)
open Lsp (sourceCapacity replace lineOf)
open Declarations (Key)

/-! ### Cursors -/

/-- The offsets whole scalars reach from a line's start. -/
inductive Boundary (source : List UInt8) (start stop : ℕ) : ℕ → Prop where
  | start : Boundary source start stop start
  | next {at' : ℕ} : Boundary source start stop at' → at' < stop →
      Boundary source start stop (next source at' stop)

lemma lt_next (source : List UInt8) (at' stop : ℕ) : at' < next source at' stop := by
  rw [next]
  omega

/-- The columns of two stretches of a line, one after the other. -/
lemma columns_add {source : List UInt8} {a b c : ℕ} (hab : a ≤ b) (hbc : b ≤ c) (unit : TextUnit) :
    columns source a c unit = columns source a b unit + columns source b c unit := by
  cases unit with
  | utf8 =>
    simp only [columns]
    omega
  | utf16 =>
    obtain ⟨i, rfl⟩ := Nat.exists_eq_add_of_le hab
    obtain ⟨j, rfl⟩ := Nat.exists_eq_add_of_le hbc
    have hwhole : a + i + j - a = i + j := by omega
    simp only [columns]
    rw [hwhole, Nat.add_sub_cancel_left, Nat.add_sub_cancel_left, List.take_add, List.map_append,
      List.sum_append, List.drop_drop]

namespace Boundary

variable {source : List UInt8} {start stop offset : ℕ}

lemma le (h : Boundary source start stop offset) : start ≤ offset := by
  induction h with
  | start => exact le_rfl
  | next _ _ ih => exact ih.trans (lt_next _ _ _).le

end Boundary

variable {P T K : Type*} {parse : Parse P T K} {granted : Granted} {s s' : Session P T K}

/-- What every call keeps: the text is within the capacity, and a flushed session with a document
has the lines of its text. -/
structure Held (s : Session P T K) : Prop where
  bounded : s.text.length ≤ sourceCapacity
  lines : s.flushed = true → s.root ≠ none → s.input.source = s.text ∧ s.input.Whole

namespace Session

lemma offset_eq (h : s.input.source = s.text) (position : Text.Cursor) :
    s.offset position = s.input.offset s.unit position := by
  rw [offset, Input.offset, h]

lemma lineStart_le (hsource : s.input.source = s.text) (hwhole : s.input.Whole) (line : ℕ) :
    s.lineStart line ≤ Input.lineStart s.text line := by
  rw [Session.lineStart, hwhole.lineSpan_eq, hsource, Input.span]
  split
  next => exact le_rfl
  next hlast =>
    split
    next =>
      rw [Input.lineStart, List.getElem?_eq_none (not_lt.mp hlast)]
      exact le_rfl
    next => exact Nat.zero_le _

end Session

/-! ### The text taken and read -/

/-- What a reading of the text leaves: the text, and the document with the text's lines, or
none. -/
structure Outcome (s : Session P T K) (r : Status × Session P T K) : Prop where
  text : r.2.text = s.text
  unit : r.2.unit = s.unit
  flushed : r.2.flushed = true
  result : r.1 = .ok ∧ r.2.root ≠ none ∧ r.2.input.source = r.2.text ∧ r.2.input.Whole ∨
    r.1 = .allocationFailed ∧ r.2.root = none

/-- The lines of the text, and a document: what a session's readings of its text keep. -/
structure Stands (s s' : Session P T K) : Prop where
  text : s'.text = s.text
  unit : s'.unit = s.unit
  flushed : s'.flushed = true
  root : s'.root ≠ none
  source : s'.input.source = s'.text
  whole : s'.input.Whole

lemma Stands.trans {s'' : Session P T K} (h : Stands s s') (h' : Stands s' s'') : Stands s s'' :=
  ⟨h'.text.trans h.text, h'.unit.trans h.unit, h'.flushed, h'.root, h'.source, h'.whole⟩

lemma Outcome.stands {r : Status × Session P T K} (h : Outcome s r) (hok : r.1 = .ok) :
    Stands s r.2 := by
  obtain ⟨-, hroot, hsource, hwhole⟩ | ⟨hfailed, -⟩ := h.result
  · exact ⟨h.text, h.unit, h.flushed, hroot, hsource, hwhole⟩
  · rw [hok] at hfailed
    cases hfailed

/-- What an edit that fails before the text is replaced leaves: all but the parse, the context and
what edits keep. -/
structure Kept (s s' : Session P T K) : Prop where
  text : s'.text = s.text
  root : s'.root = s.root
  input : s'.input = s.input
  unit : s'.unit = s.unit
  flushed : s'.flushed = s.flushed

lemma Kept.stands (h : Kept s s') (hs : Stands s s) : Stands s s' :=
  ⟨h.text, h.unit, h.flushed.trans hs.flushed, h.root ▸ hs.root, by rw [h.input, h.text, hs.source],
    by rw [h.input]; exact hs.whole⟩

/-- What an edit answers and leaves: the session as it was, all of it that a caller sees, or the
new text with its document or none. -/
inductive Edited (s : Session P T K) (start stop : Text.Cursor) (text : List UInt8) :
    Status × Session P T K → Prop where
  | refused {status : Status} (refused : status ≠ .ok) : Edited s start stop text (status, s)
  | kept {s' : Session P T K} (kept : Kept s s') : Edited s start stop text (.allocationFailed, s')
  | read {first last : ℕ} {r : Status × Session P T K} (first_eq : s.offset start = some first)
      (last_eq : s.offset stop = some last) (le : first ≤ last)
      (fits : (replace s.text first last text).length ≤ sourceCapacity)
      (outcome : Outcome { s with text := replace s.text first last text } r) :
      Edited s start stop text r

/-- An edit that succeeds leaves a document. -/
lemma Edited.stands {start stop : Text.Cursor} {text : List UInt8} {r : Status × Session P T K}
    (h : Edited s start stop text r) (hok : r.1 = .ok) : r.2.flushed = true ∧ r.2.root ≠ none := by
  cases h with
  | refused hrefused => exact absurd hok hrefused
  | kept => cases hok
  | read _ _ _ _ houtcome =>
    have hstands := houtcome.stands hok
    exact ⟨hstands.flushed, hstands.root⟩

/-! ### The sessions that calls reach -/

lemma contextLocate_kept (position : Text.Cursor) : Kept s (parse.contextLocate s position).2 := by
  rw [Parse.contextLocate]
  split
  next => exact ⟨rfl, rfl, rfl, rfl, rfl⟩
  next => exact ⟨rfl, rfl, rfl, rfl, rfl⟩

/-- Locating changes neither the text nor the document. -/
lemma locate_kept (position : Text.Cursor) : Kept s (parse.locate granted s position).2 := by
  have hkept : ∀ {t : Session P T K}, Kept s t → Kept s (parse.contextLocate t position).2 := by
    intro t ht
    have hlook := @contextLocate_kept P T K parse t position
    exact ⟨hlook.text.trans ht.text, hlook.root.trans ht.root, hlook.input.trans ht.input,
      hlook.unit.trans ht.unit, hlook.flushed.trans ht.flushed⟩
  rw [Parse.locate]
  split
  next => exact contextLocate_kept position
  next =>
    split
    next => exact contextLocate_kept position
    next =>
      split
      next => exact ⟨rfl, rfl, rfl, rfl, rfl⟩
      next =>
        split
        next => exact ⟨rfl, rfl, rfl, rfl, rfl⟩
        next =>
          dsimp only
          split
          next => exact ⟨rfl, rfl, rfl, rfl, rfl⟩
          next =>
            apply hkept
            exact ⟨rfl, rfl, rfl, rfl, rfl⟩

lemma Kept.held (h : Kept s s') (hs : Held s) : Held s' := by
  constructor
  · rw [h.text]
    exact hs.bounded
  · rw [h.flushed, h.root, h.input, h.text]
    exact hs.lines

/-- A flushed session whose document is gone. -/
structure Lost (s : Session P T K) : Prop where
  flushed : s.flushed = true
  root : s.root = none

/-- It refuses every edit. -/
lemma Lost.edit (h : Lost s) (granted : Granted) (start stop : Text.Cursor) (text : List UInt8) :
    parse.edit granted s start stop text = (.allocationFailed, s) := by
  rw [Parse.edit, if_neg (by rw [h.flushed]; decide), h.root]

lemma Lost.call (h : Lost s) (granted : Granted) (call : Call) :
    Lost (parse.call s granted call).2 := by
  cases call with
  | append text =>
    rw [Parse.call, Parse.append, if_pos h.flushed]
    exact h
  | flush =>
    rw [Parse.call, Parse.flushSession, if_pos h.flushed]
    exact h
  | edit start stop text =>
    rw [Parse.call, h.edit]
    exact h
  | locate position =>
    have hkept := @locate_kept P T K parse granted s position
    exact ⟨hkept.flushed.trans h.flushed, hkept.root.trans h.root⟩

lemma Lost.run (h : Lost s) (calls : List (Granted × Call)) : Lost (parse.run s calls) := by
  induction calls generalizing s with
  | nil => exact h
  | cons call calls ih => exact ih (h.call call.1 call.2)

end MarkdownCore.Calls
