import MarkdownCore.Autolink.AddressRun

/-!
# What an address link is made of

The protocol flags are raised while the scan goes back from one `@`; they stay up when it starts
again at another. Where they tell of the link's own text its destination depends on that text alone.
-/

namespace MarkdownCore.Autolink

open Inline StateTransition
open Attributes (isalnum)

section

variable {data : List UInt8} {start offset : ℕ} {found : Found}

/-! ### The condition -/

/-- How far the local part before the `@` goes back. -/
def LocalPart (data : List UInt8) (base maxRewind rewind : ℕ) : Prop :=
  rewind ≤ maxRewind ∧ (∀ r < rewind, LocalByte data base maxRewind r) ∧
    (rewind < maxRewind → ¬ LocalByte data base maxRewind rewind)

lemma LocalPart.unique {base maxRewind rewind rewind' : ℕ}
    (h : LocalPart data base maxRewind rewind) (h' : LocalPart data base maxRewind rewind') :
    rewind = rewind' := by
  rcases Nat.lt_trichotomy rewind rewind' with hlt | heq | hgt
  · exact absurd (h'.2.1 rewind hlt) (h.2.2 (hlt.trans_le h'.1))
  · exact heq
  · exact absurd (h.2.1 rewind' hgt) (h'.2.2 (hgt.trans_le h.1))

/-! ### The text of a link -/

section

variable {rewind linkEnd : ℕ} {auto isXmpp : Bool}

end

end

/-! ### The turns that make a link -/

section

variable {data : List UInt8} {parent : Parent} {storage : ℕ → Bool}

/-- The next state of the split, none where it ends. -/
def Splitter.step (data : List UInt8) (parent : Parent) (storage : ℕ → Bool) (s : Splitter) :
    Option Splitter :=
  match s.turn data parent storage with
  | .next s' => some s'
  | _ => none

lemma Splitter.step_some {s s' : Splitter} :
    s.step data parent storage = some s' ↔ s.turn data parent storage = .next s' := by
  rw [Splitter.step]
  cases s.turn data parent storage <;> simp

/-- A turn that makes a link. -/
def Splitter.Makes (data : List UInt8) (parent : Parent) (storage : ℕ → Bool)
    (s : Splitter) : Prop :=
  ∃ s', s.turn data parent storage = .next s' ∧ s'.pieces ≠ s.pieces

/-- A turn leaves the pieces as they are, or adds those of an address of the `@` at hand. -/
lemma Splitter.Inv.pieces {s s' : Splitter} (h : s.Inv data)
    (hturn : s.turn data parent storage = .next s') :
    s'.pieces = s.pieces ∨ ∃ found rewind linkEnd auto isXmpp, s.found = some found ∧
      IsAddress data s.start s.offset found rewind linkEnd auto isXmpp ∧
      s'.pieces = s.pieces ++ addressPieces s.start (s.offset + found.maxRewind - rewind)
        (addressLink data s.start s.offset found rewind linkEnd auto) := by
  obtain ⟨start, offset, found, pieces⟩ := s
  cases found with
  | none =>
    left
    simp only [Splitter.turn] at hturn
    split_ifs at hturn
    split at hturn
    · cases hturn
    · cases hturn
      rfl
  | some found =>
    obtain ⟨answer, hattempt, hcomes⟩ := attempt_some (h.found found rfl)
    simp only at hattempt
    simp only [Splitter.turn, hattempt] at hturn
    cases answer with
    | again offset' found' =>
      cases hturn
      exact Or.inl rfl
    | skip offset' =>
      cases hturn
      exact Or.inl rfl
    | address rewind linkEnd auto =>
      obtain ⟨isXmpp, haddress⟩ := hcomes
      right
      simp only at hturn
      split_ifs at hturn
      cases hturn
      exact ⟨found, rewind, linkEnd, auto, isXmpp, rfl, haddress, rfl⟩

lemma Splitter.Inv.next {s s' : Splitter} (h : s.Inv data)
    (hturn : s.turn data parent storage = .next s') : s'.Inv data := by
  rcases @Splitter.Inv.turn data parent storage s h with hstop | ⟨hfail, -⟩ | ⟨s'', hnext, hinv, -⟩
  · rw [hstop] at hturn
    cases hturn
  · rw [hfail] at hturn
    cases hturn
  · rw [hnext] at hturn
    cases hturn
    exact hinv

lemma Splitter.Inv.reaches {s s' : Splitter} (h : s.Inv data)
    (hreach : Reaches (Splitter.step data parent storage) s s') : s'.Inv data := by
  induction hreach with
  | refl => exact h
  | tail _ hstep ih => exact ih.next (Splitter.step_some.mp hstep)

end

/-! ### Whole runs -/

section

variable {data : List UInt8} {parent : Parent} {storage : ℕ → Bool}

end

end MarkdownCore.Autolink
