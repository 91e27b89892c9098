import MarkdownCore.Autolink.Address

/-!
# What the split of a text leaves

The split reads nothing outside the text, ends, and tiles the text with the pieces it leaves.
-/

namespace MarkdownCore.Autolink

open Inline
open Attributes (isalnum)

section

variable {data : List UInt8} {base : ℕ}

/-! ### Reads inside the text -/

lemma readBack_some {back : ℕ} (hbase : base ≤ data.length) (hpos : 0 < back) (hle : back ≤ base) :
    readBack data base back = some (byteAt data (base - back)) := by
  have hlt : base - back < data.length := by omega
  rw [readBack, if_pos hle, List.getElem?_eq_getElem hlt, byteAt_eq_getElem hlt]

lemma getElem?_byteAt {pos : ℕ} (h : pos < data.length) : data[pos]? = some (byteAt data pos) := by
  rw [List.getElem?_eq_getElem h, byteAt_eq_getElem h]

/-! ### The local part -/

/-- The bytes of a protocol end so far before a position, and what is before them is neither a
letter nor a digit or lies behind the reach. -/
def ProtocolEnds (data protocol : List UInt8) (base rewind maxRewind : ℕ) : Prop :=
  rewind + protocol.length ≤ maxRewind ∧
    (data.drop (base - (rewind + protocol.length))).take protocol.length = protocol ∧
    (rewind + protocol.length = maxRewind ∨
      isalnum (byteAt data (base - (rewind + protocol.length + 1))) = false)

lemma validateProtocol_some {protocol : List UInt8} {rewind maxRewind : ℕ}
    (hbase : base ≤ data.length) (hmax : maxRewind ≤ base) :
    ∃ valid, validateProtocol data protocol base rewind maxRewind = some valid ∧
      (valid = true ↔ ProtocolEnds data protocol base rewind maxRewind) := by
  by_cases hout : maxRewind < rewind ∨ maxRewind - rewind < protocol.length
  · refine ⟨false, by rw [validateProtocol, if_pos hout], ?_⟩
    simp only [Bool.false_eq_true, false_iff]
    rintro ⟨hle, -⟩
    omega
  · have hle : rewind + protocol.length ≤ maxRewind := by omega
    have hslice : sliceBack data base (rewind + protocol.length) protocol.length =
        some ((data.drop (base - (rewind + protocol.length))).take protocol.length) := by
      rw [sliceBack, if_pos (by omega)]
    simp only [validateProtocol, hout, if_false, hslice, Option.bind_some]
    by_cases hbytes :
        (data.drop (base - (rewind + protocol.length))).take protocol.length = protocol
    · rw [if_neg (not_not.mpr hbytes)]
      by_cases hfar : rewind + protocol.length = maxRewind
      · refine ⟨true, if_pos hfar, ?_⟩
        simp only [true_iff]
        exact ⟨hle, hbytes, Or.inl hfar⟩
      · rw [if_neg hfar, readBack_some hbase (Nat.succ_pos _) (by omega)]
        refine ⟨_, rfl, ?_⟩
        simp only [Bool.not_eq_true']
        constructor
        · intro h
          exact ⟨hle, hbytes, Or.inr h⟩
        · rintro ⟨-, -, h | h⟩
          · exact absurd h hfar
          · exact h
    · refine ⟨false, by rw [if_pos hbytes], ?_⟩
      simp only [Bool.false_eq_true, false_iff]
      rintro ⟨-, h, -⟩
      exact hbytes h

lemma ProtocolEnds.byteAt {protocol : List UInt8} {rewind maxRewind k : ℕ}
    (h : ProtocolEnds data protocol base rewind maxRewind) (hmax : maxRewind ≤ base)
    (hk : k < protocol.length) :
    byteAt data (base - (rewind + (protocol.length - k))) = protocol.getD k 0 := by
  obtain ⟨hle, hbytes, -⟩ := h
  have hat : base - (rewind + (protocol.length - k)) =
      base - (rewind + protocol.length) + k := by omega
  rw [hat, ← byteAt_drop, ← byteAt_take hk, hbytes]
  rfl

/-- No protocol ends where the other does. -/
lemma ProtocolEnds.not_both {rewind maxRewind : ℕ} (hmax : maxRewind ≤ base)
    (h : ProtocolEnds data mailto base rewind maxRewind)
    (h' : ProtocolEnds data xmpp base rewind maxRewind) : False := by
  have ho := h.byteAt hmax (show 5 < mailto.length by decide)
  have hp := h'.byteAt hmax (show 3 < xmpp.length by decide)
  exact absurd (ho.symm.trans hp) (by decide)

/-- A byte of a local part: a letter, a digit, a sign, or the colon of a protocol. -/
def LocalByte (data : List UInt8) (base maxRewind rewind : ℕ) : Prop :=
  isalnum (byteAt data (base - (rewind + 1))) = true ∨
    localSign (byteAt data (base - (rewind + 1))) = true ∨
    (byteAt data (base - (rewind + 1)) = 0x3a ∧
      (ProtocolEnds data mailto base rewind maxRewind ∨
        ProtocolEnds data xmpp base rewind maxRewind))

/-- A colon in the local part. -/
def ColonAt (data : List UInt8) (base rewind : ℕ) : Prop := byteAt data (base - (rewind + 1)) = 0x3a

/-- What the loop back answers from a distance: it stops within its reach behind bytes of a local
part, before one that is none, and the flags tell of the protocols it has passed. -/
structure Rewound (data : List UInt8) (base maxRewind rewind : ℕ) (before after : Bool × Bool)
    (answer : ℕ) : Prop where
  le : rewind ≤ answer
  le_max : answer ≤ maxRewind
  passed : ∀ r, rewind ≤ r → r < answer → LocalByte data base maxRewind r
  stops : answer < maxRewind → ¬ LocalByte data base maxRewind answer
  auto : after.1 = true ↔
    before.1 = true ∧ ∀ r, rewind ≤ r → r < answer → ¬ ColonAt data base r
  isXmpp : after.2 = true ↔ before.2 = true ∨
    ∃ r, rewind ≤ r ∧ r < answer ∧ ProtocolEnds data xmpp base r maxRewind

section

variable {maxRewind rewind answer : ℕ} {before after : Bool × Bool}

lemma Rewound.stop (hle : rewind ≤ maxRewind)
    (h : rewind < maxRewind → ¬ LocalByte data base maxRewind rewind) :
    Rewound data base maxRewind rewind before before rewind where
  le := le_rfl
  le_max := hle
  passed r hr hr' := absurd hr (Nat.not_le.mpr hr')
  stops := h
  auto := by
    simp only [iff_self_and]
    intro _ r hr hr'
    exact absurd hr (Nat.not_le.mpr hr')
  isXmpp := by
    simp only [iff_self_or]
    rintro ⟨r, hr, hr', -⟩
    exact absurd hr (Nat.not_le.mpr hr')

/-- One byte more: a colon takes the first flag away and a protocol of the other kind gives the
second. -/
lemma Rewound.step {flags : Bool × Bool}
    (h : Rewound data base maxRewind (rewind + 1) flags after answer)
    (hlocal : LocalByte data base maxRewind rewind)
    (hauto : flags.1 = true ↔ before.1 = true ∧ ¬ ColonAt data base rewind)
    (hxmpp : flags.2 = true ↔ before.2 = true ∨ ProtocolEnds data xmpp base rewind maxRewind) :
    Rewound data base maxRewind rewind before after answer where
  le := (Nat.le_succ rewind).trans h.le
  le_max := h.le_max
  passed r hr hr' := by
    rcases Nat.eq_or_lt_of_le hr with rfl | hlt
    · exact hlocal
    · exact h.passed r hlt hr'
  stops := h.stops
  auto := by
    rw [h.auto, hauto, and_assoc]
    apply and_congr_right
    intro _
    constructor
    · rintro ⟨hfirst, hrest⟩ r hr hr'
      rcases Nat.eq_or_lt_of_le hr with rfl | hlt
      · exact hfirst
      · exact hrest r hlt hr'
    · intro hall
      refine ⟨hall rewind le_rfl h.le, ?_⟩
      intro r hr hr'
      exact hall r (Nat.le_of_succ_le hr) hr'
  isXmpp := by
    rw [h.isXmpp, hxmpp, or_assoc]
    apply or_congr_right
    constructor
    · rintro (hfirst | ⟨r, hr, hr', hends⟩)
      · exact ⟨rewind, le_rfl, h.le, hfirst⟩
      · exact ⟨r, Nat.le_of_succ_le hr, hr', hends⟩
    · rintro ⟨r, hr, hr', hends⟩
      rcases Nat.eq_or_lt_of_le hr with rfl | hlt
      · exact Or.inl hends
      · exact Or.inr ⟨r, hlt, hr', hends⟩

lemma ProtocolEnds.colon (hmax : maxRewind ≤ base)
    (h : ProtocolEnds data mailto base rewind maxRewind ∨
      ProtocolEnds data xmpp base rewind maxRewind) : ColonAt data base rewind := by
  rcases h with h | h
  · exact h.byteAt hmax (show 6 < mailto.length by decide)
  · exact h.byteAt hmax (show 4 < xmpp.length by decide)

/-- The flag of the one protocol does not go up without that of both. -/
lemma Rewound.flags (hmax : maxRewind ≤ base)
    (h : Rewound data base maxRewind rewind before after answer)
    (hbefore : before.2 = true → before.1 = false) (hafter : after.2 = true) :
    after.1 = false := by
  rw [← Bool.not_eq_true, h.auto]
  rintro ⟨hauto, hcolon⟩
  rcases h.isXmpp.mp hafter with hxmpp | ⟨r, hr, hr', hends⟩
  · rw [hbefore hxmpp] at hauto
    cases hauto
  · exact hcolon r hr hr' (ProtocolEnds.colon hmax (Or.inr hends))

/-- A letter, a digit or a sign is no colon. -/
lemma localSign_plain {c : UInt8} (h : isalnum c = true ∨ localSign c = true) :
    c ≠ 0x3a ∧ c ≠ 0x40 ∧ c ≠ 0x2f := by
  refine ⟨?_, ?_, ?_⟩ <;> rintro rfl <;> revert h <;> decide

lemma rewindFrom_some {steps : ℕ} (hbase : base ≤ data.length) (hmax : maxRewind ≤ base)
    (hle : rewind ≤ maxRewind) (hsteps : maxRewind ≤ rewind + steps) :
    ∃ answer after, rewindFrom data base maxRewind steps rewind before.1 before.2 =
        some (answer, after) ∧ Rewound data base maxRewind rewind before after answer := by
  induction steps generalizing rewind before with
  | zero =>
    obtain rfl : rewind = maxRewind := Nat.le_antisymm hle hsteps
    exact ⟨rewind, before, rfl, .stop le_rfl fun h => absurd h (lt_irrefl _)⟩
  | succ steps ih =>
    rcases Nat.eq_or_lt_of_le hle with rfl | hlt
    · refine ⟨rewind, before, ?_, .stop le_rfl fun h => absurd h (lt_irrefl _)⟩
      rw [rewindFrom, if_pos le_rfl]
    · have hgo (flags : Bool × Bool) := @ih (rewind + 1) flags hlt (by omega)
      rw [rewindFrom, if_neg (Nat.not_le.mpr hlt),
        readBack_some hbase (Nat.succ_pos _) (by omega), Option.bind_some]
      by_cases hplain : isalnum (byteAt data (base - (rewind + 1))) = true ∨
          localSign (byteAt data (base - (rewind + 1))) = true
      · have hcolon : ¬ ColonAt data base rewind := (localSign_plain hplain).1
        have hnone : ¬ ProtocolEnds data xmpp base rewind maxRewind :=
          fun h => hcolon (ProtocolEnds.colon hmax (Or.inr h))
        obtain ⟨answer, after, heq, h⟩ := hgo before
        refine ⟨answer, after, ?_, h.step ?_ ?_ ?_⟩
        · rw [if_pos (by simpa using hplain), heq]
        · rcases hplain with h | h
          · exact Or.inl h
          · exact Or.inr (Or.inl h)
        · simp [hcolon]
        · simp [hnone]
      · have hsign := hplain
        rw [if_neg (by simpa using hplain)]
        by_cases hcolon : byteAt data (base - (rewind + 1)) = 0x3a
        · rw [if_pos hcolon]
          obtain ⟨mail, hmail, hmailto⟩ :=
            @validateProtocol_some data base mailto rewind maxRewind hbase hmax
          obtain ⟨other, hother, hxmpp⟩ :=
            @validateProtocol_some data base xmpp rewind maxRewind hbase hmax
          rw [hmail, hother, Option.bind_some, Option.bind_some]
          by_cases hvalid : mail = true
          · have hnone : ¬ ProtocolEnds data xmpp base rewind maxRewind :=
              fun h => ProtocolEnds.not_both hmax (hmailto.mp hvalid) h
            obtain ⟨answer, after, heq, h⟩ := hgo (false, before.2)
            refine ⟨answer, after, ?_, h.step ?_ ?_ ?_⟩
            · rw [if_pos hvalid, heq]
            · exact Or.inr (Or.inr ⟨hcolon, Or.inl (hmailto.mp hvalid)⟩)
            · simp [ColonAt, hcolon]
            · simp [hnone]
          · rw [if_neg hvalid]
            by_cases hvalid' : other = true
            · obtain ⟨answer, after, heq, h⟩ := hgo (false, true)
              refine ⟨answer, after, ?_, h.step ?_ ?_ ?_⟩
              · rw [if_pos hvalid', heq]
              · exact Or.inr (Or.inr ⟨hcolon, Or.inr (hxmpp.mp hvalid')⟩)
              · simp [ColonAt, hcolon]
              · simp [hxmpp.mp hvalid']
            · refine ⟨rewind, before, by rw [if_neg hvalid'], .stop hle ?_⟩
              rintro - (h | h | ⟨-, h | h⟩)
              · exact hsign (Or.inl h)
              · exact hsign (Or.inr h)
              · exact hvalid (hmailto.mpr h)
              · exact hvalid' (hxmpp.mpr h)
        · refine ⟨rewind, before, by rw [if_neg hcolon], .stop hle ?_⟩
          rintro - (h | h | ⟨h, -⟩)
          · exact hsign (Or.inl h)
          · exact hsign (Or.inr h)
          · exact hcolon h

end

/-! ### The domain -/

/-- A byte the loop over a domain passes. -/
def DomainByte (isXmpp : Bool) (c : UInt8) : Prop :=
  isalnum c = true ∨ c = 0x2e ∨ c = 0x2d ∨ c = 0x5f ∨ (c = 0x2f ∧ isXmpp = true)

/-- What the loop over a domain answers: it passes bytes of a domain, each dot with a letter or a
digit behind it, and stops at another `@`, at the end, or at a byte it cannot pass. -/
structure DomainRead (data : List UInt8) (base room : ℕ) (isXmpp : Bool) (first last : ℕ) :
    Prop where
  le : first ≤ last
  le_room : last ≤ room
  passed : ∀ k, first ≤ k → k < last → DomainByte isXmpp (byteAt data (base + k))
  dots : ∀ k, first ≤ k → k < last → byteAt data (base + k) = 0x2e →
    k + 1 < room ∧ isalnum (byteAt data (base + (k + 1))) = true

section

variable {room first last : ℕ} {isXmpp : Bool}

lemma DomainRead.refl (h : first ≤ room) : DomainRead data base room isXmpp first first where
  le := le_rfl
  le_room := h
  passed _ hk hk' := absurd hk (Nat.not_le.mpr hk')
  dots _ hk hk' := absurd hk (Nat.not_le.mpr hk')

lemma DomainRead.step (h : DomainRead data base room isXmpp (first + 1) last)
    (hbyte : DomainByte isXmpp (byteAt data (base + first)))
    (hdot : byteAt data (base + first) = 0x2e →
      first + 1 < room ∧ isalnum (byteAt data (base + (first + 1))) = true) :
    DomainRead data base room isXmpp first last where
  le := (Nat.le_succ first).trans h.le
  le_room := h.le_room
  passed k hk hk' := by
    rcases Nat.eq_or_lt_of_le hk with rfl | hlt
    · exact hbyte
    · exact h.passed k hlt hk'
  dots k hk hk' := by
    rcases Nat.eq_or_lt_of_le hk with rfl | hlt
    · exact hdot
    · exact h.dots k hlt hk'

/-- How the loop ends: at another `@`, or where its room does, or at a byte that is neither a letter
nor a digit and, where slashes pass, no slash. -/
def Ends (data : List UInt8) (base room : ℕ) (isXmpp : Bool) (first : ℕ) : DomainEnd → Prop
  | .again last => DomainRead data base room isXmpp first last ∧ last < room ∧
      byteAt data (base + last) = 0x40
  | .stop last _ => DomainRead data base room isXmpp first last ∧
      (last < room → isalnum (byteAt data (base + last)) = false ∧
        (isXmpp = true → byteAt data (base + last) ≠ 0x2f))

lemma Ends.step {answer : DomainEnd} (h : Ends data base room isXmpp (first + 1) answer)
    (hbyte : DomainByte isXmpp (byteAt data (base + first)))
    (hdot : byteAt data (base + first) = 0x2e →
      first + 1 < room ∧ isalnum (byteAt data (base + (first + 1))) = true) :
    Ends data base room isXmpp first answer := by
  cases answer with
  | again last => exact ⟨h.1.step hbyte hdot, h.2⟩
  | stop last np => exact ⟨h.1.step hbyte hdot, h.2⟩

lemma isalnum_plain {c : UInt8} (h : isalnum c = true) :
    c ≠ 0x2e ∧ c ≠ 0x2f ∧ c ≠ 0x40 := by
  refine ⟨?_, ?_, ?_⟩ <;> rintro rfl <;> revert h <;> decide

/-- The loop over a domain reads within its room. -/
lemma domainFrom_some {steps np : ℕ} (hroom : base + room ≤ data.length) (hle : first ≤ room)
    (hsteps : room ≤ first + steps) :
    ∃ answer, domainFrom data base room isXmpp steps first np = some answer ∧
      Ends data base room isXmpp first answer := by
  induction steps generalizing first np with
  | zero =>
    obtain rfl : first = room := Nat.le_antisymm hle hsteps
    exact ⟨_, rfl, .refl le_rfl, fun h => absurd h (lt_irrefl _)⟩
  | succ steps ih =>
    rcases Nat.eq_or_lt_of_le hle with rfl | hlt
    · refine ⟨.stop first np, ?_, .refl le_rfl, fun h => absurd h (lt_irrefl _)⟩
      rw [domainFrom, if_pos le_rfl]
    · have hin : base + first < data.length := by omega
      rw [domainFrom, if_neg (Nat.not_le.mpr hlt), getElem?_byteAt hin, Option.bind_some]
      -- a byte is passed
      have hgo {np' : ℕ} (hbyte : DomainByte isXmpp (byteAt data (base + first)))
          (hdot : byteAt data (base + first) = 0x2e →
            first + 1 < room ∧ isalnum (byteAt data (base + (first + 1))) = true) :
          ∃ answer, domainFrom data base room isXmpp steps (first + 1) np' = some answer ∧
            Ends data base room isXmpp first answer := by
        obtain ⟨answer, heq, h⟩ := @ih (first + 1) np' hlt (by omega)
        exact ⟨answer, heq, h.step hbyte hdot⟩
      by_cases halnum : isalnum (byteAt data (base + first)) = true
      · rw [if_pos halnum]
        exact hgo (Or.inl halnum) fun hdot => absurd hdot (isalnum_plain halnum).1
      · have hnot := Bool.eq_false_iff.mpr halnum
        rw [if_neg halnum]
        by_cases hat : byteAt data (base + first) = 0x40
        · exact ⟨.again first, by rw [if_pos hat], .refl hle, hlt, hat⟩
        · rw [if_neg hat]
          by_cases hdot : byteAt data (base + first) = 0x2e ∧ first < room - 1
          · obtain ⟨hdot, hnext⟩ := hdot
            have hslash : byteAt data (base + first) ≠ 0x2f := by
              rw [hdot]
              decide
            have hin' : base + first + 1 < data.length := by omega
            rw [if_pos ⟨hdot, hnext⟩, getElem?_byteAt hin', Option.bind_some]
            by_cases halnum' : isalnum (byteAt data (base + first + 1)) = true
            · rw [if_pos halnum']
              exact hgo (Or.inr (Or.inl hdot)) fun _ => ⟨by omega, halnum'⟩
            · exact ⟨.stop first np, by rw [if_neg halnum'], .refl hle, fun _ => ⟨hnot, fun _ => hslash⟩⟩
          · rw [if_neg hdot]
            by_cases hsign : (byteAt data (base + first) = 0x2f ∧ isXmpp = true) ∨
                byteAt data (base + first) = 0x2d ∨ byteAt data (base + first) = 0x5f
            · rw [if_pos hsign]
              have hne : byteAt data (base + first) ≠ 0x2e := by
                rcases hsign with ⟨h, -⟩ | h | h <;> rw [h] <;> decide
              refine hgo ?_ fun hdot => absurd hdot hne
              rcases hsign with h | h | h
              · exact Or.inr (Or.inr (Or.inr (Or.inr h)))
              · exact Or.inr (Or.inr (Or.inl h))
              · exact Or.inr (Or.inr (Or.inr (Or.inl h)))
            · refine ⟨.stop first np, by rw [if_neg hsign], .refl hle, fun _ => ⟨hnot, ?_⟩⟩
              intro hxmpp hslash
              exact hsign (Or.inl ⟨hslash, hxmpp⟩)

end

/-! ### The end of an address -/

/-- A byte of an address behind its `@`. -/
lemma domainByte_plain {isXmpp : Bool} {c : UInt8} (h : DomainByte isXmpp c) :
    c ≠ 0x3c ∧ c ≠ 0x28 ∧ c ≠ 0x29 ∧ c ≠ 0x40 := by
  have hplain (c : UInt8) (h : isalnum c = true ∨ c = 0x2e ∨ c = 0x2d ∨ c = 0x5f ∨ c = 0x2f) :
      c ≠ 0x3c ∧ c ≠ 0x28 ∧ c ≠ 0x29 ∧ c ≠ 0x40 := by
    refine ⟨?_, ?_, ?_, ?_⟩ <;> rintro rfl <;> revert h <;> decide
  apply hplain
  rcases h with h | h | h | h | ⟨h, -⟩
  · exact Or.inl h
  · exact Or.inr (Or.inl h)
  · exact Or.inr (Or.inr (Or.inl h))
  · exact Or.inr (Or.inr (Or.inr (Or.inl h)))
  · exact Or.inr (Or.inr (Or.inr (Or.inr h)))

lemma countBrackets_plain {linkEnd steps i : ℕ} (hend : base + linkEnd ≤ data.length)
    (h : ∀ k < linkEnd, byteAt data (base + k) ≠ 0x3c ∧ byteAt data (base + k) ≠ 0x28 ∧
      byteAt data (base + k) ≠ 0x29) :
    countBrackets data base linkEnd steps i 0 0 = some (linkEnd, 0, 0) := by
  induction steps generalizing i with
  | zero => rfl
  | succ steps ih =>
    rcases Nat.lt_or_ge i linkEnd with hlt | hle
    · obtain ⟨h1, h2, h3⟩ := h i hlt
      have hin : base + i < data.length := by omega
      rw [countBrackets, if_neg (Nat.not_le.mpr hlt), getElem?_byteAt hin, Option.bind_some,
        if_neg h1, if_neg h2, if_neg h3]
      exact ih
    · rw [countBrackets, if_pos hle]

lemma isalpha_plain {c : UInt8} (h : isalpha c = true) :
    c ≠ 0x29 ∧ shed c = false ∧ c ≠ 0x3b := by
  refine ⟨?_, decide_eq_false fun hmem => ?_, ?_⟩
  · rintro rfl
    exact absurd h (by decide)
  · simpa [h] using (List.all_eq_true (p := fun d => !isalpha d)).mp (by rfl) c hmem
  · rintro rfl
    exact absurd h (by decide)

/-- An end behind a letter, with no bracket before it, stays. -/
lemma autolinkDelim_letter {linkEnd : ℕ} (hend : base + linkEnd ≤ data.length)
    (h : ∀ k < linkEnd, byteAt data (base + k) ≠ 0x3c ∧ byteAt data (base + k) ≠ 0x28 ∧
      byteAt data (base + k) ≠ 0x29)
    (hletter : 0 < linkEnd → isalpha (byteAt data (base + (linkEnd - 1))) = true) :
    autolinkDelim data base linkEnd = some linkEnd := by
  rw [autolinkDelim, countBrackets_plain hend h, Option.bind_some]
  cases linkEnd with
  | zero => rfl
  | succ linkEnd =>
    obtain ⟨h1, h2, h3⟩ := isalpha_plain (hletter (Nat.succ_pos _))
    have hin : base + (linkEnd + 1 - 1) < data.length := by omega
    simp only [trimEnd, Nat.succ_ne_zero, if_false, getElem?_byteAt hin, Option.bind_some, h1, h2,
      h3, Bool.false_eq_true]

end

/-! ### The scan from an `@` -/

section

variable {data : List UInt8}

/-- The `@` a scan is at. -/
def Found.base (start offset : ℕ) (found : Found) : ℕ := start + offset + found.maxRewind

/-- The bytes left from the `@`. -/
def Found.room (data : List UInt8) (start offset : ℕ) (found : Found) : ℕ :=
  data.length - start - offset - found.maxRewind

/-- The scan is at an `@` of the text. -/
def Found.At (data : List UInt8) (start offset : ℕ) (found : Found) : Prop :=
  found.base start offset < data.length ∧ byteAt data (found.base start offset) = 0x40

/-- The flag of the one protocol is not up without that of both. -/
def Found.Flags (found : Found) : Prop := found.isXmpp = true → found.autoMailto = false

/-- An address from so far before the `@` to so far behind: its local part and its domain. -/
structure IsAddress (data : List UInt8) (start offset : ℕ) (found : Found)
    (rewind linkEnd : ℕ) (auto isXmpp : Bool) : Prop where
  rewound : Rewound data (found.base start offset) found.maxRewind 0
    (found.autoMailto, found.isXmpp) (auto, isXmpp) rewind
  rewind_pos : 0 < rewind
  domain : ∃ np, domainFrom data (found.base start offset) (found.room data start offset) isXmpp
    (found.room data start offset) 1 0 = some (.stop linkEnd np)
  read : DomainRead data (found.base start offset) (found.room data start offset) isXmpp 1 linkEnd
  two_le : 2 ≤ linkEnd

/-- What comes of the scan from an `@`. -/
def Comes (data : List UInt8) (start offset : ℕ) (found : Found) : Attempt → Prop
  | .again offset' found' => offset' = offset + found.maxRewind + 1 ∧
      found.base start offset < found'.base start offset' ∧ found'.At data start offset' ∧
      (found.Flags → found'.Flags)
  | .skip offset' => offset + found.maxRewind < offset' ∧ start + offset' ≤ data.length
  | .address rewind linkEnd auto =>
      ∃ isXmpp, IsAddress data start offset found rewind linkEnd auto isXmpp

/-- The scan from an `@` reads nothing outside the text. -/
lemma attempt_some {start offset : ℕ} {found : Found} (h : found.At data start offset) :
    ∃ answer, attempt data start offset found = some answer ∧
      Comes data start offset found answer := by
  obtain ⟨hlt, hat⟩ := h
  have hmax : found.maxRewind ≤ found.base start offset := Nat.le_add_left _ _
  obtain ⟨rewind, ⟨auto, isXmpp⟩, hrewind, hrewound⟩ :=
    @rewindFrom_some data (found.base start offset) found.maxRewind 0
      (found.autoMailto, found.isXmpp) found.maxRewind hlt.le hmax (Nat.zero_le _) (by omega)
  have hroom : found.base start offset + found.room data start offset = data.length := by
    simp only [Found.base, Found.room] at hlt ⊢
    omega
  have hone : 1 ≤ found.room data start offset := by omega
  obtain ⟨ends, hdomain, hends⟩ :=
    @domainFrom_some data (found.base start offset) (found.room data start offset) 1 isXmpp
      (found.room data start offset) 0 hroom.le hone (Nat.le_add_left _ _)
  have hbase : start + offset + found.maxRewind = found.base start offset := rfl
  have hrest : data.length - start - offset - found.maxRewind = found.room data start offset := rfl
  simp only [attempt, hbase, hrest, hrewind, Option.bind_some]
  by_cases hzero : rewind = 0
  · refine ⟨_, if_pos hzero, Nat.lt_succ_self _, ?_⟩
    simp only [Found.base] at hlt
    omega
  · rw [if_neg hzero, if_neg (by rw [getElem?_byteAt hlt, hat]; simp), hdomain, Option.bind_some]
    cases ends with
    | again last =>
      obtain ⟨hread, hlast, hbyte⟩ := hends
      have hfirst := hread.le
      have hnext : Found.base start (offset + found.maxRewind + 1) ⟨last - 1, auto, isXmpp⟩ =
          found.base start offset + last := by
        simp only [Found.base]
        omega
      refine ⟨_, rfl, rfl, ?_, ?_, hrewound.flags hmax⟩
      · rw [hnext]
        omega
      · rw [Found.At, hnext]
        exact ⟨by omega, hbyte⟩
    | stop last np =>
      obtain ⟨hread, hstop⟩ := hends
      have hfirst := hread.le
      have hlast := hread.le_room
      have hskip : Comes data start offset found (.skip (offset + found.maxRewind + last)) := by
        simp only [Found.base] at hroom
        exact ⟨by omega, by omega⟩
      simp only [wellEnded]
      by_cases hshort : last < 2 ∨ np = 0
      · exact ⟨_, by rw [if_pos hshort]; rfl, hskip⟩
      · have hin : found.base start offset + last - 1 < data.length := by omega
        rw [if_neg hshort, getElem?_byteAt hin, Option.map_some, Option.bind_some]
        have hsame : found.base start offset + last - 1 =
            found.base start offset + (last - 1) := by omega
        rw [hsame]
        by_cases hended : (isalpha (byteAt data (found.base start offset + (last - 1))) ||
            byteAt data (found.base start offset + (last - 1)) = 0x2e : Bool) = false
        · exact ⟨_, by rw [if_pos hended], hskip⟩
        · -- a dot has a letter or a digit behind it, so it is not the last byte
          have hletter : isalpha (byteAt data (found.base start offset + (last - 1))) = true := by
            by_contra hnot
            have hdot : byteAt data (found.base start offset + (last - 1)) = 0x2e := by
              simpa [Bool.eq_false_iff.mpr hnot] using hended
            obtain ⟨hin, halnum⟩ := hread.dots (last - 1) (by omega) (by omega) hdot
            rw [Nat.sub_add_cancel (by omega)] at hin halnum
            rw [(hstop hin).1] at halnum
            cases halnum
          have hplain : ∀ k < last, byteAt data (found.base start offset + k) ≠ 0x3c ∧
              byteAt data (found.base start offset + k) ≠ 0x28 ∧
              byteAt data (found.base start offset + k) ≠ 0x29 := by
            intro k hk
            rcases Nat.eq_zero_or_pos k with rfl | hpos
            · rw [Nat.add_zero, hat]
              decide
            · obtain ⟨h1, h2, h3, -⟩ := domainByte_plain (hread.passed k hpos hk)
              exact ⟨h1, h2, h3⟩
          rw [if_neg hended, autolinkDelim_letter (by omega) hplain fun _ => hletter,
            Option.bind_some, if_neg (by omega)]
          exact ⟨_, rfl, isXmpp, hrewound, Nat.pos_of_ne_zero hzero, ⟨np, hdomain⟩, hread, by omega⟩

end

/-! ### Tilings -/

/-- Pieces that lie end to end from one position to another, none of them empty. -/
def Tiles : ℕ → ℕ → List Piece → Prop
  | first, last, [] => first = last
  | first, last, piece :: rest =>
    piece.start = first ∧ 0 < piece.length ∧ Tiles (first + piece.length) last rest

section

variable {first middle last : ℕ} {pieces more : List Piece}

lemma Tiles.append (h : Tiles first middle pieces) (h' : Tiles middle last more) :
    Tiles first last (pieces ++ more) := by
  induction pieces generalizing first with
  | nil =>
    obtain rfl : first = middle := h
    exact h'
  | cons piece rest ih => exact ⟨h.1, h.2.1, ih h.2.2⟩

lemma Tiles.le (h : Tiles first last pieces) : first ≤ last := by
  induction pieces generalizing first with
  | nil => exact Nat.le_of_eq h
  | cons piece rest ih => exact (Nat.le_add_right _ _).trans (ih h.2.2)

end

/-! ### Turns -/

section

variable {data : List UInt8} {parent : Parent} {storage : ℕ → Bool}

/-- What holds of the split before each turn. -/
structure Splitter.Inv (data : List UInt8) (s : Splitter) : Prop where
  tiles : Tiles 0 s.start s.pieces
  le : s.start + s.offset ≤ data.length
  found : ∀ found ∈ s.found, found.At data s.start s.offset
  flags : ∀ found ∈ s.found, found.Flags

/-- How much of the text is left, and whether an `@` is still to be looked for. -/
def Splitter.left (data : List UInt8) (s : Splitter) : ℕ :=
  match s.found with
  | none => 2 * (data.length - (s.start + s.offset)) + 1
  | some found => 2 * (data.length - found.base s.start s.offset)

lemma addressPieces_tiles {start offset rewind linkEnd : ℕ} {found : Found} {auto : Bool}
    (hle : rewind ≤ found.maxRewind) (hpos : 0 < rewind) :
    Tiles start (start + offset + found.maxRewind + linkEnd)
      (addressPieces start (offset + found.maxRewind - rewind)
        (addressLink data start offset found rewind linkEnd auto)) := by
  rw [addressPieces]
  by_cases hempty : offset + found.maxRewind - rewind = 0
  · rw [if_pos hempty, List.nil_append]
    refine ⟨?_, ?_, ?_⟩
    · simp only [addressLink, Piece.start]
      omega
    · simp only [addressLink, Piece.length]
      omega
    · simp only [addressLink, Piece.length, Tiles]
      omega
  · rw [if_neg hempty]
    refine ⟨rfl, Nat.pos_of_ne_zero hempty, ?_, ?_, ?_⟩
    · simp only [addressLink, Piece.start, Piece.length]
      omega
    · simp only [addressLink, Piece.length]
      omega
    · simp only [addressLink, Piece.length, Tiles]
      omega

/-- A turn reads nothing outside the text and keeps the invariant with less of the text left; it
fails only where storage is refused. -/
lemma Splitter.Inv.turn {s : Splitter} (h : s.Inv data) :
    s.turn data parent storage = .stop ∨
      (s.turn data parent storage = .fail ∧ storage s.pieces.length = false) ∨
      ∃ s', s.turn data parent storage = .next s' ∧ s'.Inv data ∧ s'.left data < s.left data := by
  obtain ⟨start, offset, found, pieces⟩ := s
  obtain ⟨htiles, hle, hfound, hflags⟩ := h
  cases found with
  | none =>
    simp only [Splitter.turn]
    by_cases hend : data.length - start ≤ offset
    · exact Or.inl (if_pos hend)
    · rw [if_neg hend]
      cases hindex : (data.drop (start + offset)).idxOf? 0x40 with
      | none => exact Or.inl rfl
      | some maxRewind =>
        obtain ⟨hlt, hat, -⟩ := List.findIdx?_eq_some_iff_getElem.mp hindex
        rw [List.length_drop] at hlt
        have hin : start + offset + maxRewind < data.length := by omega
        right
        right
        refine ⟨_, rfl, ⟨htiles, hle, ?_, ?_⟩, ?_⟩
        · rintro _ ⟨⟩
          refine ⟨hin, ?_⟩
          simp only [Found.base]
          rw [byteAt_eq_getElem hin]
          simpa using hat
        · rintro _ ⟨⟩ ⟨⟩
        · simp only [Splitter.left, Found.base]
          omega
  | some found =>
    obtain ⟨answer, hattempt, hcomes⟩ := attempt_some (hfound found rfl)
    have hin := (hfound found rfl).1
    simp only at hattempt hin
    simp only [Splitter.turn, hattempt]
    cases answer with
    | again offset' found' =>
      obtain ⟨rfl, hlater, hat, hkeep⟩ := hcomes
      simp only at hlater hat
      right
      right
      refine ⟨_, rfl, ⟨htiles, ?_, ?_, ?_⟩, ?_⟩
      · have hbase := hat.1
        simp only [Found.base] at hbase hlater ⊢
        omega
      · rintro _ ⟨⟩
        exact hat
      · rintro _ ⟨⟩
        exact hkeep (hflags found rfl)
      · have hbase := hat.1
        simp only [Splitter.left]
        omega
    | skip offset' =>
      obtain ⟨hlater, hbound⟩ := hcomes
      simp only at hlater hbound
      right
      right
      refine ⟨_, rfl, ⟨htiles, hbound, ?_, ?_⟩, ?_⟩
      · rintro _ ⟨⟩
      · rintro _ ⟨⟩
      · simp only [Splitter.left, Found.base] at hin ⊢
        omega
    | address rewind linkEnd auto =>
      obtain ⟨isXmpp, haddress⟩ := hcomes
      simp only at haddress ⊢
      by_cases hparent : parent.links = false ∨
          (0 < offset + found.maxRewind - rewind ∧ parent.texts = false)
      · exact Or.inl (if_pos hparent)
      · rw [if_neg hparent]
        by_cases hstorage : storage pieces.length = false
        · exact Or.inr (Or.inl ⟨if_pos hstorage, hstorage⟩)
        · rw [if_neg hstorage]
          have hroom := haddress.read.le_room
          have htwo := haddress.two_le
          simp only [Found.base] at hin
          simp only [Found.room] at hroom
          right
          right
          refine ⟨_, rfl, ⟨?_, ?_, ?_, ?_⟩, ?_⟩
          · exact htiles.append
              (addressPieces_tiles haddress.rewound.le_max haddress.rewind_pos)
          · simp only
            omega
          · rintro _ ⟨⟩
          · rintro _ ⟨⟩
          · simp only [Splitter.left, Found.base]
            omega

/-- The end of the split leaves pieces that tile the text, unless storage is refused. -/
lemma Splitter.Inv.finish {s : Splitter} (h : s.Inv data) (hne : data ≠ []) :
    (s.finish data storage = .failed ∧ storage s.pieces.length = false) ∨
      ∃ pieces, s.finish data storage = .left pieces ∧ Tiles 0 data.length pieces := by
  have hlength : 0 < data.length := List.length_pos_iff.mpr hne
  have hle := h.le
  simp only [Splitter.finish]
  by_cases hstart : s.start = 0
  · right
    rw [if_pos hstart, hstart]
    refine ⟨_, rfl, rfl, hlength, ?_⟩
    simp [Tiles, Piece.length]
  · rw [if_neg hstart]
    by_cases hremaining : data.length - s.start = 0
    · right
      rw [if_pos hremaining]
      have hsame : s.start = data.length := by omega
      exact ⟨_, rfl, hsame ▸ h.tiles⟩
    · rw [if_neg hremaining]
      by_cases hstorage : storage s.pieces.length = false
      · exact Or.inl ⟨if_pos hstorage, hstorage⟩
      · right
        rw [if_neg hstorage]
        refine ⟨_, rfl, h.tiles.append ⟨rfl, Nat.pos_of_ne_zero hremaining, ?_⟩⟩
        simp only [Piece.length, Tiles]
        omega

end

end MarkdownCore.Autolink
