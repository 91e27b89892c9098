import MarkdownCore.Attributes.Recognise

/-!
# What the memo keeps

A kept word is the answer of its position read without a memo. For an `=` this is so where a name
stands before it; where a walk has met the `=` as a boundary the word says that nothing closes, and
no name ends there. While a walk is out the positions on its chain hold links, and each of them
has the answer of the boundary the walk stands at.
-/

namespace MarkdownCore.Attributes

open Inline

/-- The word of an answer. -/
def answerWord : Option ℕ → ℤ
  | some finish => finish
  | none => invalid

/-- The container read from a boundary ends so. -/
def Finishes (data : List UInt8) (b : ℕ) (finish : Option ℕ) : Prop :=
  ∃ members, Reads data b members finish

lemma Finishes.unique {data : List UInt8} {b : ℕ} {finish other : Option ℕ}
    (h : Finishes data b finish) (h' : Finishes data b other) : finish = other := by
  obtain ⟨_, hreads⟩ := h
  obtain ⟨_, hreads'⟩ := h'
  exact (hreads.unique hreads').2

/-- A position at or behind a byte that ends a name. -/
def Landing (data : List UInt8) (b : ℕ) : Prop :=
  data.length ≤ b ∨ nameTerminator (byteAt data b) = true ∨
    ∃ a, b = a + 1 ∧ nameTerminator (byteAt data a) = true

/-- A name from a landing ends at the `=` at `e`. -/
def Assigns (data : List UInt8) (e : ℕ) : Prop :=
  byteAt data e = 0x3d ∧ ∃ q < e, Landing data q ∧ byteAt data q ≠ 0x23 ∧ byteAt data q ≠ 0x2e ∧
    ∀ k, q ≤ k → k < e → nameTerminator (byteAt data k) = false

/-- A landing that is no `=` behind a name. -/
structure Boundary (data : List UInt8) (b : ℕ) : Prop where
  landing : Landing data b
  unassigned : ¬ Assigns data b

/-- An answer is the one of a position. -/
structure Right (data : List UInt8) (pos : ℕ) (finish : Option ℕ) : Prop where
  container : byteAt data pos ≠ 0x3d → Finishes data pos finish
  assignment : Assigns data pos → Finishes data (assigned data pos).2.2 finish

/-! ### Boundaries -/

section

variable {data : List UInt8} {b next e : ℕ}

/-- Behind a byte that ends a name stands a boundary. -/
lemma Boundary.behind {a : ℕ} (h : nameTerminator (byteAt data a) = true) :
    Boundary data (a + 1) := by
  refine ⟨Or.inr (Or.inr ⟨a, rfl, h⟩), ?_⟩
  rintro ⟨_, q, hlt, _, _, _, hname⟩
  rw [hname a (Nat.lt_succ_iff.mp hlt) (Nat.lt_succ_self a)] at h
  cases h

/-- Where a value may end stands a boundary. -/
lemma Boundary.of_memberBoundary (h : memberBoundary data b = true) : Boundary data b := by
  rw [memberBoundary, Bool.or_eq_true, decide_eq_true_eq] at h
  rcases h with hend | hvalue
  · refine ⟨Or.inl hend, ?_⟩
    rintro ⟨hassign, _⟩
    rw [byteAt_of_length_le hend] at hassign
    cases hassign
  · refine ⟨Or.inr (Or.inl (valueEnd_nameTerminator hvalue)), ?_⟩
    rintro ⟨hassign, _⟩
    exact valueEnd_ne_assign hvalue hassign

/-- Two names that end at one place from landings start at one place. -/
lemma Landing.start_unique {q r : ℕ} (hq : Landing data q) (hr : Landing data r) (hqe : q < e)
    (hre : r < e) (he : e ≤ data.length)
    (hqname : ∀ k, q ≤ k → k < e → nameTerminator (byteAt data k) = false)
    (hrname : ∀ k, r ≤ k → k < e → nameTerminator (byteAt data k) = false) : q = r := by
  have hle : ∀ q r, Landing data r → q < e → r < e →
      (∀ k, q ≤ k → k < e → nameTerminator (byteAt data k) = false) →
      (∀ k, r ≤ k → k < e → nameTerminator (byteAt data k) = false) → r ≤ q := by
    intro q r hr hqe hre hqname hrname
    by_contra hlt
    rcases hr with hend | hhere | ⟨a, rfl, ha⟩
    · omega
    · rw [hrname r le_rfl hre] at hhere
      cases hhere
    · rw [hqname a (by omega) (by omega)] at ha
      cases ha
  exact le_antisymm (hle r q hq hre hqe hrname hqname) (hle q r hr hqe hre hqname hrname)

/-- A byte that is no terminator, and the name from behind it, are one name. -/
lemma name_byte (hfirst : nameTerminator (byteAt data b) = false) {k : ℕ} (hle : b ≤ k)
    (hlt : k < scanName data (b + 1)) : nameTerminator (byteAt data k) = false := by
  rcases Nat.eq_or_lt_of_le hle with rfl | hbehind
  · exact hfirst
  · exact (scanName_byte hbehind hlt).2

/-- Where an identifier or a class ends, no other name does. -/
lemma marked_boundary (hlt : b < data.length) (hb : Landing data b)
    (hmark : byteAt data b = 0x23 ∨ byteAt data b = 0x2e) :
    Boundary data (scanName data (b + 1)) := by
  have hfirst : nameTerminator (byteAt data b) = false := by
    rcases hmark with h | h <;> rw [h] <;> decide
  have hle := le_scanName data (b + 1)
  refine ⟨?_, ?_⟩
  · rcases Nat.lt_or_ge (scanName data (b + 1)) data.length with hin | hend
    · exact Or.inr (Or.inl (scanName_stop hin))
    · exact Or.inl hend
  · rintro ⟨_, q, hqe, hq, hnumber, hdot, hqname⟩
    obtain rfl : q = b := hq.start_unique hb hqe (by omega) (scanName_le hlt) hqname
      (fun k => name_byte hfirst)
    rcases hmark with h | h
    · exact hnumber h
    · exact hdot h

/-- The boundary behind a member is one. -/
lemma dispatch_boundary {m : Member} (hlt : b < data.length) (hb : Landing data b)
    (h : dispatch data b = .member m next) : Boundary data next := by
  unfold dispatch at h
  dsimp only at h
  split_ifs at h with hclose hother hdash hmark
  all_goals cases h
  · exact .of_memberBoundary hdash.2
  · exact marked_boundary hlt hb hmark
  · exact marked_boundary hlt hb hmark
  · rename_i hboundary
    exact .of_memberBoundary hboundary

/-- The `=` of an assignment is one. -/
lemma dispatch_assigns (hb : Landing data b) (hgap : horizontal (byteAt data b) = false)
    (hline : newline (byteAt data b) = false) (h : dispatch data b = .assignment e) :
    Assigns data e := by
  obtain ⟨hbe, he, hbyte, heq⟩ := dispatch_assignment h
  unfold dispatch at h
  dsimp only at h
  split_ifs at h with hclose hother hdash hmark
  rw [not_or, not_or, not_or] at hother
  rw [not_or] at hmark
  have hfirst : nameTerminator (byteAt data b) = false := by
    simp [nameTerminator, isQuote, hgap, hline, hclose, hother]
  refine ⟨hbyte, b, hbe, hb, hmark.1, hmark.2, ?_⟩
  intro k hle hlt
  rw [heq] at hlt
  exact name_byte hfirst hle hlt

lemma unquotedStop_boundary (pos : ℕ) : Boundary data (unquotedStop data pos) := by
  apply Boundary.of_memberBoundary
  rcases unquotedStop_spec data pos with heq | ⟨_, _, hend⟩
  · simp [memberBoundary, heq]
  · simp [memberBoundary, hend]

lemma quoteLed_isQuote (h : quoteLed data e = true) : isQuote (byteAt data (e + 1)) = true := by
  rw [quoteLed, Bool.and_eq_true] at h
  exact h.2

lemma valueClose_boundary (h : valueClose data e + 1 < data.length) :
    Boundary data (valueClose data e + 1) := by
  obtain ⟨hled, heq, _⟩ := valueClose_spec h
  apply Boundary.behind
  rw [heq, (quoteClose_spec (by omega)).2]
  exact isQuote_nameTerminator (quoteLed_isQuote hled)

/-! ### Outcomes -/

lemma finishes_last {finish : Option ℕ} (h : outcome data b = .last finish) :
    Finishes data b finish := ⟨[], .last h⟩

lemma finishes_gap {finish : Option ℕ} (h : outcome data b = .gap next) :
    Finishes data next finish → Finishes data b finish :=
  fun ⟨members, rest⟩ => ⟨members, .gap h rest⟩

lemma finishes_member {m : Member} {finish : Option ℕ} (h : outcome data b = .member m next) :
    Finishes data next finish → Finishes data b finish :=
  fun ⟨members, rest⟩ => ⟨m :: members, .member h rest⟩

lemma outcome_of_le (h : data.length ≤ b) : outcome data b = .last none := by
  rw [outcome, if_pos h]

lemma outcome_of_gap (hlt : b < data.length)
    (hgap : (horizontal (byteAt data b) || newline (byteAt data b)) = true) :
    outcome data b = .ofGap (skipGap data b) := by
  rw [outcome, if_neg (Nat.not_le.mpr hlt), if_pos hgap]

lemma outcome_of_dispatch (hlt : b < data.length)
    (hgap : ¬ (horizontal (byteAt data b) || newline (byteAt data b)) = true) :
    outcome data b = .ofDispatch data b (dispatch data b) := by
  rw [outcome, if_neg (Nat.not_le.mpr hlt), if_neg hgap]

end

/-! ### The memo -/

section

variable {data : List UInt8} {ends : Ends} {chain value : ℤ} {ps : List ℕ} {pos b : ℕ}

lemma word_write (ends : Ends) (pos : ℕ) (value : ℤ) (other : ℕ) :
    (ends.write data pos value).word data other =
      if other = pos then value else ends.word data other := by
  unfold Ends.write Ends.word
  by_cases hassign : byteAt data pos = 0x3d
  · rw [if_pos hassign]
    by_cases heq : other = pos
    · simp [heq, hassign]
    · simp [heq]
  · rw [if_neg hassign]
    by_cases heq : other = pos
    · simp [heq, hassign]
    · simp [heq]

lemma end_write (hassign : byteAt data b = 0x3d) (ends : Ends) (pos : ℕ) (value : ℤ) :
    (ends.write data pos value).end b = ends.end b := by
  unfold Ends.write
  split
  · rfl
  · rename_i hpos
    have hne : b ≠ pos := by
      rintro rfl
      exact hpos hassign
    simp [hne]

/-- Outside the pending positions a known word is right; an `=` is kept as an `=` only. -/
structure Sound (data : List UInt8) (ends : Ends) (pending : List ℕ) : Prop where
  right : ∀ pos ∉ pending, known (ends.word data pos) = true →
    ∃ finish, ends.word data pos = answerWord finish ∧ Right data pos finish
  assign : ∀ pos, byteAt data pos = 0x3d → ends.end pos = 0

/-- The chain leads through these positions. -/
inductive Chained (data : List UInt8) (ends : Ends) : ℤ → List ℕ → Prop
  | none : Chained data ends linkNone []
  | cons {pos : ℕ} {previous : ℤ} {ps : List ℕ} (h : ends.word data pos = link previous)
      (rest : Chained data ends previous ps) : Chained data ends pos (pos :: ps)

lemma Chained.write (h : Chained data ends chain ps) (hpos : pos ∉ ps) (value : ℤ) :
    Chained data (ends.write data pos value) chain ps := by
  induction h with
  | none => exact .none
  | @cons other previous ps hword _ ih =>
    rw [List.mem_cons, not_or] at hpos
    refine .cons ?_ (ih hpos.2)
    rw [word_write, if_neg (Ne.symm hpos.1), hword]

/-- A walk that is out: its chain leads down through positions before the one it stands at. -/
structure Out (data : List UInt8) (ends : Ends) (chain : ℤ) (ps : List ℕ) (b : ℕ) : Prop where
  sound : Sound data ends ps
  chained : Chained data ends chain ps
  sorted : ps.Pairwise (· > ·)
  before : ∀ p ∈ ps, p < b

lemma Out.mono (h : Out data ends chain ps b) {b' : ℕ} (hle : b ≤ b') :
    Out data ends chain ps b' :=
  { h with before := fun p hp => Nat.lt_of_lt_of_le (h.before p hp) hle }

lemma Out.push (h : Out data ends chain ps b) :
    Out data (push data ends chain b).1 (push data ends chain b).2 (b :: ps) (b + 1) where
  sound := by
    constructor
    · intro pos hpos hknown
      rw [List.mem_cons, not_or] at hpos
      have hword : (Attributes.push data ends chain b).1.word data pos = ends.word data pos := by
        rw [Attributes.push, word_write, if_neg hpos.1]
      rw [hword] at hknown ⊢
      exact h.sound.right pos hpos.2 hknown
    · intro pos hassign
      rw [Attributes.push, end_write hassign]
      exact h.sound.assign pos hassign
  chained := by
    refine .cons ?_ (h.chained.write ?_ _)
    · rw [Attributes.push, word_write, if_pos rfl]
    · exact fun hb => absurd (h.before b hb) (Nat.lt_irrefl b)
  sorted := List.pairwise_cons.mpr ⟨h.before, h.sorted⟩
  before := by
    intro p hp
    rcases List.mem_cons.mp hp with rfl | hp
    · exact Nat.lt_succ_self p
    · exact Nat.lt_succ_of_lt (h.before p hp)

/-- Every position on the chain gets the answer, and nothing else changes. -/
lemma writeBack_spec (answer : ℤ) : ∀ ps ends chain steps, Chained data ends chain ps → ps.Nodup →
    ps.length < steps →
    (∀ pos ∈ ps, (writeBack data answer steps ends chain).word data pos = answer) ∧
    (∀ pos ∉ ps, (writeBack data answer steps ends chain).word data pos = ends.word data pos) ∧
    ∀ pos, byteAt data pos = 0x3d →
      (writeBack data answer steps ends chain).end pos = ends.end pos := by
  intro ps
  induction ps with
  | nil =>
    intro ends chain steps hchain _ hsteps
    obtain ⟨steps, rfl⟩ := Nat.exists_eq_succ_of_ne_zero (Nat.ne_of_gt hsteps)
    cases hchain with
    | none => simp [writeBack]
  | cons p ps ih =>
    intro ends chain steps hchain hnodup hsteps
    obtain ⟨steps, rfl⟩ := Nat.exists_eq_succ_of_ne_zero (Nat.ne_of_gt (Nat.zero_lt_of_lt hsteps))
    obtain ⟨hp, hnodup⟩ := List.nodup_cons.mp hnodup
    cases hchain with
    | @cons _ previous _ hword rest =>
      have hne : (p : ℤ) ≠ linkNone := by
        unfold linkNone
        omega
      rw [writeBack, if_neg hne, Int.toNat_natCast, hword, linked_link]
      obtain ⟨hin, hout, hends⟩ := ih (ends.write data p answer) previous steps
        (rest.write hp answer) hnodup (Nat.lt_of_succ_lt_succ hsteps)
      refine ⟨?_, ?_, ?_⟩
      · intro pos hpos
        rcases List.mem_cons.mp hpos with rfl | hpos
        · rw [hout pos hp, word_write, if_pos rfl]
        · exact hin pos hpos
      · intro pos hpos
        rw [List.mem_cons, not_or] at hpos
        rw [hout pos hpos.2, word_write, if_neg hpos.1]
      · intro pos hassign
        rw [hends pos hassign, end_write hassign]

/-- The positions on the chain have the answer of `b`. -/
def Waits (data : List UInt8) (ps : List ℕ) (b : ℕ) : Prop :=
  ∀ p ∈ ps, ∀ finish, Finishes data b finish → Right data p finish

/-- An `=` in an unquoted value, with no quote behind it, opens a value with the same end. -/
lemma assigned_inside {e : ℕ} (hassign : byteAt data e = 0x3d)
    (hquote : ¬ isQuote (byteAt data (e + 1)) = true) :
    (assigned data e).2.2 = unquotedStop data e := by
  have hled : quoteLed data e = false := by
    rw [Bool.not_eq_true] at hquote
    rw [quoteLed, hquote, Bool.and_false]
  have hend : valueEnd (byteAt data e) = false := by
    rw [hassign]
    decide
  have hescape : escaped data e = false := by
    simp [escaped, hassign]
  have hclose : ¬ valueClose data e + 1 < data.length := by
    rw [valueClose, hled, if_neg Bool.false_ne_true]
    omega
  rw [assigned, if_neg hclose, unquotedStop_step hend, hescape, if_neg Bool.false_ne_true]

/-- The scan of an unquoted value ends where the value does, and the chain waits for it. -/
lemma unquotedEnd_spec : ∀ steps ends chain pos ps, data.length ≤ pos + steps →
    pos ≤ data.length → Out data ends chain ps pos → Waits data ps (unquotedStop data pos) →
    (unquotedEnd data steps ends chain pos).1 = unquotedStop data pos ∧
      ∃ ps', Out data (unquotedEnd data steps ends chain pos).2.1
          (unquotedEnd data steps ends chain pos).2.2 ps' (unquotedStop data pos) ∧
        Waits data ps' (unquotedStop data pos) := by
  intro steps
  induction steps with
  | zero =>
    intro ends chain pos ps hsteps hle hout hwaits
    have hend : data.length ≤ pos := hsteps
    have hstop := unquotedStop_of_le hend
    refine ⟨hstop.symm, ps, hout.mono (le_unquotedStop hle), hwaits⟩
  | succ steps ih =>
    intro ends chain pos ps hsteps hle hout hwaits
    rw [unquotedEnd]
    split
    · rename_i hend
      exact ⟨(unquotedStop_of_le hend).symm, ps, hout.mono (le_unquotedStop hle), hwaits⟩
    rename_i hlt
    split
    · rename_i hend
      exact ⟨(unquotedStop_of_valueEnd (by omega) hend).symm, ps,
        hout.mono (le_unquotedStop hle), hwaits⟩
    rename_i hend
    rw [Bool.not_eq_true] at hend
    have hstep := unquotedStop_step hend
    split
    · rename_i hescape
      rw [hescape, if_pos rfl] at hstep
      rw [hstep] at hwaits ⊢
      have hin : pos + 1 < data.length := by
        simp only [escaped, Bool.and_eq_true, decide_eq_true_eq] at hescape
        exact hescape.1.2
      exact ih _ _ _ ps (by omega) hin (hout.mono (Nat.le_add_right _ _)) hwaits
    rename_i hescape
    rw [if_neg hescape] at hstep
    split
    · rename_i hjoins
      -- The `=` joins the chain, and the value behind it has the same end.
      have hjoined : Waits data (pos :: ps) (unquotedStop data pos) := by
        intro p hp finish hfinish
        rcases List.mem_cons.mp hp with rfl | hp
        · refine ⟨fun hne => absurd hjoins.1 hne, fun _ => ?_⟩
          rw [assigned_inside hjoins.1 hjoins.2.2.1]
          exact hfinish
        · exact hwaits p hp finish hfinish
      rw [hstep] at hjoined ⊢
      exact ih _ _ _ _ (by omega) (by omega) hout.push hjoined
    · rw [hstep] at hwaits ⊢
      exact ih _ _ _ ps (by omega) (by omega) (hout.mono (Nat.le_succ _)) hwaits

/-- A walk that has come to an answer: it is right for the whole chain. -/
structure Answered (data : List UInt8) (result : ℤ × Ends × ℤ) (finish : Option ℕ)
    (ps : List ℕ) : Prop where
  answer : result.1 = answerWord finish
  sound : Sound data result.2.1 ps
  chained : Chained data result.2.1 result.2.2 ps
  sorted : ps.Pairwise (· > ·)
  inside : ∀ p ∈ ps, p < data.length
  right : ∀ p ∈ ps, Right data p finish

lemma Out.answered (hout : Out data ends chain ps b) (hin : ∀ p ∈ ps, p < data.length)
    {at' : ℕ} (hwaits : Waits data ps at') {finish : Option ℕ} (hfinish : Finishes data at' finish)
    {answer : ℤ} (hanswer : answer = answerWord finish) :
    Answered data (answer, ends, chain) finish ps :=
  ⟨hanswer, hout.sound, hout.chained, hout.sorted, hin, fun p hp => hwaits p hp finish hfinish⟩

/-- The chain waits for a boundary further on. -/
lemma Waits.on {b next : ℕ} (h : Waits data ps b)
    (hon : ∀ finish, Finishes data next finish → Finishes data b finish) : Waits data ps next :=
  fun p hp finish hfinish => h p hp finish (hon finish hfinish)

/-- A boundary that is pushed waits for its own answer. -/
lemma Waits.push (h : Waits data ps b) (hb : Boundary data b) : Waits data (b :: ps) b := by
  intro p hp finish hfinish
  rcases List.mem_cons.mp hp with rfl | hp
  · exact ⟨fun _ => hfinish, fun hassigns => absurd hassigns hb.unassigned⟩
  · exact h p hp finish hfinish

/-- The walk from a boundary finds the boundary's answer. -/
lemma walk_spec : ∀ steps ends chain b ps, data.length < b + steps →
    Boundary data b → Out data ends chain ps b → (∀ p ∈ ps, p < data.length) → Waits data ps b →
    ∃ finish ps', Finishes data b finish ∧
      Answered data (walk data steps ends chain b) finish ps' := by
  intro steps
  induction steps with
  | zero =>
    intro ends chain b ps hsteps hb hout hin hwaits
    have hend : data.length ≤ b := by omega
    have hlast := finishes_last (outcome_of_le hend)
    exact ⟨none, ps, hlast, hout.answered hin hwaits hlast rfl⟩
  | succ steps ih =>
    intro ends chain b ps hsteps hb hout hin hwaits
    rw [walk]
    split
    · rename_i hend
      have hlast := finishes_last (outcome_of_le hend)
      exact ⟨none, ps, hlast, hout.answered hin hwaits hlast rfl⟩
    rename_i hlt
    rw [not_le] at hlt
    split
    · rename_i hgap
      have houtcome := outcome_of_gap hlt hgap
      cases hskip : skipGap data b with
      | none =>
        rw [hskip] at houtcome
        have hlast := finishes_last houtcome
        exact ⟨none, ps, hlast, hout.answered hin hwaits hlast rfl⟩
      | some next =>
        rw [hskip] at houtcome
        obtain ⟨hlt', _, a, rfl, ha⟩ := skipGap_spec hlt hgap hskip
        have hon := fun finish => @finishes_gap _ _ _ finish houtcome
        obtain ⟨finish, ps', hfinish, hanswered⟩ := ih ends chain (a + 1) ps (by omega)
          (Boundary.behind ha) (hout.mono hlt'.le) hin (hwaits.on hon)
        exact ⟨finish, ps', hon finish hfinish, hanswered⟩
    rename_i hgap
    have houtcome := outcome_of_dispatch hlt hgap
    split
    · rename_i hknown
      -- The position is known, and it holds no `=`.
      have hne : byteAt data b ≠ 0x3d := by
        intro hassign
        rw [hout.sound.assign b hassign] at hknown
        cases hknown
      have hword : ends.word data b = ends.end b := if_neg hne
      rw [← hword] at hknown ⊢
      obtain ⟨finish, hanswer, hright⟩ := hout.sound.right b
        (fun hp => Nat.lt_irrefl b (hout.before b hp)) hknown
      have hfinish := hright.container hne
      exact ⟨finish, ps, hfinish, hout.answered hin hwaits hfinish hanswer⟩
    rename_i hunknown
    have hpushed := hout.push
    have hwaiting := hwaits.push hb
    have hinside : ∀ p ∈ b :: ps, p < data.length := List.forall_mem_cons.mpr ⟨hlt, hin⟩
    generalize push data ends chain b = pushed at hpushed ⊢
    obtain ⟨ends, chain⟩ := pushed
    dsimp only at hpushed ⊢
    cases hdispatch : dispatch data b with
    | last result =>
      rw [hdispatch] at houtcome
      have hlast := finishes_last houtcome
      cases result with
      | none => exact ⟨none, b :: ps, hlast, hpushed.answered hinside hwaiting hlast rfl⟩
      | some finish =>
        exact ⟨some finish, b :: ps, hlast, hpushed.answered hinside hwaiting hlast rfl⟩
    | member m next =>
      rw [hdispatch] at houtcome
      obtain ⟨hlt', _⟩ := dispatch_member hlt hdispatch
      have hon := fun finish => @finishes_member _ _ _ _ finish houtcome
      obtain ⟨finish, ps', hfinish, hanswered⟩ := ih ends chain next (b :: ps) (by omega)
        (dispatch_boundary hlt hb.landing hdispatch) (hpushed.mono hlt') hinside
        (hwaiting.on hon)
      exact ⟨finish, ps', hon finish hfinish, hanswered⟩
    | assignment e =>
      rw [hdispatch] at houtcome
      obtain ⟨hbe, he, hbyte, _⟩ := dispatch_assignment hdispatch
      have hassigns : Assigns data e := by
        rw [Bool.not_eq_true, Bool.or_eq_false_iff] at hgap
        exact dispatch_assigns hb.landing hgap.1 hgap.2 hdispatch
      have hon := fun finish => @finishes_member _ _ _ _ finish houtcome
      dsimp only
      split
      · rename_i hknown
        -- The value of the `=` is known.
        have hword : ends.word data e = ends.assignmentEnd e := if_pos hbyte
        rw [← hword] at hknown ⊢
        have hnew : e ∉ b :: ps := by
          intro hp
          have := hpushed.before e hp
          omega
        obtain ⟨finish, hanswer, hright⟩ := hpushed.sound.right e hnew hknown
        have hfinish := hon finish (hright.assignment hassigns)
        exact ⟨finish, b :: ps, hfinish, hpushed.answered hinside hwaiting hfinish hanswer⟩
      rename_i hunknown'
      have hpushed' := (hpushed.mono hbe).push
      have hinside' : ∀ p ∈ e :: b :: ps, p < data.length :=
        List.forall_mem_cons.mpr ⟨he, hinside⟩
      have hwaiting' : Waits data (e :: b :: ps) (assigned data e).2.2 := by
        intro p hp finish hfinish
        rcases List.mem_cons.mp hp with rfl | hp
        · exact ⟨fun hne => absurd hbyte hne, fun _ => hfinish⟩
        · exact hwaiting p hp finish (hon finish hfinish)
      generalize push data ends chain e = pushed at hpushed' ⊢
      obtain ⟨ends, chain⟩ := pushed
      dsimp only at hpushed' ⊢
      split
      · rename_i hclose
        obtain ⟨_, _, hlt'⟩ := valueClose_spec hclose
        have hnext : (assigned data e).2.2 = valueClose data e + 1 := by
          rw [assigned, if_pos hclose]
        rw [hnext] at hwaiting' hon
        obtain ⟨finish, ps', hfinish, hanswered⟩ := ih ends chain (valueClose data e + 1)
          (e :: b :: ps) (by omega) (valueClose_boundary hclose) (hpushed'.mono (by omega))
          hinside' hwaiting'
        exact ⟨finish, ps', hon finish hfinish, hanswered⟩
      · rename_i hclose
        have hnext : (assigned data e).2.2 = unquotedStop data (e + 1) := by
          rw [assigned, if_neg hclose]
        rw [hnext] at hwaiting' hon
        obtain ⟨hend, ps', hout', hwaits'⟩ := unquotedEnd_spec data.length ends chain (e + 1)
          (e :: b :: ps) (by omega) he hpushed' hwaiting'
        have hstop : e + 1 ≤ unquotedStop data (e + 1) := le_unquotedStop he
        have hin' : ∀ p ∈ ps', p < data.length := by
          intro p hp
          exact Nat.lt_of_lt_of_le (hout'.before p hp) unquotedStop_le
        generalize unquotedEnd data data.length ends chain (e + 1) = result at hend hout' ⊢
        obtain ⟨next, ends', chain'⟩ := result
        dsimp only at hend hout' ⊢
        subst hend
        obtain ⟨finish, ps'', hfinish, hanswered⟩ := ih ends' chain' _ ps' (by omega)
          (unquotedStop_boundary (e + 1)) hout' hin' hwaits'
        exact ⟨finish, ps'', hon finish hfinish, hanswered⟩

end

end MarkdownCore.Attributes
