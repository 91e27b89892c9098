import MarkdownCore.Attributes.Memo
import MarkdownCore.Attributes.Cut
import Mathlib.Algebra.Group.Nat.Even
import Mathlib.Data.List.Perm.Subperm
import Mathlib.Order.Bounds.Defs

/-!
# Recognition does not depend on what was asked before

Whatever braces a parser has been asked about, it answers about the next one as a fresh parser
does, and the tail of a text is its first unescaped brace whose container ends where the text does.
-/

namespace MarkdownCore.Attributes

open Inline

section

variable {data : List UInt8} {storage : Bool} {p : Parser}

/-- A memo that is sound with no walk out stays so, and the answer is the boundary's. -/
lemma recognise_spec {ends : Ends} {b : ℕ} (hb : Boundary data b) (h : Sound data ends []) :
    ∃ finish, (recognise data ends b).1 = answerWord finish ∧ Finishes data b finish ∧
      Sound data (recognise data ends b).2 [] := by
  have hout : Out data ends linkNone [] b :=
    ⟨h, .none, List.Pairwise.nil, fun p hp => absurd hp List.not_mem_nil⟩
  obtain ⟨finish, ps, hfinish, hanswered⟩ := walk_spec (data.length + 1) ends linkNone b []
    (by omega) hb hout (fun p hp => absurd hp List.not_mem_nil)
    (fun p hp => absurd hp List.not_mem_nil)
  unfold recognise
  generalize walk data (data.length + 1) ends linkNone b = result at hanswered ⊢
  obtain ⟨answer, ends', chain⟩ := result
  have hnodup : ps.Nodup := hanswered.sorted.imp fun h => Nat.ne_of_gt h
  have hlength : ps.length < data.length + 1 := by
    have hsub : ps ⊆ List.range data.length := fun p hp => List.mem_range.mpr (hanswered.inside p hp)
    have hle := (List.subperm_of_subset hnodup hsub).length_le
    rw [List.length_range] at hle
    omega
  obtain ⟨hin, hout', hends⟩ := writeBack_spec answer ps ends' chain (data.length + 1)
    hanswered.chained hnodup hlength
  refine ⟨finish, hanswered.answer, hfinish, ?_, ?_⟩
  · intro pos _ hknown
    by_cases hpos : pos ∈ ps
    · exact ⟨finish, (hin pos hpos).trans hanswered.answer, hanswered.right pos hpos⟩
    · rw [hout' pos hpos] at hknown ⊢
      exact hanswered.sound.right pos hpos hknown
  · intro pos hassign
    rw [hends pos hassign]
    exact hanswered.sound.assign pos hassign

lemma Sound.blank (data : List UInt8) : Sound data .blank [] := by
  constructor
  · intro pos _ hknown
    have hword : Ends.blank.word data pos = 0 := by
      unfold Ends.word
      split <;> rfl
    rw [hword] at hknown
    cases hknown
  · exact fun _ _ => rfl

/-- A parser of a text, after whatever was asked of it. -/
structure Parser.Kept (storage : Bool) (data : List UInt8) (p : Parser) : Prop where
  text : p.data = data
  sound : ∀ ends, p.ends = some ends → Sound data ends []
  granted : p.ends ≠ none → storage = true
  refused : p.oom = true → storage = false

lemma Parser.Kept.fresh (storage : Bool) (data : List UInt8) :
    Parser.Kept storage data (.fresh data) :=
  ⟨rfl, (fun _ h => by cases h), (fun h => absurd rfl h), (fun h => by cases h)⟩

/-- What a parser answers about a brace. -/
def Answers (storage : Bool) (data : List UInt8) (start answer : ℕ) : Prop :=
  if storage = true ∧ start < data.length ∧ byteAt data start = 0x7b then
    ∃ finish, Finishes data (start + 1) finish ∧ answer = finish.getD 0
  else answer = 0

lemma Answers.unique {start answer other : ℕ} (h : Answers storage data start answer)
    (h' : Answers storage data start other) : answer = other := by
  unfold Answers at h h'
  split at h
  · rename_i hbrace
    rw [if_pos hbrace] at h'
    obtain ⟨finish, hfinish, rfl⟩ := h
    obtain ⟨finish', hfinish', rfl⟩ := h'
    rw [hfinish.unique hfinish']
  · rename_i hbrace
    rw [if_neg hbrace] at h'
    rw [h, h']

/-- The answer a word holds. -/
lemma answerWord_toNat (finish : Option ℕ) :
    (if answerWord finish = invalid then 0 else (answerWord finish).toNat) = finish.getD 0 := by
  cases finish with
  | none => rfl
  | some k =>
    have hne : answerWord (some k) ≠ invalid := by
      show (k : ℤ) ≠ -1
      omega
    rw [if_neg hne]
    rfl

/-- Every query is answered by the text alone, and keeps the parser. -/
lemma attributesEnd_spec (h : p.Kept storage data) (start : ℕ) :
    Answers storage data start (attributesEnd storage p start).1 ∧
      (attributesEnd storage p start).2.Kept storage data := by
  unfold attributesEnd
  split
  · rename_i hoom
    have hrefused := h.refused hoom
    refine ⟨?_, h⟩
    rw [Answers, if_neg (fun hc => by rw [hrefused] at hc; cases hc.1)]
  rename_i hoom
  rw [h.text]
  split
  · rename_i hout
    refine ⟨?_, h⟩
    rw [Answers, if_neg]
    rintro ⟨_, hlt, hbyte⟩
    rcases hout with hle | hne
    · omega
    · exact hne hbyte
  rename_i hin
  rw [not_or, not_le, not_not] at hin
  cases hmemo : p.memoReady storage with
  | none =>
    have hrefused : storage = false := by
      unfold Parser.memoReady at hmemo
      cases hends : p.ends with
      | some ends =>
        rw [hends] at hmemo
        cases hmemo
      | none =>
        rw [hends] at hmemo
        cases storage with
        | false => rfl
        | true => cases hmemo
    refine ⟨?_, rfl, h.sound, h.granted, fun _ => hrefused⟩
    rw [Answers, if_neg (fun hc => by rw [hrefused] at hc; cases hc.1)]
  | some ends =>
    have hends : Sound data ends [] ∧ storage = true := by
      unfold Parser.memoReady at hmemo
      cases hkept : p.ends with
      | some kept =>
        rw [hkept] at hmemo
        cases hmemo
        exact ⟨h.sound _ hkept, h.granted (by rw [hkept]; exact Option.some_ne_none _)⟩
      | none =>
        rw [hkept] at hmemo
        cases storage with
        | false => cases hmemo
        | true =>
          cases hmemo
          exact ⟨Sound.blank data, rfl⟩
    have hb : Boundary data (start + 1) := by
      apply Boundary.behind
      rw [hin.2]
      decide
    obtain ⟨finish, hanswer, hfinish, hsound⟩ := recognise_spec hb hends.1
    dsimp only
    generalize recognise data ends (start + 1) = result at hanswer hsound ⊢
    obtain ⟨answer, ends'⟩ := result
    dsimp only at hanswer hsound ⊢
    refine ⟨?_, rfl, ?_, fun _ => hends.2, h.refused⟩
    · rw [Answers, if_pos ⟨hends.2, hin⟩]
      refine ⟨finish, hfinish, ?_⟩
      rw [hanswer]
      exact answerWord_toNat finish
    · intro kept hkept
      cases hkept
      exact hsound

/-- A kept parser answers as a fresh one. -/
lemma attributesEnd_fresh (h : p.Kept storage data) (start : ℕ) :
    (attributesEnd storage p start).1 = (attributesEnd storage (.fresh data) start).1 :=
  (attributesEnd_spec h start).1.unique
    (attributesEnd_spec (Parser.Kept.fresh storage data) start).1

end

/-- The queries one after another: the answers, and the parser they leave. -/
def endsRun (storage : Bool) : Parser → List ℕ → List ℕ × Parser
  | p, [] => ([], p)
  | p, start :: starts =>
    let (answer, p) := attributesEnd storage p start
    let (answers, p) := endsRun storage p starts
    (answer :: answers, p)

lemma endsRun_spec {storage : Bool} {data : List UInt8} (starts : List ℕ) :
    ∀ p : Parser, p.Kept storage data →
      (endsRun storage p starts).1 =
        starts.map (fun start => (attributesEnd storage (.fresh data) start).1) ∧
      (endsRun storage p starts).2.Kept storage data := by
  induction starts with
  | nil => exact fun p h => ⟨rfl, h⟩
  | cons start starts ih =>
    intro p h
    obtain ⟨hanswers, hkept⟩ := ih _ (attributesEnd_spec h start).2
    refine ⟨?_, hkept⟩
    rw [List.map_cons, ← attributesEnd_fresh h start, ← hanswers]
    rfl

/-! ### The tail -/

/-- How many backslashes stand directly before a position, from `start` on. -/
def backslashes (data : List UInt8) (start : ℕ) : ℕ → ℕ
  | 0 => 0
  | pos + 1 =>
    if start ≤ pos ∧ byteAt data pos = 0x5c then backslashes data start pos + 1 else 0

/-- A brace before `stop` that no backslash escapes and whose container ends at `stop`. -/
structure TailBrace (storage : Bool) (data : List UInt8) (start stop pos : ℕ) : Prop where
  le : start ≤ pos
  lt : pos < stop
  brace : byteAt data pos = 0x7b
  unescaped : Even (backslashes data start pos)
  ends : (attributesEnd storage (.fresh data) pos).1 = stop

/-- The first tail brace, none where there is none. -/
def IsTail (storage : Bool) (data : List UInt8) (start stop : ℕ) : Option ℕ → Prop
  | some pos => IsLeast {pos | TailBrace storage data start stop pos} pos
  | none => ∀ pos, ¬ TailBrace storage data start stop pos

section

variable {data : List UInt8} {storage : Bool} {start stop pos : ℕ}

/-- No backslash the scan has passed escapes the punctuation at a position. -/
def Whole (data : List UInt8) (start stop pos : ℕ) : Prop :=
  pos < stop → ispunct (byteAt data pos) = true → Even (backslashes data start pos)

lemma backslashes_succ (hle : start ≤ pos) (hbyte : byteAt data pos = 0x5c) :
    backslashes data start (pos + 1) = backslashes data start pos + 1 := by
  rw [backslashes, if_pos ⟨hle, hbyte⟩]

lemma backslashes_other (hbyte : byteAt data pos ≠ 0x5c) :
    backslashes data start (pos + 1) = 0 := by
  rw [backslashes, if_neg (fun hc => hbyte hc.2)]

/-- Behind a byte that escapes nothing the scan is at a whole unit. -/
lemma Whole.next (hstop : stop ≤ data.length)
    (hescape : escaped (data.take stop) pos = false) : Whole data start stop (pos + 1) := by
  intro hlt hpunct
  rw [backslashes_other]
  · exact Even.zero
  · intro hbyte
    rw [escaped_cut hstop hlt] at hescape
    rw [escaped_iff.mpr ⟨hbyte, Nat.lt_of_lt_of_le hlt hstop, hpunct⟩] at hescape
    cases hescape

/-- An escape: the byte behind the backslash is escaped, and the one behind it is not. -/
lemma Whole.escape (hle : start ≤ pos) (h : Whole data start stop pos)
    (hstop : stop ≤ data.length) (hescape : escaped (data.take stop) pos = true) :
    ¬ Even (backslashes data start (pos + 1)) ∧ Whole data start stop (pos + 2) := by
  have hlt : pos + 1 < stop := by
    by_contra hcon
    rw [escaped_cut_last hstop (Nat.not_lt.mp hcon)] at hescape
    cases hescape
  rw [escaped_cut hstop hlt] at hescape
  obtain ⟨hbyte, _, hpunct⟩ := escaped_iff.mp hescape
  have heven : Even (backslashes data start pos) := by
    apply h (Nat.lt_of_succ_lt hlt)
    rw [hbyte]
    decide
  have hodd : ¬ Even (backslashes data start (pos + 1)) := by
    rw [backslashes_succ hle hbyte, Nat.even_add_one, not_not]
    exact heven
  refine ⟨hodd, ?_⟩
  intro hlt' hpunct'
  by_cases hnext : byteAt data (pos + 1) = 0x5c
  · rw [backslashes_succ (Nat.le_succ_of_le hle) hnext, Nat.even_add_one]
    exact hodd
  · rw [backslashes_other hnext]
    exact Even.zero

/-- The first tail brace from a position on. -/
def TailFrom (storage : Bool) (data : List UInt8) (start stop pos : ℕ) : Option ℕ → Prop
  | some found => IsLeast {q | pos ≤ q ∧ TailBrace storage data start stop q} found
  | none => ∀ q, pos ≤ q → ¬ TailBrace storage data start stop q

/-- Positions without a tail brace can be passed. -/
lemma TailFrom.pass {next : ℕ} {result : Option ℕ} (hle : pos ≤ next)
    (hnone : ∀ q, pos ≤ q → q < next → ¬ TailBrace storage data start stop q)
    (h : TailFrom storage data start stop next result) :
    TailFrom storage data start stop pos result := by
  have hbehind : ∀ q, pos ≤ q → TailBrace storage data start stop q → next ≤ q := by
    intro q hq htail
    by_contra hlt
    exact hnone q hq (Nat.not_le.mp hlt) htail
  cases result with
  | none => exact fun q hq htail => h q (hbehind q hq htail) htail
  | some found =>
    obtain ⟨⟨hfound, htail⟩, hleast⟩ := h
    refine ⟨⟨Nat.le_trans hle hfound, htail⟩, ?_⟩
    rintro q ⟨hq, hqtail⟩
    exact hleast ⟨hbehind q hq hqtail, hqtail⟩

/-- The loop finds the first tail brace from its position on. -/
lemma tailFrom_spec (hstop : stop ≤ data.length) : ∀ steps (p : Parser) pos,
    p.Kept storage data → start ≤ pos → stop ≤ pos + steps → Whole data start stop pos →
    TailFrom storage data start stop pos (tailFrom storage stop steps p pos).1 := by
  intro steps
  induction steps with
  | zero =>
    intro p pos _ _ hsteps _ q hq htail
    have := htail.lt
    omega
  | succ steps ih =>
    intro p pos hkept hle hsteps hwhole
    rw [tailFrom, hkept.text]
    split
    · intro q hq htail
      have := htail.lt
      omega
    rename_i hlt
    rw [not_le] at hlt
    split
    · rename_i hescape
      obtain ⟨hodd, hnext⟩ := hwhole.escape hle hstop hescape
      have hbyte : byteAt data pos = 0x5c := by
        have hbyte := (escaped_iff.mp hescape).1
        rwa [byteAt_take hlt] at hbyte
      apply TailFrom.pass (Nat.le_add_right pos 2)
      · intro q hq hlt' htail
        rcases Nat.eq_or_lt_of_le hq with rfl | hq
        · have hbrace := htail.brace
          rw [hbyte] at hbrace
          cases hbrace
        · obtain rfl : q = pos + 1 := by omega
          exact hodd htail.unescaped
      · exact ih p _ hkept (by omega) (by omega) hnext
    rename_i hescape
    rw [Bool.not_eq_true] at hescape
    have hnext : Whole data start stop (pos + 1) := Whole.next hstop hescape
    split
    · rename_i hbrace
      have hanswer := attributesEnd_fresh hkept pos
      have hkept' := (attributesEnd_spec hkept pos).2
      generalize attributesEnd storage p pos = result at hanswer hkept' ⊢
      obtain ⟨finish, p'⟩ := result
      dsimp only at hanswer hkept' ⊢
      split
      · rename_i hfinish
        have heven : Even (backslashes data start pos) := by
          apply hwhole hlt
          rw [hbrace]
          decide
        refine ⟨⟨le_rfl, hle, hlt, hbrace, heven, ?_⟩, ?_⟩
        · rw [← hanswer, hfinish]
        · exact fun q hq => hq.1
      · rename_i hfinish
        apply TailFrom.pass (Nat.le_succ pos)
        · intro q hq hlt' htail
          obtain rfl : q = pos := by omega
          rw [hanswer] at hfinish
          exact hfinish htail.ends
        · exact ih p' _ hkept' (by omega) (by omega) hnext
    · rename_i hbrace
      apply TailFrom.pass (Nat.le_succ pos)
      · intro q hq hlt' htail
        obtain rfl : q = pos := by omega
        exact hbrace htail.brace
      · exact ih p _ hkept (by omega) (by omega) hnext

lemma backslashes_start : backslashes data start start = 0 := by
  cases start with
  | zero => rfl
  | succ start => rw [backslashes, if_neg (fun hc => Nat.not_succ_le_self start hc.1)]

/-- A container ends behind its closing brace. -/
lemma Reads.closed {b finish : ℕ} {members : List Member}
    (h : Reads data b members (some finish)) : ∃ a, finish = a + 1 ∧ byteAt data a = 0x7d := by
  generalize hresult : some finish = result at h
  induction h with
  | @last b result h =>
    subst hresult
    obtain ⟨rfl, _, hbyte⟩ := outcome_last h
    exact ⟨b, rfl, hbyte⟩
  | gap _ _ ih => exact ih hresult
  | member _ _ ih => exact ih hresult

/-- A container that ends at `stop` has its closing brace before it. -/
lemma TailBrace.closes (h : TailBrace storage data start stop pos) :
    byteAt data (stop - 1) = 0x7d := by
  have hanswers := (attributesEnd_spec (Parser.Kept.fresh storage data) pos).1
  have hlt := h.lt
  rw [h.ends] at hanswers
  unfold Answers at hanswers
  split at hanswers
  · obtain ⟨finish, ⟨members, hreads⟩, hstop⟩ := hanswers
    cases finish with
    | none =>
      rw [Option.getD_none] at hstop
      omega
    | some finish =>
      obtain ⟨a, rfl, hbyte⟩ := hreads.closed
      rw [hstop]
      exact hbyte
  · omega

/-- The tail is the first tail brace. -/
lemma attributesTail_spec {p : Parser} (hkept : p.Kept storage data) (hstop : stop ≤ data.length) :
    IsTail storage data start stop (attributesTail storage p start stop).1 := by
  unfold attributesTail
  rw [hkept.text]
  split
  · rename_i hnone
    intro pos htail
    rcases hnone with hle | hne
    · have := htail.le
      have := htail.lt
      omega
    · exact hne htail.closes
  · have hwhole : Whole data start stop start := by
      intro _ _
      rw [backslashes_start]
      exact Even.zero
    have hfrom := tailFrom_spec hstop (stop - start) p start hkept le_rfl (by omega) hwhole
    cases hresult : (tailFrom storage stop (stop - start) p start).1 with
    | none =>
      rw [hresult] at hfrom
      exact fun q htail => hfrom q htail.le htail
    | some found =>
      rw [hresult] at hfrom
      obtain ⟨⟨_, htail⟩, hleast⟩ := hfrom
      exact ⟨htail, fun q hq => hleast ⟨hq.le, hq⟩⟩

end

/-- However many braces of a text a parser is asked about, in whatever order, each answer is the
one of a fresh parser; and the tail it then gives is the first unescaped brace whose container ends
where the text does. -/
theorem recognition_of_run (storage : Bool) (data : List UInt8) (starts : List ℕ) :
    (endsRun storage (.fresh data) starts).1 =
        starts.map (fun start => (attributesEnd storage (.fresh data) start).1) ∧
      ∀ start stop, stop ≤ data.length →
        IsTail storage data start stop
          (attributesTail storage (endsRun storage (.fresh data) starts).2 start stop).1 := by
  obtain ⟨hanswers, hkept⟩ := endsRun_spec starts _ (Parser.Kept.fresh storage data)
  exact ⟨hanswers, fun start stop hstop => attributesTail_spec hkept hstop⟩

/-- The text `\{{b}` after a query about its second brace. -/
theorem recognition_of_escaped :
    IsTail true [0x5c, 0x7b, 0x7b, 0x62, 0x7d] 0 5
      (attributesTail true (endsRun true (.fresh [0x5c, 0x7b, 0x7b, 0x62, 0x7d]) [1]).2 0 5).1 :=
  (recognition_of_run true [0x5c, 0x7b, 0x7b, 0x62, 0x7d] [1]).2 0 5 (by decide)

end MarkdownCore.Attributes
