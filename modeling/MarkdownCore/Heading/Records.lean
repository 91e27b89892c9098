import MarkdownCore.Heading.Pass

/-!
# The records a pass reads

A cursor reads the anchors' records of the log in order, up to a position; reading them reserves
their labels, those of the declarations that stand in a pass that starts empty, and those of all in
one that goes on, whose log no withdrawal has reached.
-/

namespace MarkdownCore

open Naming

/-- The anchors' records of the log from place `first` to place `last`. -/
def Roster.anchorsBetween (roster : Roster) (first last : ℕ) : List Record :=
  ((roster.records.take last).drop first).filter (·.kind = .anchor)

/-- How many anchors' records the log has from place `first` on. -/
def Roster.anchorsFrom (roster : Roster) (first : ℕ) : ℕ :=
  (roster.records.drop first).countP (·.kind = .anchor)

lemma Roster.mem_of_mem_anchorsBetween (roster : Roster) {first last : ℕ} {record : Record}
    (h : record ∈ roster.anchorsBetween first last) : record ∈ roster.records :=
  List.mem_of_mem_take (List.mem_of_mem_drop (List.mem_filter.mp h).1)

lemma Roster.anchorsBetween_append (roster : Roster) {first middle last : ℕ}
    (h : first ≤ middle) (h' : middle ≤ last) :
    roster.anchorsBetween first last =
      roster.anchorsBetween first middle ++ roster.anchorsBetween middle last := by
  unfold anchorsBetween
  rw [← List.filter_append]
  congr 1
  have hsplit : (roster.records.take last).drop middle =
      ((roster.records.take last).drop first).drop (middle - first) := by
    rw [List.drop_drop, Nat.add_sub_cancel' h]
  have htake : (roster.records.take middle).drop first =
      ((roster.records.take last).drop first).take (middle - first) := by
    rw [List.take_drop, Nat.add_sub_cancel' h, List.take_take, min_eq_left h']
  rw [hsplit, htake, List.take_append_drop]

lemma Roster.anchorsFrom_eq (roster : Roster) {first last : ℕ} (h : first ≤ last) :
    roster.anchorsFrom first =
      (roster.anchorsBetween first last).length + roster.anchorsFrom last := by
  unfold anchorsFrom anchorsBetween
  obtain ⟨n, rfl⟩ := Nat.exists_eq_add_of_le h
  rw [← List.countP_eq_length_filter, List.drop_take, Nat.add_sub_cancel_left,
    ← List.drop_drop, ← List.countP_append, List.take_append_drop]

/-- What the cursor finds before `last`: its first anchor's record there, or none. -/
lemma nextBefore_spec (last : ℕ) (records : List Record) (cursor : Cursor)
    (hleft : cursor.left = records.countP (·.kind = .anchor)) :
    ((records.take (last - cursor.position)).filter (·.kind = .anchor) = [] ∧
      nextBefore last records cursor =
        (none, { cursor with position := max cursor.position last })) ∨
    ∃ record rest skipped,
      (records.take (last - cursor.position)).filter (·.kind = .anchor) = record :: rest ∧
      nextBefore last records cursor =
        (some record,
          { position := cursor.position + skipped + 1, left := cursor.left - 1 }) ∧
      cursor.position + skipped < last ∧
      (records.drop (skipped + 1)).countP (·.kind = .anchor) = cursor.left - 1 ∧
      ((records.drop (skipped + 1)).take (last - (cursor.position + skipped + 1))).filter
        (·.kind = .anchor) = rest := by
  induction records generalizing cursor with
  | nil => exact Or.inl ⟨by simp, rfl⟩
  | cons record records ih =>
    rw [nextBefore]
    by_cases hgo : cursor.left ≠ 0 ∧ cursor.position < last
    · obtain ⟨hl, hp⟩ := hgo
      obtain ⟨n, hn⟩ : ∃ n, last - cursor.position = n + 1 := ⟨last - cursor.position - 1, by omega⟩
      have hn' : last - (cursor.position + 1) = n := by omega
      rw [if_pos ⟨hl, hp⟩, hn, List.take_succ_cons]
      by_cases hk : record.kind = .anchor
      · refine Or.inr ⟨record, (records.take n).filter (·.kind = .anchor), 0, ?_, ?_, by omega, ?_,
          ?_⟩
        · rw [List.filter_cons_of_pos (by simpa using hk)]
        · rw [if_pos hk]
        · rw [List.countP_cons_of_pos (by simpa using hk)] at hleft
          simp only [Nat.zero_add, List.drop_succ_cons, List.drop_zero]
          omega
        · simp only [Nat.zero_add, List.drop_succ_cons, List.drop_zero, Nat.add_zero, hn']
      · rw [List.countP_cons_of_neg (by simpa using hk)] at hleft
        rw [List.filter_cons_of_neg (by simpa using hk)]
        simp only [if_neg hk]
        have hih := ih { cursor with position := cursor.position + 1 } hleft
        simp only [hn'] at hih
        rcases hih with ⟨h1, h2⟩ | ⟨r, rest, skipped, h1, h2, h3, h4, h5⟩
        · refine Or.inl ⟨h1, h2.trans ?_⟩
          rw [max_eq_right (show cursor.position + 1 ≤ last from hp), max_eq_right hp.le]
        · refine Or.inr ⟨r, rest, skipped + 1, h1, h2.trans ?_, by omega, h4, ?_⟩
          · simp only [Nat.add_assoc, Nat.add_comm 1]
          · rw [← h5]
            simp only [List.drop_succ_cons]
            congr 3
            omega
    · rw [if_neg hgo]
      refine Or.inl ⟨?_, rfl⟩
      rw [List.filter_eq_nil_iff]
      intro r hr
      by_cases hp : cursor.position < last
      · have hzero : (record :: records).countP (·.kind = .anchor) = 0 := by
          rw [← hleft]
          by_contra hne
          exact hgo ⟨hne, hp⟩
        exact List.countP_eq_zero.mp hzero r (List.mem_of_mem_take hr)
      · rw [show last - cursor.position = 0 by omega] at hr
        simp at hr

namespace NamePass

/-- The cursor's records before `last` are read in log order, and the cursor stands at `last`. -/
lemma readRecords_eq (roster : Roster) {last fuel : ℕ} (pass : NamePass) (cursor : Cursor)
    (hleft : cursor.left = roster.anchorsFrom cursor.position) (hfuel : cursor.left < fuel) :
    pass.readRecords roster last fuel cursor =
      ((roster.anchorsBetween cursor.position last).foldl (readRecord roster) pass,
        { position := max cursor.position last,
          left := roster.anchorsFrom (max cursor.position last) }) := by
  induction fuel generalizing pass cursor with
  | zero => omega
  | succ fuel ih =>
    rw [readRecords]
    rcases nextBefore_spec last (roster.records.drop cursor.position) cursor hleft with
      ⟨hnil, hnext⟩ | ⟨record, rest, skipped, hcons, hnext, hlt, hcount, hrest⟩
    · rw [← List.drop_take] at hnil
      have hbetween : roster.anchorsBetween cursor.position last = [] := hnil
      simp only [hnext, hbetween, List.foldl_nil]
      rcases le_total cursor.position last with hle | hle
      · rw [max_eq_right hle, hleft, roster.anchorsFrom_eq hle, hbetween, List.length_nil,
          Nat.zero_add]
      · rw [max_eq_left hle, hleft]
    · rw [← List.drop_take] at hcons
      have hbetween : roster.anchorsBetween cursor.position last = record :: rest := hcons
      simp only [hnext, hbetween, List.foldl_cons]
      have hdrop : (roster.records.drop cursor.position).drop (skipped + 1) =
          roster.records.drop (cursor.position + skipped + 1) := by
        rw [List.drop_drop, Nat.add_assoc]
      rw [hdrop] at hcount hrest
      rw [← List.drop_take] at hrest
      have hpos : 0 < cursor.left := by
        rw [hleft, roster.anchorsFrom_eq (show cursor.position ≤ last by omega), hbetween]
        simp only [List.length_cons]
        omega
      have hih := ih (pass.readRecord roster record)
        { position := cursor.position + skipped + 1, left := cursor.left - 1 } hcount.symm
        (show cursor.left - 1 < fuel by omega)
      rw [hih, ← hrest, max_eq_right (show cursor.position + skipped + 1 ≤ last from hlt),
        max_eq_right (show cursor.position ≤ last by omega)]
      rfl

/-! ### What the records reserve -/

/-- The labels a pass reads between two places of the log. -/
def readBetween (roster : Roster) (fresh : Bool) (first last : ℕ) (n : Name) : Prop :=
  ∃ record ∈ roster.anchorsBetween first last,
    (fresh = true → roster.seen record = true) ∧ record.label = n

variable {R : Name → Prop} {last earlier : ℕ}

lemma readRecord_unseen (pass : NamePass) {roster : Roster} {record : Record}
    (hfresh : pass.fresh = true) (hseen : roster.seen record = false) :
    pass.readRecord roster record = pass := by
  simp [readRecord, hfresh, hseen]

/-- Reading records reserves their labels. -/
lemma NamedTo.foldl_readRecord (roster : Roster) (records : List Record) {pass : NamePass}
    (h : pass.NamedTo R last earlier)
    (hdeclares : ∀ record ∈ records, pass.fresh = false → record.withdraws = false) :
    (records.foldl (NamePass.readRecord roster) pass).NamedTo
      (fun n => R n ∨ ∃ record ∈ records,
        (pass.fresh = true → roster.seen record = true) ∧ record.label = n) last earlier ∧
      pass.Keeps (records.foldl (NamePass.readRecord roster) pass) last := by
  induction records generalizing pass R with
  | nil => exact ⟨h.congr fun n => by simp, Keeps.refl _ _⟩
  | cons record records ih =>
    rw [List.foldl_cons]
    by_cases hskip : pass.fresh = true ∧ roster.seen record = false
    · rw [readRecord_unseen pass hskip.1 hskip.2]
      obtain ⟨hn, hk⟩ := ih h fun r hr => hdeclares r (List.mem_cons_of_mem _ hr)
      refine ⟨hn.congr fun n => or_congr_right ?_, hk⟩
      simp [hskip.1, hskip.2]
    · have hseen : pass.fresh = true → roster.seen record = true := by
        intro hf
        by_contra hs
        exact hskip ⟨hf, by simpa using hs⟩
      have hwithdraws : record.withdraws = false := by
        rcases hf : pass.fresh with _ | _
        · exact hdeclares record (List.mem_cons_self ..) hf
        · have := hseen hf
          simp only [Roster.seen, Record.stands, Bool.and_eq_true, Bool.not_eq_true'] at this
          exact this.1.1.1
      obtain ⟨hn, hk⟩ := h.readRecord roster hseen hwithdraws
      obtain ⟨hn', hk'⟩ := ih hn fun r hr hf =>
        hdeclares r (List.mem_cons_of_mem _ hr) (hk.fresh ▸ hf)
      refine ⟨hn'.congr fun n => ?_, hk.trans hk'⟩
      simp only [hk.fresh, List.mem_cons, exists_eq_or_imp, or_assoc]
      refine or_congr_right (or_congr_left ?_)
      exact ⟨fun hl => ⟨hseen, hl.symm⟩, fun hl => hl.2.symm⟩

/-- A cursor's records before `until'` read: their labels are reserved. -/
theorem NamedTo.readRecords {roster : Roster} {pass : NamePass} {cursor : Cursor} (stop : ℕ)
    (h : pass.NamedTo R last earlier) (hleft : cursor.left = roster.anchorsFrom cursor.position)
    (hdeclares : ∀ record ∈ roster.anchorsBetween cursor.position stop,
      pass.fresh = false → record.withdraws = false) :
    (pass.readRecords roster stop (cursor.left + 1) cursor).1.NamedTo
      (fun n => R n ∨ readBetween roster pass.fresh cursor.position stop n) last earlier ∧
      pass.Keeps (pass.readRecords roster stop (cursor.left + 1) cursor).1 last ∧
      (pass.readRecords roster stop (cursor.left + 1) cursor).2 =
        { position := max cursor.position stop,
          left := roster.anchorsFrom (max cursor.position stop) } := by
  rw [readRecords_eq roster pass cursor hleft (Nat.lt_succ_self _)]
  obtain ⟨hn, hk⟩ := h.foldl_readRecord roster _ hdeclares
  exact ⟨hn, hk, rfl⟩

end NamePass

end MarkdownCore
