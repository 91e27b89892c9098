import MarkdownCore.Heading.Stream

/-!
# The names of a streaming parse

Until the finalize the roster's log only grows, and shrinks back to a mark. `Stream.Sound` is what
every step keeps; `Stream.history` is what the parse holds of its text, which goes step by step as
`History` does. A snapshot and the finalize then show the names of what the text holds.
-/

namespace MarkdownCore

open Naming NamePass

lemma take_append_drop_take {α : Type*} (entries : List α) {m n : ℕ} (h : m ≤ n) :
    entries.take m ++ (entries.take n).drop m = entries.take n := by
  conv_rhs => rw [← List.take_append_drop m (entries.take n), List.take_take, min_eq_left h]

/-! ### The roster before the finalize -/

namespace Roster

/-- Every record is a declaration that stands, as it was made. -/
def Plain (roster : Roster) : Prop :=
  ∀ record ∈ roster.records, record.before = none ∧ record.stands = true ∧ record.back = false

variable {roster : Roster}

lemma Plain.seen (h : roster.Plain) {record : Record} (hmem : record ∈ roster.records) :
    roster.seen record = true := by
  obtain ⟨-, hstands, hback⟩ := h record hmem
  simp [Roster.seen, hstands, hback]

lemma pop_eq_dropLast {records : List Record} (h : ∀ record ∈ records, record.before = none) :
    pop records = records.dropLast := by
  unfold pop
  split
  · next heq =>
    have := h _ (List.mem_of_getLast? heq)
    simp at this
  · rfl

lemma pop_iterate {records : List Record} (h : ∀ record ∈ records, record.before = none) (n : ℕ) :
    pop^[n] records = records.take (records.length - n) := by
  induction n generalizing records with
  | zero => simp
  | succ n ih =>
    rw [Function.iterate_succ_apply, pop_eq_dropLast h,
      ih fun record hmem => h record (List.mem_of_mem_dropLast hmem), List.length_dropLast,
      List.dropLast_eq_take, List.take_take]
    congr 1
    omega

/-- A log of declarations rolled back is cut. -/
lemma Plain.rollback (h : roster.Plain) (count : ℕ) :
    roster.rollback count = { roster with records := roster.records.take count } := by
  rw [Roster.rollback, pop_iterate fun record hmem => (h record hmem).1]
  congr 1
  rw [List.take_eq_take_iff]
  omega

lemma Plain.take (h : roster.Plain) (count : ℕ) :
    ({ roster with records := roster.records.take count } : Roster).Plain :=
  fun record hmem => h record (List.mem_of_mem_take hmem)

lemma declareAll_records (roster : Roster) (declared : List (RosterKind × Name × ℕ)) :
    Stream.declareAll roster declared =
      { roster with
        records := roster.records ++ (declared.filter fun (_, label, _) => label ≠ []).map
          fun (kind, label, start) => { kind, label, start } } := by
  induction declared generalizing roster with
  | nil => simp [Stream.declareAll]
  | cons entry declared ih =>
    obtain ⟨kind, label, start⟩ := entry
    have hstep : Stream.declareAll roster ((kind, label, start) :: declared) =
        Stream.declareAll (roster.declare kind label start) declared := rfl
    rw [hstep, ih, declare]
    split_ifs with hlabel
    · simp [hlabel]
    · simp [hlabel]

lemma Plain.declareAll (h : roster.Plain) (declared : List (RosterKind × Name × ℕ)) :
    (Stream.declareAll roster declared).Plain := by
  intro record hmem
  rw [declareAll_records, List.mem_append] at hmem
  rcases hmem with hmem | hmem
  · exact h record hmem
  · obtain ⟨entry, -, rfl⟩ := List.mem_map.mp hmem
    exact ⟨rfl, rfl, rfl⟩

lemma reserved_declareAll (roster : Roster) (reading : Reading) :
    (Stream.declareAll roster reading.declared).reserved = roster.reserved ++ reading.anchors := by
  rw [declareAll_records, reserved, reserved, List.filter_append, List.map_append]
  congr 1
  rw [List.filter_map, List.map_map, Reading.anchors, List.filter_filter]
  congr 1
  apply List.filter_congr
  rintro ⟨kind, label, start⟩ -
  simp [Roster.seen, Record.stands, Record.withdraws]

end Roster

/-! ### The headings a reading completes -/

lemma getElem?_eq_takeWhile {α : Type*} {q : α → Bool} {entries : List α}
    (h : entries.Pairwise fun a b => q b = true → q a = true) {i : ℕ} {a : α}
    (hi : entries[i]? = some a) : q a = true ↔ i < (entries.takeWhile q).length := by
  induction entries generalizing i with
  | nil => simp at hi
  | cons b entries ih =>
    obtain ⟨hb, hrest⟩ := List.pairwise_cons.mp h
    rcases hq : q b with _ | _
    · simp only [List.takeWhile_cons, hq, Bool.false_eq_true, if_false, List.length_nil,
        Nat.not_lt_zero, iff_false]
      cases i with
      | zero =>
        obtain rfl : b = a := by simpa using hi
        simp [hq]
      | succ i => exact fun ha => by simpa [hq] using hb a (List.mem_of_getElem? hi) ha
    · simp only [List.takeWhile_cons, hq, if_true, List.length_cons]
      cases i with
      | zero =>
        obtain rfl : b = a := by simpa using hi
        simp [hq]
      | succ i => rw [ih hrest hi, Nat.succ_lt_succ_iff]

namespace HeadingState

/-- The headings of the reading are those there are, the first `parsed` of them parsed, each after
the one before it. -/
structure InOrder (state : HeadingState) : Prop where
  length : state.headings.length = state.count
  parsed_le : state.parsed ≤ state.count
  parsed : ∀ (i : ℕ) (heading : Heading), state.headings[i]? = some heading →
    (heading.parsed = true ↔ i < state.parsed)
  sorted : state.headings.Pairwise fun a b => a.start < b.start

lemma InOrder.sync {state : HeadingState} (h : state.InOrder) : state.sync = state := by
  simp [HeadingState.sync, List.take_of_length_le h.length.le]

/-- Headings that start past those there are come after them. -/
lemma mergeSort_append_closed {entries : List Heading} {closed : List ℕ}
    (hsorted : entries.Pairwise fun a b => a.start < b.start)
    (hpast : ∀ heading ∈ entries, ∀ start ∈ closed, heading.start < start) :
    (entries ++ closed.map closedEntry).mergeSort (fun a b => a.start ≤ b.start) =
      entries ++ (sourceOrder closed).map closedEntry := by
  have hmem : ∀ a ∈ entries ++ closed.map closedEntry, ∀ b ∈ entries ++ closed.map closedEntry,
      a.start = b.start → a = b := by
    intro a ha b hb hstart
    simp only [List.mem_append, List.mem_map] at ha hb
    rcases ha with ha | ⟨s, hs, rfl⟩ <;> rcases hb with hb | ⟨t, ht, rfl⟩
    · have hnodup : (entries.map (·.start)).Nodup :=
        List.pairwise_map.mpr (hsorted.imp fun hlt => Nat.ne_of_lt hlt)
      exact List.inj_on_of_nodup_map hnodup ha hb hstart
    · exact absurd hstart (Nat.ne_of_lt (hpast a ha t ht))
    · exact absurd hstart.symm (Nat.ne_of_lt (hpast b hb s hs))
    · rw [show s = t from hstart]
  have hperm := List.mergeSort_perm (entries ++ closed.map closedEntry)
    fun a b => decide (a.start ≤ b.start)
  have hperm' : (entries ++ closed.map closedEntry).Perm
      (entries ++ (sourceOrder closed).map closedEntry) :=
    (List.Perm.map _ (List.mergeSort_perm closed _).symm).append_left entries
  refine @List.Perm.eq_of_pairwise _ (fun a b => a.start ≤ b.start) _ _
    (fun a b ha hb hab hba => hmem a (hperm.mem_iff.mp ha) b (hperm'.mem_iff.mpr hb)
      (Nat.le_antisymm hab hba)) ?_ ?_ (hperm.trans hperm')
  · refine (List.pairwise_mergeSort ?_ ?_ _).imp fun hle => by simpa using hle
    · exact fun a b c hab hbc => by simp only [decide_eq_true_eq] at hab hbc ⊢; omega
    · exact fun a b => by simp only [Bool.or_eq_true, decide_eq_true_eq]; omega
  · refine List.pairwise_append.mpr ⟨hsorted.imp fun hlt => Nat.le_of_lt hlt, ?_, ?_⟩
    · refine List.pairwise_map.mpr ((List.pairwise_mergeSort ?_ ?_ _).imp fun hle => ?_)
      · exact fun a b c hab hbc => by simp only [decide_eq_true_eq] at hab hbc ⊢; omega
      · exact fun a b => by simp only [Bool.or_eq_true, decide_eq_true_eq]; omega
      · exact of_decide_eq_true hle
    · intro a ha b hb
      obtain ⟨s, hs, rfl⟩ := List.mem_map.mp hb
      exact Nat.le_of_lt (hpast a ha s (List.mem_mergeSort.mp hs))

/-- An entry once the reading completed. -/
def completedEntry (reading : Reading) (heading : Heading) : Heading :=
  if heading.parsed || !reading.settled heading.start then heading
  else parsedEntry reading.project heading.start

@[simp] lemma completedEntry_start (reading : Reading) (heading : Heading) :
    (completedEntry reading heading).start = heading.start := by
  unfold completedEntry
  split_ifs <;> rfl

lemma completedEntry_parsed (reading : Reading) {heading : Heading}
    (hparsed : heading.parsed = false) :
    (completedEntry reading heading).parsed = reading.settled heading.start := by
  rcases hs : reading.settled heading.start <;> simp [completedEntry, hparsed, hs, parsedEntry]

/-- A reading's state of the headings, from what its entries are before. -/
def readState (state : HeadingState) (reading : Reading) : HeadingState :=
  (reading.closed.foldl closeHeading state).headingsPrepare reading.settled reading.project

/-- The entries after those parsed, once the reading completed. -/
def readEntries (state : HeadingState) (reading : Reading) : List Heading :=
  (state.headings.drop state.parsed ++ (sourceOrder reading.closed).map closedEntry).map
    (completedEntry reading)

variable {state : HeadingState} {reading : Reading}

lemma InOrder.readState_eq (h : state.InOrder)
    (hpast : ∀ heading ∈ state.headings, ∀ start ∈ reading.closed, heading.start < start) :
    state.readState reading =
      { state with
        count := state.count + reading.closed.length
        headings := state.headings.take state.parsed ++ state.readEntries reading
        parsed := state.parsed + ((state.readEntries reading).takeWhile (·.parsed)).length } := by
  have hparsed : state.parsed ≤ state.headings.length := h.length ▸ h.parsed_le
  have hclosed : ({ state with
      headings := state.headings ++ reading.closed.map closedEntry
      count := state.count + reading.closed.length } : HeadingState).sync =
      { state with
        headings := state.headings ++ reading.closed.map closedEntry
        count := state.count + reading.closed.length } := by
    simp [HeadingState.sync, h.length]
  have hsort := @mergeSort_append_closed _ reading.closed
    (h.sorted.sublist (List.drop_sublist state.parsed _))
    fun heading hmem => hpast heading (List.mem_of_mem_drop hmem)
  rw [readState, foldl_closeHeading _ _ h.length, headingsPrepare, hclosed]
  simp only [List.drop_append_of_le_length hparsed, List.take_append_of_le_length hparsed, hsort]
  rfl

/-- The entries after those parsed are not parsed, and start past them. -/
lemma InOrder.mem_drop (h : state.InOrder) {heading : Heading}
    (hmem : heading ∈ state.headings.drop state.parsed) : heading.parsed = false := by
  obtain ⟨i, hi⟩ := List.mem_iff_getElem?.mp hmem
  rw [List.getElem?_drop] at hi
  by_contra hparsed
  have := (h.parsed _ heading hi).mp (by simpa using hparsed)
  omega

lemma readEntries_sorted (h : state.InOrder) (hnodup : reading.closed.Nodup)
    (hpast : ∀ heading ∈ state.headings, ∀ start ∈ reading.closed, heading.start < start) :
    (state.readEntries reading).Pairwise fun a b => a.start < b.start := by
  refine List.pairwise_map.mpr ?_
  simp only [completedEntry_start]
  refine List.pairwise_append.mpr
    ⟨h.sorted.sublist (List.drop_sublist _ _), List.pairwise_map.mpr ?_, ?_⟩
  · have hle := (@List.pairwise_mergeSort _ (fun a b : ℕ => decide (a ≤ b))
      (fun a b c hab hbc => by simp only [decide_eq_true_eq] at hab hbc ⊢; omega)
      (fun a b => by simp only [Bool.or_eq_true, decide_eq_true_eq]; omega) reading.closed)
    have hnodup' : (sourceOrder reading.closed).Nodup :=
      (List.mergeSort_perm reading.closed _).nodup_iff.mpr hnodup
    exact (hle.and hnodup').imp fun ⟨hab, hne⟩ => Nat.lt_of_le_of_ne (of_decide_eq_true hab) hne
  · intro a ha b hb
    obtain ⟨s, hs, rfl⟩ := List.mem_map.mp hb
    exact hpast a (List.mem_of_mem_drop ha) s (List.mem_mergeSort.mp hs)

/-- The reading goes on from the headings there are (`Outline.Follows`). -/
structure FollowedBy (state : HeadingState) (reading : Reading) : Prop where
  nodup : reading.closed.Nodup
  past : ∀ heading ∈ state.headings, ∀ start ∈ reading.closed, heading.start < start
  pending : ∀ pending, reading.pending = some pending →
    (∀ heading ∈ state.headings, heading.start ≤ pending) ∧
      ∀ start ∈ reading.closed, start ≤ pending

lemma mem_readEntries (h : state.InOrder) {heading : Heading}
    (hmem : heading ∈ state.readEntries reading) :
    ∃ entry : Heading, entry.parsed = false ∧ heading = completedEntry reading entry ∧
      (entry ∈ state.headings ∨ ∃ start ∈ reading.closed, entry = closedEntry start) := by
  obtain ⟨entry, hentry, rfl⟩ := List.mem_map.mp hmem
  refine ⟨entry, ?_, rfl, ?_⟩ <;> rcases List.mem_append.mp hentry with hentry | hentry
  · exact h.mem_drop hentry
  · obtain ⟨s, -, rfl⟩ := List.mem_map.mp hentry
    rfl
  · exact Or.inl (List.mem_of_mem_drop hentry)
  · obtain ⟨s, hs, rfl⟩ := List.mem_map.mp hentry
    exact Or.inr ⟨s, List.mem_mergeSort.mp hs, rfl⟩

/-- Only the last of the entries read can be one not parsed. -/
lemma readEntries_parsed (h : state.InOrder) (hfollow : state.FollowedBy reading) :
    (state.readEntries reading).Pairwise fun a b => b.parsed = true → a.parsed = true := by
  refine List.Pairwise.imp_of_mem ?_ (readEntries_sorted h hfollow.nodup hfollow.past)
  intro a b ha hb hlt _
  obtain ⟨a', ha', rfl, -⟩ := mem_readEntries h ha
  obtain ⟨b', -, rfl, hb''⟩ := mem_readEntries h hb
  rw [completedEntry_parsed _ ha', Reading.settled, decide_eq_true_eq]
  intro hpending
  obtain ⟨hheld, hnew⟩ := hfollow.pending _ hpending
  simp only [completedEntry_start] at hlt
  rcases hb'' with hb'' | ⟨s, hs, rfl⟩
  · have := hheld b' hb''
    omega
  · have := hnew s hs
    simp only [closedEntry] at hlt
    omega

/-- Every heading is as the reading leaves it. -/
theorem InOrder.read (h : state.InOrder) (hfollow : state.FollowedBy reading) :
    (state.readState reading).InOrder := by
  have hparsed : state.parsed ≤ state.headings.length := h.length ▸ h.parsed_le
  have hlen : (state.readEntries reading).length =
      state.count - state.parsed + reading.closed.length := by
    simp [readEntries, sourceOrder, h.length]
  have hwhile := (List.takeWhile_prefix (l := state.readEntries reading) (·.parsed)).length_le
  have hparsed' := h.parsed_le
  rw [h.readState_eq hfollow.past]
  refine ⟨?_, ?_, fun i heading hi => ?_, ?_⟩
  · simp only [List.length_append, List.length_take, hlen, h.length]
    omega
  · simp only
    omega
  · simp only at hi ⊢
    rcases lt_or_ge i state.parsed with hlt | hge
    · rw [List.getElem?_append_left (by simpa using ⟨hlt, by omega⟩), List.getElem?_take,
        if_pos hlt] at hi
      exact iff_of_true ((h.parsed i heading hi).mpr hlt) (by omega)
    · rw [List.getElem?_append_right (by simpa using Or.inl hge), List.length_take,
        min_eq_left hparsed] at hi
      rw [getElem?_eq_takeWhile (q := (·.parsed)) (readEntries_parsed h hfollow) hi]
      omega
  · refine List.pairwise_append.mpr ⟨h.sorted.sublist (List.take_sublist _ _),
      readEntries_sorted h hfollow.nodup hfollow.past, fun a ha b hb => ?_⟩
    obtain ⟨entry, hentry, rfl⟩ := List.mem_map.mp hb
    rw [completedEntry_start]
    rcases List.mem_append.mp hentry with hentry | hentry
    · have hall := h.sorted
      rw [← List.take_append_drop state.parsed state.headings] at hall
      exact (List.pairwise_append.mp hall).2.2 a ha entry hentry
    · obtain ⟨s, hs, rfl⟩ := List.mem_map.mp hentry
      exact hfollow.past a (List.mem_of_mem_take ha) s (List.mem_mergeSort.mp hs)

/-- What the text holds of a heading. -/
def outlined (heading : Heading) : ℕ × Option Projection :=
  (heading.start, if heading.parsed then some heading.toProjection else none)

lemma outlined_completedEntry (reading : Reading) {heading : Heading}
    (hparsed : heading.parsed = false) :
    outlined (completedEntry reading heading) =
      Outline.parseHeading reading (outlined heading) := by
  rcases hs : reading.settled heading.start <;>
    simp [outlined, completedEntry, hparsed, hs, parsedEntry, Outline.parseHeading]

lemma parseHeading_outlined (reading : Reading) {heading : Heading}
    (hparsed : heading.parsed = true) :
    Outline.parseHeading reading (outlined heading) = outlined heading := by
  simp [outlined, hparsed, Outline.parseHeading]

/-- A reading adds to the headings what the text it read holds. -/
lemma InOrder.outlined_read (h : state.InOrder) (hfollow : state.FollowedBy reading) :
    (state.readState reading).headings.map outlined =
      (state.headings.map outlined ++ (sourceOrder reading.closed).map (·, none)).map
        (Outline.parseHeading reading) := by
  rw [h.readState_eq hfollow.past]
  simp only [List.map_append]
  nth_rewrite 2 [← List.take_append_drop state.parsed state.headings]
  rw [List.map_append, List.map_append, List.append_assoc]
  congr 1
  · rw [List.map_map]
    refine List.map_congr_left fun heading hmem => (parseHeading_outlined reading ?_).symm
    obtain ⟨i, hi⟩ := List.mem_iff_getElem?.mp hmem
    rw [List.getElem?_take] at hi
    split_ifs at hi with hlt
    exact (h.parsed i heading hi).mpr hlt
  · rw [readEntries, List.map_append, List.map_append]
    congr 1
    · rw [List.map_map, List.map_map]
      exact List.map_congr_left fun heading hmem =>
        outlined_completedEntry reading (h.mem_drop hmem)
    · rw [List.map_map, List.map_map, List.map_map]
      exact List.map_congr_left fun start _ => outlined_completedEntry reading rfl

lemma InOrder.start_read (h : state.InOrder)
    (hpast : ∀ heading ∈ state.headings, ∀ start ∈ reading.closed, heading.start < start) :
    (state.readState reading).headings.map (·.start) =
      state.headings.map (·.start) ++ sourceOrder reading.closed := by
  rw [h.readState_eq hpast]
  simp only [List.map_append, readEntries, List.map_map, Function.comp_def, completedEntry_start]
  rw [← List.append_assoc, ← List.map_append, List.take_append_drop]
  simp [closedEntry]

/-- With nothing pending, every heading is parsed. -/
lemma InOrder.parsed_read_ended (h : state.InOrder) (hfollow : state.FollowedBy reading)
    (hended : reading.pending = none) :
    (state.readState reading).parsed = (state.readState reading).count := by
  have horder := h.read hfollow
  rcases horder.parsed_le.lt_or_eq with hlt | heq
  · exfalso
    rw [← horder.length] at hlt
    have hi := List.getElem?_eq_getElem hlt
    have hnot := (horder.parsed _ _ hi).not.mpr (Nat.lt_irrefl _)
    have hge : state.parsed ≤ (state.readState reading).parsed := by
      rw [h.readState_eq hfollow.past]
      exact Nat.le_add_right _ _
    have hmem : (state.readState reading).headings[(state.readState reading).parsed] ∈
        state.readEntries reading := by
      have hparsed : state.parsed ≤ state.headings.length := h.length ▸ h.parsed_le
      simp only [h.readState_eq hfollow.past] at hi hge ⊢
      rw [List.getElem?_append_right (by simp [hge])] at hi
      exact List.mem_of_getElem? hi
    obtain ⟨entry, hentry, heq, -⟩ := mem_readEntries h hmem
    rw [heq, completedEntry_parsed _ hentry] at hnot
    simp [Reading.settled, hended] at hnot
  · exact heq

/-- The entries are the committed names' still when they agree on the headings named. -/
lemma Ok.of_agree {state' : HeadingState} {roster roster' : Roster} (h : state.Ok roster false)
    (htaken : state'.taken = state.taken) (hat : state'.recordsAt = state.recordsAt)
    (hread : state'.recordsRead = state.recordsRead) (hnamed : state'.named = state.named)
    (hlog : roster'.records.take state.recordsAt = roster.records.take state.recordsAt)
    (hat' : state.recordsAt ≤ roster'.records.length)
    (hlen : state.named ≤ state'.headings.length)
    (hagree : ∀ i < state.named, state'.headings[i]? = state.headings[i]?)
    (hsteady : ∀ (i : ℕ) (heading : Heading), state'.headings[i]? = some heading →
      state'.Steady i heading) : state'.Ok roster' false := by
  have hbetween : roster'.anchorsBetween 0 state.recordsAt =
      roster.anchorsBetween 0 state.recordsAt := by
    rw [Roster.anchorsBetween, Roster.anchorsBetween, hlog]
  have hR : readBetween roster' false 0 state'.recordsAt =
      readBetween roster false 0 state.recordsAt := by
    funext n
    simp [readBetween, hat, hbetween]
  refine ⟨hat ▸ hat', by rw [hread, hat, hbetween]; exact h.recordsRead, ?_⟩
  rw [hR, hnamed]
  refine h.named.of_agree hlen (entries_of_steady _ hsteady rfl le_rfl) ?_ (fun i hi => ?_)
    fun i hi => ?_
  · simp only [committedPass, htaken]
    rfl
  · simp [nameOf, committedPass, hagree i hi, committed]
  · simp [baseOf, committedPass, hagree i hi]

end HeadingState

/-! ### What the parse holds -/

/-- A mark made before another. -/
def Kept.Le (a b : Kept) : Prop := a.records ≤ b.records ∧ a.count ≤ b.count ∧ a.parsed ≤ b.parsed

lemma Kept.Le.refl (a : Kept) : a.Le a := ⟨le_rfl, le_rfl, le_rfl⟩

namespace Stream

open HeadingState

/-- What the text held at a mark. -/
def outlineAt (stream : Stream) (kept : Kept) : Outline where
  reserved :=
    ({ stream.roster with records := stream.roster.records.take kept.records } : Roster).reserved
  headings := (stream.headings.headings.take kept.parsed).map outlined ++
    (((stream.headings.headings.map (·.start)).take kept.count).drop kept.parsed).map (·, none)

/-- What the parse holds of its text. -/
def history (stream : Stream) : History where
  outline := stream.outlineAt stream.kept
  marks := stream.marks.map stream.outlineAt

/-- What every step keeps: a log of declarations; headings in order; committed names that are those
of a greedy pass; and marks that reach no committed name and no committed record. -/
structure Sound (stream : Stream) : Prop where
  plain : stream.roster.Plain
  inOrder : stream.headings.InOrder
  ok : ({ stream.headings with
    headings := stream.headings.headings.take stream.headings.parsed } : HeadingState).Ok
      stream.roster false
  marks : (stream.marks ++ [stream.kept]).Pairwise Kept.Le
  bounds : ∀ kept ∈ stream.marks ++ [stream.kept],
    stream.headings.named ≤ kept.parsed ∧ stream.headings.recordsAt ≤ kept.records ∧
      kept.parsed ≤ kept.count

variable {stream stream' : Stream} {reading : Reading} {kept : Kept}

lemma outlineAt_congr
    (hlog : stream'.roster.records.take kept.records = stream.roster.records.take kept.records)
    (hhidden : stream'.roster.hidden = stream.roster.hidden)
    (hparsed : (stream'.headings.headings.take kept.parsed).map outlined =
      (stream.headings.headings.take kept.parsed).map outlined)
    (hstart : (stream'.headings.headings.map (·.start)).take kept.count =
      (stream.headings.headings.map (·.start)).take kept.count) :
    stream'.outlineAt kept = stream.outlineAt kept := by
  rw [outlineAt, outlineAt, hlog, hparsed, hstart]
  simp [Roster.reserved, Roster.seen, hhidden]

namespace Sound

lemma le_kept (h : stream.Sound) (hmem : kept ∈ stream.marks ++ [stream.kept]) :
    kept.Le stream.kept := by
  rcases List.mem_append.mp hmem with hmem | hmem
  · exact (List.pairwise_append.mp h.marks).2.2 kept hmem _ (List.mem_singleton.mpr rfl)
  · obtain rfl := List.mem_singleton.mp hmem
    exact .refl _

lemma named_le (h : stream.Sound) : stream.headings.named ≤ stream.headings.parsed :=
  (h.bounds stream.kept (by simp)).1

lemma recordsAt_le (h : stream.Sound) : stream.headings.recordsAt ≤ stream.roster.records.length :=
  (h.bounds stream.kept (by simp)).2.1

/-- The parse as it is holds every heading, and what the parsed ones project to. -/
lemma outlineAt_kept (h : stream.Sound) :
    stream.outlineAt stream.kept =
      { reserved := stream.roster.reserved
        headings := stream.headings.headings.map outlined } := by
  have hdrop : ((stream.headings.headings.map (·.start)).drop stream.headings.parsed).map
      (fun start => ((start, none) : ℕ × Option Projection)) =
      (stream.headings.headings.drop stream.headings.parsed).map outlined := by
    rw [← List.map_drop, List.map_map]
    refine List.map_congr_left fun heading hmem => ?_
    simp [outlined, h.inOrder.mem_drop hmem]
  have hlen : stream.headings.count = (stream.headings.headings.map (·.start)).length := by
    simp [h.inOrder.length]
  rw [outlineAt, kept, List.take_length]
  simp only [hlen, List.take_length]
  rw [hdrop, ← List.map_append, List.take_append_drop]

lemma followedBy (h : stream.Sound) (hfollow : stream.history.outline.Follows reading) :
    stream.headings.FollowedBy reading := by
  obtain ⟨hnodup, hpast, hpending⟩ := hfollow
  simp only [history, h.outlineAt_kept, List.forall_mem_map] at hpast hpending
  exact ⟨hnodup, hpast, hpending⟩

/-- The entries the committed names are of. -/
lemma steady (h : stream.Sound) {i : ℕ} {heading : Heading} (hi : stream.headings.headings[i]? = some heading)
    (hlt : i < stream.headings.parsed) : stream.headings.Steady i heading := by
  have hsteady := @Ok.steady _ _ _ h.ok i heading
    (by rw [List.getElem?_take, if_pos hlt]; exact hi)
  exact ⟨hsteady.coherent, hsteady.holds, hsteady.renamed⟩

end Sound

/-! ### The steps -/

lemma read_headings (stream : Stream) (reading : Reading) :
    (stream.read reading).headings = stream.headings.readState reading := rfl

/-- A reading leaves what the text held at a mark. -/
lemma Sound.outlineAt_read (h : stream.Sound) (hfollow : stream.headings.FollowedBy reading)
    (hmem : kept ∈ stream.marks ++ [stream.kept]) :
    (stream.read reading).outlineAt kept = stream.outlineAt kept := by
  obtain ⟨hrecords, hcount, hparsed⟩ := h.le_kept hmem
  simp only [Stream.kept] at hrecords hcount hparsed
  have hlen := h.inOrder.length
  have hle := h.inOrder.parsed_le
  refine outlineAt_congr ?_ ?_ ?_ ?_
  · rw [read, Roster.declareAll_records]
    exact List.take_append_of_le_length hrecords
  · rw [read, Roster.declareAll_records]
  · rw [read_headings, h.inOrder.readState_eq hfollow.past]
    rw [List.take_append_of_le_length (by simp only [List.length_take]; omega), List.take_take,
      min_eq_left hparsed]
  · rw [read_headings, h.inOrder.start_read hfollow.past]
    exact List.take_append_of_le_length (by simp only [List.length_map]; omega)

theorem Sound.read (h : stream.Sound) (hfollow : stream.headings.FollowedBy reading) :
    (stream.read reading).Sound := by
  have horder := h.inOrder.read hfollow
  have hroster : (stream.read reading).roster = declareAll stream.roster reading.declared := rfl
  have hkept : stream.kept.Le (stream.read reading).kept := by
    refine ⟨?_, ?_, ?_⟩
    · simp [Stream.kept, hroster, Roster.declareAll_records]
    · simp [Stream.kept, read_headings, h.inOrder.readState_eq hfollow.past]
    · simp [Stream.kept, read_headings, h.inOrder.readState_eq hfollow.past]
  have hfields : (stream.read reading).headings.taken = stream.headings.taken ∧
      (stream.read reading).headings.recordsAt = stream.headings.recordsAt ∧
      (stream.read reading).headings.recordsRead = stream.headings.recordsRead ∧
      (stream.read reading).headings.named = stream.headings.named ∧
      (stream.read reading).headings.renamed = stream.headings.renamed := by
    rw [read_headings, h.inOrder.readState_eq hfollow.past]
    exact ⟨rfl, rfl, rfl, rfl, rfl⟩
  obtain ⟨htaken, hat, hread, hnamed, hrenamed⟩ := hfields
  have hnamed_le := h.named_le
  have hparsed_le := h.inOrder.parsed_le
  have hlen := h.inOrder.length
  have hbefore : ∀ i < stream.headings.parsed,
      (stream.read reading).headings.headings[i]? = stream.headings.headings[i]? := by
    intro i hi
    rw [read_headings, h.inOrder.readState_eq hfollow.past]
    simp only
    rw [List.getElem?_append_left (by simp only [List.length_take]; omega), List.getElem?_take,
      if_pos hi]
  refine ⟨h.plain.declareAll _, horder, ?_, ?_, ?_⟩
  · refine h.ok.of_agree htaken hat hread hnamed ?_ ?_ ?_ (fun i hi => ?_) fun i heading hi => ?_
    · rw [hroster, Roster.declareAll_records]
      exact List.take_append_of_le_length h.recordsAt_le
    · exact h.recordsAt_le.trans hkept.1
    · have := hkept.2.2
      have := horder.parsed_le
      have := horder.length
      simp only [Stream.kept, List.length_take, read_headings] at *
      omega
    · simp only at hi
      have := hkept.2.2
      simp only [Stream.kept] at this
      simp only [List.getElem?_take]
      rw [if_pos (by omega), if_pos (by omega), hbefore i (by omega)]
    · simp only [List.getElem?_take] at hi
      split_ifs at hi with hlt
      rcases lt_or_ge i stream.headings.parsed with hold | hnew
      · rw [hbefore i hold] at hi
        obtain ⟨hcoherent, hholds, hflag⟩ := h.steady hi hold
        exact ⟨hcoherent, fun hh => by simpa [hnamed, hrenamed] using hholds hh, hflag⟩
      · have hparsed := (horder.parsed i heading hi).mpr hlt
        rw [read_headings, h.inOrder.readState_eq hfollow.past] at hi
        simp only at hi
        rw [List.getElem?_append_right (by simp [hnew])] at hi
        obtain ⟨entry, hentry, rfl, -⟩ := mem_readEntries h.inOrder (List.mem_of_getElem? hi)
        rw [completedEntry_parsed _ hentry] at hparsed
        have heq : completedEntry reading entry = parsedEntry reading.project entry.start := by
          simp [completedEntry, hentry, hparsed]
        rw [heq]
        exact ⟨.of_unnamed rfl rfl rfl, fun hh => by simp [parsedEntry] at hh, rfl⟩
  · refine List.pairwise_append.mpr ⟨(List.pairwise_append.mp h.marks).1,
      List.pairwise_singleton _ _, fun k hk k' hk' => ?_⟩
    obtain rfl := List.mem_singleton.mp hk'
    obtain ⟨h1, h2, h3⟩ := h.le_kept (List.mem_append_left _ hk)
    exact ⟨h1.trans hkept.1, h2.trans hkept.2.1, h3.trans hkept.2.2⟩
  · intro k hk
    rw [hnamed, hat]
    rcases List.mem_append.mp hk with hk | hk
    · exact h.bounds k (List.mem_append_left _ hk)
    · obtain rfl := List.mem_singleton.mp hk
      exact ⟨h.named_le.trans hkept.2.2, h.recordsAt_le.trans hkept.1, horder.parsed_le⟩

/-- A reading adds what the text it read holds. -/
theorem Sound.history_read (h : stream.Sound) (hfollow : stream.headings.FollowedBy reading) :
    (stream.read reading).history =
      { stream.history with outline := stream.history.outline.read reading } := by
  have hmarks : (stream.read reading).marks.map (stream.read reading).outlineAt =
      stream.marks.map stream.outlineAt :=
    List.map_congr_left fun k hk => h.outlineAt_read hfollow (List.mem_append_left _ hk)
  rw [history, hmarks, history, (h.read hfollow).outlineAt_kept, h.outlineAt_kept, Outline.read]
  have hroster : (stream.read reading).roster = declareAll stream.roster reading.declared := rfl
  simp only [read_headings, h.inOrder.outlined_read hfollow, hroster, Roster.reserved_declareAll]

theorem Sound.mark (h : stream.Sound) : (stream.step .mark).Sound := by
  have hkept : (stream.step .mark).kept = stream.kept := rfl
  refine ⟨h.plain, h.inOrder, h.ok, ?_, fun k hk => ?_⟩
  · rw [hkept]
    exact List.pairwise_append.mpr ⟨h.marks, List.pairwise_singleton _ _, fun k hk k' hk' =>
      List.mem_singleton.mp hk' ▸ h.le_kept hk⟩
  · rw [hkept] at hk
    rcases List.mem_append.mp hk with hk | hk
    · exact h.bounds k hk
    · exact h.bounds k (List.mem_append_right _ hk)

lemma history_mark (stream : Stream) : (stream.step .mark).history = stream.history.step .mark := by
  have houtline : ∀ k, (stream.step .mark).outlineAt k = stream.outlineAt k := fun _ => rfl
  simp only [history, History.step, funext houtline]
  simp only [step, List.map_append, List.map_cons, List.map_nil]
  rfl

/-- A parse put back to a mark finds what the text held there and at every mark before. -/
lemma Sound.outlineAt_putBackTo (h : stream.Sound) (hmem : kept ∈ stream.marks ++ [stream.kept])
    {before : Kept} (hle : before.Le kept) (marks : List Kept) :
    ({ stream.putBackTo kept with marks } : Stream).outlineAt before =
      stream.outlineAt before := by
  obtain ⟨hrecords, hcount, hparsed⟩ := hle
  obtain ⟨-, hcount', -⟩ := h.le_kept hmem
  have hbound := (h.bounds kept hmem).2.2
  have hlen := h.inOrder.length
  simp only [Stream.kept] at hcount'
  refine outlineAt_congr ?_ ?_ ?_ ?_
  · simp only [putBackTo, h.plain.rollback, List.take_take, min_eq_left hrecords]
  · simp only [putBackTo, h.plain.rollback]
  · simp only [putBackTo, HeadingState.putBack]
    rw [List.take_append_of_le_length (by simp only [List.length_take]; omega), List.take_take,
      min_eq_left hparsed]
  · have hstarts : (stream.headings.putBack kept).headings.map (·.start) =
        (stream.headings.headings.map (·.start)).take kept.count := by
      simp only [HeadingState.putBack, List.map_append, List.map_map, Function.comp_def]
      rw [← List.map_append, take_append_drop_take _ hbound, List.map_take]
    simp only [putBackTo, hstarts, List.take_take, min_eq_left hcount]

lemma Sound.kept_putBackTo (h : stream.Sound) (hmem : kept ∈ stream.marks ++ [stream.kept])
    (marks : List Kept) : ({ stream.putBackTo kept with marks } : Stream).kept = kept := by
  obtain ⟨hrecords, -, -⟩ := h.le_kept hmem
  simp only [Stream.kept] at hrecords
  simp [Stream.kept, putBackTo, HeadingState.putBack, h.plain.rollback, hrecords]

theorem Sound.putBackTo (h : stream.Sound) (hmem : kept ∈ stream.marks ++ [stream.kept])
    {marks : List Kept} (hmarks : (marks ++ [kept]).Pairwise Kept.Le)
    (hsub : ∀ k ∈ marks, k ∈ stream.marks) :
    ({ stream.putBackTo kept with marks } : Stream).Sound := by
  obtain ⟨hrecords, hcount, hparsed⟩ := h.le_kept hmem
  obtain ⟨hnamed, hat, hbound⟩ := h.bounds kept hmem
  have hlen := h.inOrder.length
  have hroster : (stream.putBackTo kept).roster =
      { stream.roster with records := stream.roster.records.take kept.records } :=
    h.plain.rollback _
  simp only [Stream.kept] at hrecords hcount hparsed
  have hbefore : ∀ i < kept.parsed,
      (stream.headings.putBack kept).headings[i]? = stream.headings.headings[i]? := by
    intro i hi
    simp only [HeadingState.putBack]
    rw [List.getElem?_append_left (by simp only [List.length_take]; omega), List.getElem?_take,
      if_pos hi]
  have hafter : ∀ (i : ℕ) (heading : Heading), kept.parsed ≤ i →
      (stream.headings.putBack kept).headings[i]? = some heading →
      heading.parsed = false := by
    intro i heading hi hget
    simp only [HeadingState.putBack] at hget
    rw [List.getElem?_append_right (by simp [hi])] at hget
    obtain ⟨entry, -, rfl⟩ := List.mem_map.mp (List.mem_of_getElem? hget)
    rfl
  refine ⟨?_, ⟨?_, hbound, fun i heading hi => ?_, ?_⟩, ?_, ?_, fun k hk => ?_⟩
  · exact hroster ▸ h.plain.take _
  · simp only [Stream.putBackTo, HeadingState.putBack, List.length_append, List.length_take,
      List.length_map, List.length_drop]
    omega
  · rcases lt_or_ge i kept.parsed with hlt | hge
    · have hi' := hi
      simp only [Stream.putBackTo] at hi'
      rw [hbefore i hlt] at hi'
      exact iff_of_true ((h.inOrder.parsed i heading hi').mpr (by omega)) hlt
    · have hfalse := hafter i heading hge hi
      simp only [hfalse, Bool.false_eq_true, false_iff, not_lt]
      exact hge
  · simp only [Stream.putBackTo, HeadingState.putBack]
    have hall := h.inOrder.sorted.sublist (List.take_sublist kept.count _)
    rw [← take_append_drop_take _ hbound, List.pairwise_append] at hall
    exact List.pairwise_append.mpr ⟨hall.1, List.pairwise_map.mpr hall.2.1,
      fun a ha => List.forall_mem_map.mpr fun b hb => hall.2.2 a ha b hb⟩
  · refine h.ok.of_agree rfl rfl rfl rfl ?_ ?_ ?_ (fun i hi => ?_) fun i heading hi => ?_
    · rw [hroster, List.take_take, min_eq_left hat]
    · rw [hroster, List.length_take, min_eq_left hrecords]
      exact hat
    · simp only [Stream.putBackTo, HeadingState.putBack, List.length_append, List.length_take,
        List.length_map, List.length_drop]
      omega
    · simp only at hi
      simp only [List.getElem?_take]
      have hput : (stream.putBackTo kept).headings.parsed = kept.parsed := rfl
      rw [if_pos (by omega), if_pos (by omega)]
      exact hbefore i (by omega)
    · simp only [List.getElem?_take] at hi
      split_ifs at hi with hlt
      have hlt' : i < kept.parsed := hlt
      have hi' : stream.headings.headings[i]? = some heading := hbefore i hlt' ▸ hi
      obtain ⟨hcoherent, hholds, hflag⟩ := h.steady hi' (by omega)
      exact ⟨hcoherent, hholds, hflag⟩
  · rw [h.kept_putBackTo hmem]
    exact hmarks
  · rw [h.kept_putBackTo hmem] at hk
    rcases List.mem_append.mp hk with hk | hk
    · exact h.bounds k (List.mem_append_left _ (hsub k hk))
    · obtain rfl := List.mem_singleton.mp hk
      exact ⟨hnamed, hat, hbound⟩

end Stream

end MarkdownCore
