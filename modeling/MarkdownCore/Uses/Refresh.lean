import MarkdownCore.Library.Widest
import MarkdownCore.Uses.IndexRun

/-!
# The uses of altered labels, read again

The places where altered labels are used are read again by a few readings. The widest gaps between
places part them, and a reading goes from the first place left to the last before the next cut, and
on to where it takes old children back: the places it read past need no reading of their own.
-/

namespace MarkdownCore.Uses

open Declarations (Kind Label Key)

/-- `SESSION_PASSES`. -/
def sessionPasses : ℕ := 8

/-- How far the place after one is from it. -/
def gap (places : List ℕ) (i : ℕ) : ℕ := places.getD (i + 1) 0 - places.getD i 0

/-- A turn of the loop of `session_refresh` that keeps the cuts, widest first. -/
def keepCut (places cuts : List ℕ) (i : ℕ) : List ℕ :=
  let at' := Widest.seat (fun c => decide (gap places c < gap places i)) cuts cuts.length
  if at' = sessionPasses - 1 then cuts
  else
    let count := if cuts.length = sessionPasses - 1 then cuts.length - 1 else cuts.length
    cuts.take at' ++ i :: (cuts.drop at').take (count - at')

/-- The places the cuts follow, in order. -/
def cutsOf (places : List ℕ) : List ℕ :=
  ((List.range (places.length - 1)).foldl (keepCut places) []).insertionSort (· ≤ ·)

/-- What a reading was asked to read, from just past its first place to just past its last, and the
bytes it read. -/
structure Reading where
  inside : ℕ
  past : ℕ
  start : ℕ
  stop : ℕ
deriving DecidableEq

/-- The readings of `session_refresh` so far, the first place left and the first cut that may part
it from others. -/
structure Refresh (σ : Type*) where
  session : σ
  first : ℕ
  cut : ℕ
  rereadFrom : ℕ
  rereadTo : ℕ
  readings : List Reading

namespace Refresh

variable {σ : Type*} (reread : σ → ℕ → ℕ → Option (σ × ℕ × ℕ)) (places cuts : List ℕ)

/-- A turn of the loop that reads: `reread` is `session_rest` and `session_reread`, which give the
session and the bytes read unless they fail. -/
def turn (r : Refresh σ) : Option (Refresh σ) :=
  let cut := r.cut + ((cuts.drop r.cut).takeWhile (· < r.first)).length
  let last := if cut < cuts.length then cuts.getD cut 0 else places.length - 1
  let inside := places.getD r.first 0 + 1
  let past := places.getD last 0 + 1
  (reread r.session inside past).map fun (session, start, stop) =>
    { session
      first := last + 1 + ((places.drop (last + 1)).takeWhile (· < stop)).length
      cut
      rereadFrom := min start r.rereadFrom
      rereadTo := max stop r.rereadTo
      readings := r.readings ++ [⟨inside, past, start, stop⟩] }

/-- The loop that reads. The first argument bounds its turns. -/
def run : ℕ → Refresh σ → Option (Refresh σ)
  | 0, r => some r
  | fuel + 1, r =>
    if r.first < places.length then (r.turn reread places cuts).bind (run fuel) else some r

end Refresh

/-- `session_refresh`, of the places where altered labels are used. -/
def refresh {σ : Type*} (reread : σ → ℕ → ℕ → Option (σ × ℕ × ℕ)) (session : σ)
    (rereadFrom rereadTo : ℕ) (places : List ℕ) : Option (Refresh σ) :=
  Refresh.run reread places (cutsOf places) places.length
    ⟨session, 0, 0, rereadFrom, rereadTo, []⟩

/-! ### The cuts -/

variable {places : List ℕ}

/-- Keeping a cut keeps the widest gaps of those kept and it. -/
lemma keepCut_eq {cuts : List ℕ}
    (hcuts : cuts.Pairwise fun a b => gap places b ≤ gap places a)
    (hlength : cuts.length ≤ sessionPasses - 1) (i : ℕ) :
    keepCut places cuts i =
      (cuts.orderedInsert (Widest.Wider (gap places)) i).take (sessionPasses - 1) := by
  rw [Widest.orderedInsert_eq_seat hcuts, keepCut]
  set at' := Widest.seat (fun c => decide (gap places c < gap places i)) cuts cuts.length with hat
  have hle : at' ≤ cuts.length := by
    obtain ⟨front, back, hsplit, hfront, hback, -⟩ := Widest.orderedInsert_split hcuts i
    have hseat : at' = front.length := by
      rw [hat, hsplit, List.length_append]
      apply Widest.seat_append front
      · exact fun b hb => decide_eq_false (hfront b hb)
      · exact fun b hb => decide_eq_true (hback b hb)
      · exact le_rfl
    rw [hseat, hsplit, List.length_append]
    exact Nat.le_add_right _ _
  have htake : (cuts.take at').length = at' := List.length_take_of_le hle
  have hfront : (cuts.take at').take (sessionPasses - 1) = cuts.take at' :=
    List.take_of_length_le (by rw [htake]; exact hle.trans hlength)
  dsimp only
  rw [List.take_append, htake, hfront]
  split
  next hfull =>
    rw [hfull, Nat.sub_self, List.take_zero, List.append_nil, List.take_of_length_le hlength]
  next hroom =>
    have hlt : at' < sessionPasses - 1 := by omega
    obtain ⟨room, hroom'⟩ := Nat.exists_eq_add_of_lt hlt
    have hsub : sessionPasses - 1 - at' = room + 1 := by omega
    have hback : (cuts.drop at').take
        ((if cuts.length = sessionPasses - 1 then cuts.length - 1 else cuts.length) - at') =
          (cuts.drop at').take room := by
      split
      next hfull =>
        rw [hfull, hroom', Nat.add_sub_cancel, Nat.add_sub_cancel_left]
      next hshort =>
        have hdrop : (cuts.drop at').length = cuts.length - at' := List.length_drop
        rw [List.take_of_length_le (by rw [hdrop]), List.take_of_length_le (by rw [hdrop]; omega)]
    rw [hsub, List.take_succ_cons, hback]

/-- The cuts kept are the widest gaps. -/
lemma foldl_keepCut (l : List ℕ) :
    l.foldl (keepCut places) [] = (Widest.sorted (gap places) l).take (sessionPasses - 1) := by
  have hfold : ∀ cuts : List ℕ, (cuts.Pairwise fun a b => gap places b ≤ gap places a) →
      cuts.length ≤ sessionPasses - 1 → l.foldl (keepCut places) cuts =
        l.foldl (fun kept i =>
          (kept.orderedInsert (Widest.Wider (gap places)) i).take (sessionPasses - 1)) cuts := by
    induction l with
    | nil => exact fun _ _ _ => rfl
    | cons i l ih =>
      intro cuts hcuts hlength
      rw [List.foldl_cons, List.foldl_cons, keepCut_eq hcuts hlength]
      apply ih
      · exact (Widest.descending_orderedInsert hcuts i).sublist (List.take_sublist _ _)
      · exact List.length_take_le _ _
  rw [hfold [] List.Pairwise.nil (Nat.zero_le _), Widest.foldl_take]

/-- The cuts follow the places with the widest gaps after them, the earlier of two as wide first. -/
structure WidestCuts (places cuts : List ℕ) : Prop where
  ordered : cuts.Pairwise (· < ·)
  length_eq : cuts.length = min (sessionPasses - 1) (places.length - 1)
  lt : ∀ c ∈ cuts, c + 1 < places.length
  widest : ∀ c ∈ cuts, ∀ i, i + 1 < places.length → i ∉ cuts →
    gap places i < gap places c ∨ gap places c = gap places i ∧ c < i

lemma cutsOf_widest (places : List ℕ) : WidestCuts places (cutsOf places) := by
  obtain ⟨hlength, hmem, hwidest⟩ :=
    @Widest.kept_spec _ (gap places) _ _ (@List.pairwise_lt_range (places.length - 1))
      (sessionPasses - 1)
  have hsort : ∀ c, c ∈ cutsOf places ↔
      c ∈ (Widest.sorted (gap places) (List.range (places.length - 1))).take
        (sessionPasses - 1) := by
    intro c
    rw [cutsOf, List.mem_insertionSort, foldl_keepCut]
  constructor
  · have hnodup : (cutsOf places).Nodup := by
      rw [cutsOf, (List.perm_insertionSort (· ≤ ·) _).nodup_iff, foldl_keepCut]
      apply List.Nodup.sublist (List.take_sublist _ _)
      exact (Widest.perm_sorted _).nodup_iff.mpr List.nodup_range
    have hle : (cutsOf places).Pairwise (· ≤ ·) := List.pairwise_insertionSort _ _
    apply (hle.and hnodup).imp
    rintro a b ⟨hab, hne⟩
    exact Nat.lt_of_le_of_ne hab hne
  · rw [cutsOf, List.length_insertionSort, foldl_keepCut, hlength, List.length_range]
  · intro c hc
    have hrange := List.mem_range.mp (hmem c ((hsort c).mp hc))
    omega
  · intro c hc i hi hout
    apply hwidest c ((hsort c).mp hc) i (List.mem_range.mpr (by omega))
    rw [← hsort]
    exact hout

/-! ### The readings -/

/-- A place is read by a reading whose window holds it, or by one that went on past it. -/
def Reading.Covers (reading : Reading) (place : ℕ) : Prop :=
  (reading.inside ≤ place + 1 ∧ place + 1 ≤ reading.past) ∨ place < reading.stop

/-- A reading's window is of the places between two cuts. -/
def Reading.Between (places cuts : List ℕ) (reading : Reading) : Prop :=
  ∃ first last, first ≤ last ∧ last < places.length ∧
    reading.inside = places.getD first 0 + 1 ∧ reading.past = places.getD last 0 + 1 ∧
    (∀ c ∈ cuts, first ≤ c → last ≤ c) ∧ (last ∈ cuts ∨ last + 1 = places.length)

/-- What the readings so far did: each place before the first left is read, and a cut was passed by
each of them but the last. -/
structure Refresh.Reads {σ : Type*} (places cuts : List ℕ) (r : Refresh σ) : Prop where
  first_le : r.first ≤ places.length
  cut_le : r.cut ≤ cuts.length
  passed : ∀ c ∈ cuts.take r.cut, c < r.first
  count : r.readings = [] ∨ (r.first = places.length ∧ r.readings.length ≤ cuts.length + 1) ∨
    (r.readings.length ≤ r.cut + 1 ∧ ∃ c, cuts[r.cut]? = some c ∧ c < r.first)
  covered : ∀ i < r.first, ∃ reading ∈ r.readings, reading.Covers (places.getD i 0)
  between : ∀ reading ∈ r.readings, reading.Between places cuts

/-- Up over the entries from one on that pass a test. -/
lemma skip_spec {l : List ℕ} {p : ℕ → Bool} {n : ℕ} (hn : n ≤ l.length) :
    n + ((l.drop n).takeWhile p).length ≤ l.length ∧
      (∀ i, n ≤ i → i < n + ((l.drop n).takeWhile p).length → p (l.getD i 0) = true) ∧
      ∀ x, l[n + ((l.drop n).takeWhile p).length]? = some x → p x = false := by
  have hsplit : l.drop n = (l.drop n).takeWhile p ++ (l.drop n).dropWhile p :=
    List.takeWhile_append_dropWhile.symm
  have hlength : (l.drop n).length = l.length - n := List.length_drop
  set front := (l.drop n).takeWhile p with hfront
  set back := (l.drop n).dropWhile p with hback
  have hsum : front.length + back.length = l.length - n := by
    rw [← hlength, hsplit, List.length_append]
  refine ⟨by omega, ?_, ?_⟩
  · intro i hi hlt
    obtain ⟨k, rfl⟩ := Nat.exists_eq_add_of_le hi
    have hk : k < front.length := by omega
    have hget : l[n + k]? = some front[k] := by
      rw [← List.getElem?_drop, hsplit, List.getElem?_append_left hk, List.getElem?_eq_getElem hk]
    rw [List.getD_eq_getElem?_getD, hget, Option.getD_some]
    exact List.all_eq_true.mp List.all_takeWhile _ (List.getElem_mem hk)
  · intro x hx
    rw [← List.getElem?_drop, hsplit, List.getElem?_append_right le_rfl, Nat.sub_self] at hx
    have hhead : back.head? = some x := by rwa [List.head?_eq_getElem?]
    have hnot := List.head?_dropWhile_not p (l.drop n)
    rw [← hback, hhead] at hnot
    simpa using hnot

variable {σ : Type*} {reread : σ → ℕ → ℕ → Option (σ × ℕ × ℕ)} {cuts : List ℕ}

/-- A reading reads the places up to the next cut, and goes on past them. -/
lemma Refresh.turn_spec (hplaces : places.Pairwise (· < ·)) (hcuts : cuts.Pairwise (· < ·))
    (hlt : ∀ c ∈ cuts, c + 1 < places.length) {r r' : Refresh σ} (h : r.Reads places cuts)
    (hfirst : r.first < places.length) (hturn : r.turn reread places cuts = some r') :
    r'.Reads places cuts ∧ r.first < r'.first := by
  obtain ⟨⟨session, start, stop⟩, -, rfl⟩ := Option.map_eq_some_iff.mp hturn
  obtain ⟨hcutLe, hskipped, hstop⟩ :=
    @skip_spec cuts (fun c => decide (c < r.first)) r.cut h.cut_le
  set cut := r.cut + ((cuts.drop r.cut).takeWhile (· < r.first)).length with hcut
  have hget : ∀ {i : ℕ} (hi : i < cuts.length), cuts.getD i 0 = cuts[i] :=
    fun hi => List.getD_eq_getElem _ _ hi
  have hpassed : ∀ i, i < cut → i < cuts.length → cuts.getD i 0 < r.first := by
    intro i hi hi'
    by_cases hold : i < r.cut
    · apply h.passed
      rw [hget hi', List.mem_take_iff_getElem]
      exact ⟨i, by omega, rfl⟩
    · exact of_decide_eq_true (hskipped i (by omega) hi)
  -- the last place is the one before the next cut, or the last of all
  obtain ⟨last, hlast, hfirstLast, hlastLt, hnext, hends⟩ : ∃ last,
      (if cut < cuts.length then cuts.getD cut 0 else places.length - 1) = last ∧
      r.first ≤ last ∧ last < places.length ∧ (∀ c ∈ cuts, r.first ≤ c → last ≤ c) ∧
      (cuts[cut]? = some last ∨ cut = cuts.length ∧ last + 1 = places.length) := by
    by_cases hin : cut < cuts.length
    · rw [if_pos hin]
      refine ⟨_, rfl, ?_, ?_, ?_, Or.inl ?_⟩
      · have hnot := hstop _ (List.getElem?_eq_getElem hin)
        rw [hget hin]
        exact not_lt.mp (of_decide_eq_false hnot)
      · rw [hget hin]
        exact Nat.lt_of_succ_lt (hlt _ (List.getElem_mem hin))
      · intro c hc hle
        obtain ⟨i, hi, rfl⟩ := List.getElem_of_mem hc
        rw [hget hin]
        rcases Nat.lt_trichotomy i cut with hlt' | rfl | hgt
        · have hbefore := hpassed i hlt' hi
          rw [hget hi] at hbefore
          omega
        · exact le_rfl
        · exact (List.pairwise_iff_getElem.mp hcuts cut i hin hi hgt).le
      · rw [hget hin]
        exact List.getElem?_eq_getElem hin
    · rw [if_neg hin]
      refine ⟨_, rfl, by omega, by omega, ?_, Or.inr ⟨by omega, by omega⟩⟩
      intro c hc hle
      obtain ⟨i, hi, rfl⟩ := List.getElem_of_mem hc
      have hbefore := hpassed i (by omega) hi
      rw [hget hi] at hbefore
      omega
  obtain ⟨hfirstLe, hover, -⟩ :=
    @skip_spec places (fun place => decide (place < stop)) (last + 1) hlastLt
  set first := last + 1 + ((places.drop (last + 1)).takeWhile (· < stop)).length with hfirst'
  have hreadings : r.readings.length ≤ cut := by
    rcases h.count with hnil | ⟨hdone, -⟩ | ⟨hcount, c, hc, hlt'⟩
    · rw [hnil]
      exact Nat.zero_le _
    · omega
    · -- the cut the reading before ended at is passed now
      have hne : cut ≠ r.cut := by
        intro heq
        have hnot := hstop c (by rw [heq]; exact hc)
        exact of_decide_eq_false hnot hlt'
      omega
  have hmono : ∀ {i j : ℕ}, i ≤ j → j < places.length → places.getD i 0 ≤ places.getD j 0 := by
    intro i j hij hj
    rw [List.getD_eq_getElem _ _ hj, List.getD_eq_getElem _ _ (lt_of_le_of_lt hij hj)]
    rcases Nat.lt_or_eq_of_le hij with hlt' | rfl
    · exact (List.pairwise_iff_getElem.mp hplaces i j (hij.trans_lt hj) hj hlt').le
    · exact le_rfl
  simp only [hlast]
  refine ⟨⟨hfirstLe, hcutLe, ?_, ?_, ?_, ?_⟩, show r.first < first by omega⟩
  · intro c hc
    have hc' : c ∈ cuts.take cut := hc
    obtain ⟨i, hi, rfl⟩ := List.mem_take_iff_getElem.mp hc'
    have hin : i < cuts.length := by omega
    have hbefore := hpassed i (by omega) hin
    rw [hget hin] at hbefore
    show cuts[i] < first
    omega
  · show r.readings ++ [_] = [] ∨ (first = places.length ∧ (r.readings ++ [_]).length ≤ _) ∨
      ((r.readings ++ [_]).length ≤ cut + 1 ∧ ∃ c, cuts[cut]? = some c ∧ c < first)
    rw [List.length_append, List.length_singleton]
    rcases hends with hcut' | ⟨hcut', hdone⟩
    · exact Or.inr (Or.inr ⟨by omega, last, hcut', by omega⟩)
    · exact Or.inr (Or.inl ⟨by omega, by omega⟩)
  · intro i hi
    have hi : i < first := hi
    by_cases hold : i < r.first
    · obtain ⟨reading, hin, hcovers⟩ := h.covered i hold
      exact ⟨reading, List.mem_append_left _ hin, hcovers⟩
    · refine ⟨_, List.mem_append_right _ (List.mem_singleton_self _), ?_⟩
      by_cases hwindow : i ≤ last
      · exact Or.inl ⟨Nat.succ_le_succ (hmono (not_lt.mp hold) (by omega)),
          Nat.succ_le_succ (hmono hwindow hlastLt)⟩
      · exact Or.inr (of_decide_eq_true (hover i (by omega) hi))
  · intro reading hin
    rcases List.mem_append.mp hin with hin | hin
    · exact h.between reading hin
    · rw [List.mem_singleton.mp hin]
      refine ⟨r.first, last, hfirstLast, hlastLt, rfl, rfl, hnext, ?_⟩
      exact hends.imp (fun h => List.mem_of_getElem? h) And.right

lemma Refresh.run_spec (hplaces : places.Pairwise (· < ·)) (hcuts : cuts.Pairwise (· < ·))
    (hlt : ∀ c ∈ cuts, c + 1 < places.length) {fuel : ℕ} {r r' : Refresh σ}
    (h : r.Reads places cuts) (hfuel : places.length ≤ r.first + fuel)
    (hrun : r.run reread places cuts fuel = some r') :
    r'.Reads places cuts ∧ r'.first = places.length := by
  induction fuel generalizing r with
  | zero =>
    obtain rfl := Option.some.inj hrun
    have := h.first_le
    exact ⟨h, by omega⟩
  | succ fuel ih =>
    rw [Refresh.run] at hrun
    split at hrun
    next hfirst =>
      obtain ⟨s, hturn, hrun⟩ := Option.bind_eq_some_iff.mp hrun
      obtain ⟨hs, hadvance⟩ := Refresh.turn_spec hplaces hcuts hlt h hfirst hturn
      exact ih hs (by omega) hrun
    next hdone =>
      obtain rfl := Option.some.inj hrun
      have := h.first_le
      exact ⟨h, by omega⟩

/-- A refresh that ends read each place. -/
lemma refresh_reads (hplaces : places.Pairwise (· < ·)) {session : σ} {rereadFrom rereadTo : ℕ}
    {r : Refresh σ} (h : refresh reread session rereadFrom rereadTo places = some r) :
    r.Reads places (cutsOf places) ∧ r.first = places.length := by
  have hcuts := cutsOf_widest places
  have hstart : Refresh.Reads places (cutsOf places)
      (⟨session, 0, 0, rereadFrom, rereadTo, []⟩ : Refresh σ) := by
    constructor
    · exact Nat.zero_le _
    · exact Nat.zero_le _
    · simp
    · exact Or.inl rfl
    · exact fun i hi => absurd hi (Nat.not_lt_zero i)
    · simp
  exact Refresh.run_spec hplaces hcuts.ordered hcuts.lt hstart
    (Nat.le_of_eq (Nat.zero_add _).symm) h

/-! ### What the readings leave to read -/

/-- A place is read anew by a reading from before it whose window holds it, or that goes past
it. -/
def Anew (inside past stop place : ℕ) : Prop :=
  inside ≤ place + 1 ∧ (place + 1 ≤ past ∨ place < stop)

/-- A session's places left to read are among those from the first on. -/
def Refresh.Leaves (places : List ℕ) (left : σ → (ℕ → Prop) → Prop) (r : Refresh σ) : Prop :=
  ∃ stale, left r.session stale ∧ ∀ x, stale x → ∃ i, r.first ≤ i ∧ places[i]? = some x

/-- The readings of a refresh: no more than `SESSION_PASSES`, each between two cuts, and every place
in the window of one or before the end of one. -/
lemma refresh_spec (hplaces : places.Pairwise (· < ·)) {session : σ} {rereadFrom rereadTo : ℕ}
    {r : Refresh σ} (h : refresh reread session rereadFrom rereadTo places = some r) :
    r.readings.length ≤ sessionPasses ∧
      (∀ reading ∈ r.readings, reading.Between places (cutsOf places)) ∧
      ∀ place ∈ places, ∃ reading ∈ r.readings, reading.Covers place := by
  have hcuts := cutsOf_widest places
  obtain ⟨hreads, hfirst⟩ := refresh_reads hplaces h
  refine ⟨?_, hreads.between, ?_⟩
  · have hpasses : (cutsOf places).length + 1 ≤ sessionPasses := by
      rw [hcuts.length_eq]
      exact Nat.succ_le_succ (Nat.min_le_left _ _)
    rcases hreads.count with hnil | ⟨-, hcount⟩ | ⟨hcount, c, hc, -⟩
    · rw [hnil]
      exact Nat.zero_le _
    · exact hcount.trans hpasses
    · have hlt := (List.getElem?_eq_some_iff.mp hc).1
      omega
  · intro place hplace
    obtain ⟨i, hi, rfl⟩ := List.getElem_of_mem hplace
    obtain ⟨reading, hin, hcovers⟩ := hreads.covered i (by rw [hfirst]; exact hi)
    rw [List.getD_eq_getElem _ _ hi] at hcovers
    exact ⟨reading, hin, hcovers⟩

/-- A refresh reads every use of an altered label again. The places it reads are those just past
where the uses of the altered labels start in the kept spans, in order and each once; and with at
most `SESSION_PASSES` readings, parted at the widest gaps, each place is in a reading's window or
before the end of one, however far the readings go on. -/
theorem refresh_reads_altered_uses {normalize : Label → Label} {e : UseIndex} (h : e.Ok)
    (hflushed : e.Flushed) (altered : List Key) {spans : List (ℕ × ℕ)} (hspans : OrderedSpans spans)
    (reread : σ → ℕ → ℕ → Option (σ × ℕ × ℕ)) (session : σ) (rereadFrom rereadTo : ℕ) :
    (usesOf normalize e altered spans).2.Pairwise (· < ·) ∧
      (∀ place, place ∈ (usesOf normalize e altered spans).2 ↔
        ∃ name ∈ altered, ∃ start, (some name, start) ∈ e.entries normalize ∧
          (∃ span ∈ spans, span.1 ≤ start ∧ start < span.2) ∧ place = start + 1) ∧
      WidestCuts (usesOf normalize e altered spans).2
        (cutsOf (usesOf normalize e altered spans).2) ∧
      ∀ r,
        refresh reread session rereadFrom rereadTo (usesOf normalize e altered spans).2 = some r →
        r.readings.length ≤ sessionPasses ∧
          (∀ reading ∈ r.readings, reading.Between (usesOf normalize e altered spans).2
            (cutsOf (usesOf normalize e altered spans).2)) ∧
          ∀ place ∈ (usesOf normalize e altered spans).2,
            ∃ reading ∈ r.readings, reading.Covers place := by
  obtain ⟨hplaces, hmem⟩ := @usesOf_spec normalize e h hflushed altered spans hspans
  refine ⟨hplaces, hmem, cutsOf_widest _, ?_⟩
  intro r hr
  exact refresh_spec hplaces hr

/-- Two uses of one label and one of another, noted before any lookup of them. -/
def sampleUses : UseIndex :=
  (((empty 90).use 3 .reference [97]).use 12 .footnote [98]).use 40 .reference [97]

theorem refresh_reads_altered_uses_sample :
    (usesOf id sampleUses [(.reference, [97])] [(0, 10), (30, 90)]).2.Pairwise (· < ·) ∧
      (∀ place, place ∈ (usesOf id sampleUses [(.reference, [97])] [(0, 10), (30, 90)]).2 ↔
        ∃ name ∈ [((.reference, [97]) : Key)], ∃ start, (some name, start) ∈ sampleUses.entries id ∧
          (∃ span ∈ [(0, 10), (30, 90)], span.1 ≤ start ∧ start < span.2) ∧ place = start + 1) ∧
      WidestCuts (usesOf id sampleUses [(.reference, [97])] [(0, 10), (30, 90)]).2
        (cutsOf (usesOf id sampleUses [(.reference, [97])] [(0, 10), (30, 90)]).2) ∧
      ∀ r, refresh (fun (_ : Unit) inside past => some ((), inside, past)) () 0 0
          (usesOf id sampleUses [(.reference, [97])] [(0, 10), (30, 90)]).2 = some r →
        r.readings.length ≤ sessionPasses ∧
          (∀ reading ∈ r.readings,
            reading.Between (usesOf id sampleUses [(.reference, [97])] [(0, 10), (30, 90)]).2
              (cutsOf (usesOf id sampleUses [(.reference, [97])] [(0, 10), (30, 90)]).2)) ∧
          ∀ place ∈ (usesOf id sampleUses [(.reference, [97])] [(0, 10), (30, 90)]).2,
            ∃ reading ∈ r.readings, reading.Covers place := by
  apply refresh_reads_altered_uses
  · exact use_ok (use_ok (use_ok (empty_ok 90) _ _ _) _ _ _) _ _ _
  · intro hindexed
    cases hindexed
  · exact ⟨by decide, by decide⟩

end MarkdownCore.Uses
