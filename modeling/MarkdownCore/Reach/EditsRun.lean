import Mathlib.Data.List.Sort
import MarkdownCore.Reach.Edits

/-!
# The reach log's invariant

What every step of an edit keeps of the log, beside the readings it holds, and what the log
answers from it.
-/

namespace MarkdownCore.Reach

open Merge (InOrder)

/-! ### Notes in order about a place -/

lemma filter_lt_eq {l : List Place} (hin : InOrder Place.start l) (first : ℕ) :
    (l : Multiset Place).filter (·.start < first) = l.takeWhile fun a => a.start < first := by
  have hsplit := List.takeWhile_append_dropWhile
    (p := fun a : Place => decide (a.start < first)) (l := l)
  have hbefore : (l.takeWhile fun a => a.start < first).filter (·.start < first) =
      l.takeWhile fun a => a.start < first := by
    apply List.filter_eq_self.mpr
    intro a ha
    have hlt := List.mem_takeWhile_imp ha
    exact hlt
  have hafter : (l.dropWhile fun a => a.start < first).filter (·.start < first) = [] := by
    rw [List.filter_eq_nil_iff]
    intro a ha
    simp only [decide_eq_true_eq, not_lt]
    exact le_of_mem_dropWhile hin ha
  conv_lhs => rw [← hsplit]
  rw [Multiset.filter_coe, List.filter_append, hbefore, hafter, List.append_nil]

lemma filter_le_eq {l : List Place} (hin : InOrder Place.start l) (first : ℕ) :
    (l : Multiset Place).filter (first ≤ ·.start) = l.dropWhile fun a => a.start < first := by
  have hsplit := List.takeWhile_append_dropWhile
    (p := fun a : Place => decide (a.start < first)) (l := l)
  have hbefore : (l.takeWhile fun a => a.start < first).filter (first ≤ ·.start) = [] := by
    rw [List.filter_eq_nil_iff]
    intro a ha
    have hlt := List.mem_takeWhile_imp ha
    simpa using hlt
  have hafter : (l.dropWhile fun a => a.start < first).filter (first ≤ ·.start) =
      l.dropWhile fun a => a.start < first := by
    apply List.filter_eq_self.mpr
    intro a ha
    exact decide_eq_true (le_of_mem_dropWhile hin ha)
  conv_lhs => rw [← hsplit]
  rw [Multiset.filter_coe, List.filter_append, hbefore, hafter, List.nil_append]

/-! ### The invariant -/

/-- The notes the log held when its count was kept. -/
def State.notesAt (s : State) (count : ℕ) : Multiset Place :=
  ↑(s.log.reach.front.take count) + if s.reading then 0 else ↑(s.log.reach.rest places)

/-- The state holds the readings. -/
structure State.Inv (s : State) (r : Readings) : Prop where
  known : s.log.Known
  placed : ∀ a ∈ s.log.reach.front, a.start ≤ s.place ∧ a.stop < 2 ^ 32
  place_le : s.place ≤ s.size
  size_lt : s.size < 2 ^ 32
  back : ∀ a ∈ s.log.reach.back, a.Within s.log.reach.size
  rest : InOrder Place.start (s.log.reach.rest places)
  measured : s.reading = false → s.log.reach.back = [] ∨ s.log.reach.size = s.size
  past : s.reading = false → ∀ a ∈ s.log.reach.rest places, s.place ≤ a.start
  notes : r.notes = s.notesAt s.log.reach.front.length
  old : s.reading = true → r.old = s.log.reach.rest places
  kept : ∀ count ∈ s.held, s.log.furthest.length ≤ count ∧ count ≤ s.log.reach.front.length
  held : s.held.Pairwise (· ≥ ·)
  saved : r.saved = s.held.map s.notesAt

variable {s s' : State} {r : Readings} {sorting : Sorting}

lemma State.Inv.fresh : State.fresh.Inv Readings.none := by
  constructor <;> simp [State.fresh, Readings.none, State.notesAt, Zipper.rest]
  · exact ⟨rfl, List.Pairwise.nil⟩
  · exact List.Pairwise.nil

lemma wrap_of_lt {n : ℕ} (h : n < 2 ^ 32) : wrap n = n := by
  simp only [wrap]
  omega

/-- What a note pushed to the log leaves of the count kept before. -/
lemma notesAt_note {start stop count : ℕ} (hcount : count ≤ s.log.reach.front.length) :
    State.notesAt { s with log := s.log.note start stop } count = s.notesAt count := by
  have htake : (s.log.reach.front ++ [Place.mk (wrap start) (wrap stop)]).take count =
      s.log.reach.front.take count := List.take_append_of_le_length hcount
  rw [State.notesAt, State.notesAt]
  congr 1
  exact congrArg _ htake

lemma State.Inv.note (h : s.Inv r) {start stop : ℕ} (hle : start ≤ s.place) :
    State.Inv { s with log := s.log.note start stop } (r.apply (.note start stop)) := by
  have hknown := h.known.length_le
  have hstart : wrap start = start :=
    wrap_of_lt (lt_of_le_of_lt (le_trans hle h.place_le) h.size_lt)
  have htake :
      (s.log.reach.front ++ [Place.mk (wrap start) (wrap stop)]).take s.log.furthest.length =
        s.log.reach.front.take s.log.furthest.length := List.take_append_of_le_length hknown
  have hlength : (s.log.reach.front ++ [Place.mk (wrap start) (wrap stop)]).length =
      s.log.reach.front.length + 1 := by simp
  constructor
  · constructor
    · exact h.known.furthest.trans (congrArg _ htake.symm)
    · exact htake.symm ▸ h.known.inOrder
  · intro a ha
    rcases List.mem_append.mp ha with ha | ha
    · exact h.placed a ha
    · rw [List.mem_singleton.mp ha]
      refine ⟨hstart.le.trans hle, ?_⟩
      simp only [wrap]
      omega
  · exact h.place_le
  · exact h.size_lt
  · exact h.back
  · exact h.rest
  · exact h.measured
  · exact h.past
  · rw [Readings.apply, h.notes]
    simp only [State.notesAt, Log.note, List.take_length]
    rw [← Multiset.cons_add, Multiset.cons_coe]
    congr 1
    exact Multiset.coe_eq_coe.mpr (List.perm_append_singleton _ _).symm
  · exact h.old
  · intro count hcount
    obtain ⟨hfurthest, hle'⟩ := h.kept count hcount
    exact ⟨hfurthest, hlength.ge.trans' (Nat.le_succ_of_le hle')⟩
  · exact h.held
  · rw [Readings.apply, h.saved]
    refine List.map_congr_left fun count hcount => ?_
    exact (notesAt_note (h.kept count hcount).2).symm

lemma State.Inv.hold (h : s.Inv r) :
    State.Inv { s with held := s.log.reach.front.length :: s.held } (r.apply .hold) := by
  constructor
  · exact h.known
  · exact h.placed
  · exact h.place_le
  · exact h.size_lt
  · exact h.back
  · exact h.rest
  · exact h.measured
  · exact h.past
  · exact h.notes
  · exact h.old
  · intro count hcount
    rcases List.mem_cons.mp hcount with rfl | hcount
    · exact ⟨h.known.length_le, le_refl _⟩
    · exact h.kept count hcount
  · exact List.pairwise_cons.mpr ⟨fun count hcount => (h.kept count hcount).2, h.held⟩
  · rw [Readings.apply, List.map_cons, h.saved, h.notes]
    rfl

lemma State.Inv.restore (h : s.Inv r) {count : ℕ} {held : List ℕ} (hheld : s.held = count :: held) :
    State.Inv { s with log := s.log.truncate count, held } (r.apply .restore) := by
  have hsaved := h.saved
  rw [hheld, List.map_cons] at hsaved
  have happly : r.apply .restore =
      { r with notes := s.notesAt count, saved := held.map s.notesAt } := by
    rw [Readings.apply, hsaved]
  have hkept : ∀ c ∈ count :: held, s.log.furthest.length ≤ c ∧ c ≤ s.log.reach.front.length := by
    rw [← hheld]
    exact h.kept
  have horder := h.held
  rw [hheld] at horder
  obtain ⟨hfurthest, hcount⟩ := hkept count List.mem_cons_self
  have htake : (s.log.reach.front.take count).take s.log.furthest.length =
      s.log.reach.front.take s.log.furthest.length := by
    rw [List.take_take, min_eq_left hfurthest]
  have hnotes : ∀ c ≤ count,
      State.notesAt { s with log := s.log.truncate count, held } c = s.notesAt c := by
    intro c hc
    have htake' : (s.log.reach.front.take count).take c = s.log.reach.front.take c := by
      rw [List.take_take, min_eq_left hc]
    rw [State.notesAt, State.notesAt]
    congr 1
    exact congrArg _ htake'
  rw [happly]
  constructor
  · constructor
    · exact h.known.furthest.trans (congrArg _ htake.symm)
    · exact htake.symm ▸ h.known.inOrder
  · exact fun a ha => h.placed a (List.mem_of_mem_take ha)
  · exact h.place_le
  · exact h.size_lt
  · exact h.back
  · exact h.rest
  · exact h.measured
  · exact h.past
  · have hlength : (s.log.reach.front.take count).length = count := List.length_take_of_le hcount
    exact (hnotes _ hlength.le).symm ▸ congrArg s.notesAt hlength.symm
  · exact h.old
  · intro c hc
    refine ⟨(hkept c (List.mem_cons_of_mem count hc)).1, ?_⟩
    exact (List.length_take_of_le hcount).ge.trans' ((List.pairwise_cons.mp horder).1 c hc)
  · exact (List.pairwise_cons.mp horder).2
  · refine List.map_congr_left fun c hc => ?_
    exact (hnotes c ((List.pairwise_cons.mp horder).1 c hc)).symm

/-! ### Sorting and moving the focus -/

/-- The log's zipper measured in the text's size, once no edit reads. -/
lemma State.Inv.resize (h : s.Inv r) (hreading : s.reading = false) :
    ((s.log.reach.resize s.size).rest places = s.log.reach.rest places) ∧
      ∀ a ∈ s.log.reach.back, a.Within s.size := by
  rcases h.measured hreading with hback | hsize
  · constructor
    · rw [Zipper.rest, Zipper.rest, Zipper.resize, hback]
      rfl
    · rw [hback]
      simp
  · rw [← hsize]
    exact ⟨rfl, h.back⟩

/-- Notes in order up to a place, and from it on. -/
lemma State.Inv.ok (h : s.Inv r) (hreading : s.reading = false)
    (hin : InOrder Place.start (s.log.reach.toList places)) :
    (s.log.reach.resize s.size).Ok places ∧
      (s.log.reach.resize s.size).toList places = s.log.reach.toList places := by
  obtain ⟨hrest, hback⟩ := h.resize hreading
  have hlist : (s.log.reach.resize s.size).toList places = s.log.reach.toList places :=
    congrArg (s.log.reach.front ++ ·) hrest
  refine ⟨⟨?_, hback, ?_⟩, hlist⟩
  · intro a ha
    exact ⟨le_trans (h.placed a ha).1 h.place_le, h.size_lt, (h.placed a ha).2⟩
  · rw [hlist]
    exact hin

lemma State.Inv.sort (h : s.Inv r) (hreading : s.reading = false) (hheld : s.held = [])
    {room ends : Bool} {log : Log} (hsort : s.log.sortReach sorting room ends = (true, log)) :
    State.Inv { s with log } r ∧ log.furthest = Maxima.ends Place.stop 0 log.reach.front ∧
      InOrder Place.start (log.reach.toList places) := by
  obtain ⟨front, hperm, hin, rfl⟩ := Log.sortReach_inOrder h.known hsort
  have hwhole : (Maxima.ends Place.stop 0 front).length = front.length := Maxima.length_ends
  refine ⟨?_, rfl, ?_⟩
  · constructor
    · constructor
      · rw [hwhole, List.take_length]
      · rw [hwhole, List.take_length]
        exact hin
    · exact fun a ha => h.placed a (hperm.mem_iff.mp ha)
    · exact h.place_le
    · exact h.size_lt
    · exact h.back
    · exact h.rest
    · exact h.measured
    · exact h.past
    · rw [h.notes, State.notesAt, State.notesAt, List.take_length, List.take_length]
      congr 1
      exact Multiset.coe_eq_coe.mpr hperm.symm
    · exact h.old
    · intro count hcount
      rw [hheld] at hcount
      exact absurd hcount (by simp)
    · exact h.held
    · rw [h.saved, hheld]
      rfl
  · refine List.pairwise_append.mpr ⟨hin, h.rest, ?_⟩
    intro a ha b hb
    exact le_trans (h.placed a (hperm.mem_iff.mp ha)).1 (h.past hreading b hb)

lemma take_of_isPrefix {α : Type*} {l l' : List α} {n : ℕ} (h : l <+: l') (hn : n ≤ l.length) :
    l'.take n = l.take n := by
  obtain ⟨after, rfl⟩ := h
  exact List.take_append_of_le_length hn

/-- The first entries of a list stay the first that satisfy a predicate in a longer one. -/
lemma takeWhile_prefix_append {α : Type*} (p : α → Bool) (l l' : List α) :
    l.takeWhile p <+: (l ++ l').takeWhile p := by
  rw [List.takeWhile_append]
  split
  next hall =>
    have heq := (List.takeWhile_prefix p (l := l)).eq_of_length hall
    rw [heq]
    exact List.prefix_append l _
  next => exact List.prefix_refl _

/-- The furthest ends a move leaves are those of notes that stay in the front. -/
lemma Log.furthest_move {log : Log} (h : log.Known) (place size : ℕ)
    (hfrom : log.reach.frontFrom places place =
      (log.reach.front.takeWhile fun a => a.start < place).length) :
    (log.move place size).furthest =
        log.furthest.take (log.move place size).furthest.length ∧
      (log.move place size).furthest.length ≤
        (log.reach.front.takeWhile fun a => a.start < place).length := by
  rw [Log.move]
  dsimp only
  rw [hfrom]
  split
  next hleave =>
    rw [Log.leave]
    dsimp only
    split
    next hlt =>
      have hlength := List.length_take_of_le (le_of_lt hlt)
      rw [hlength]
      exact ⟨rfl, le_refl _⟩
    next hge =>
      rw [List.take_length]
      exact ⟨rfl, not_lt.mp hge⟩
  next hstay =>
    rw [List.take_length]
    exact ⟨rfl, le_trans h.length_le (not_lt.mp hstay)⟩

/-- What is known of the furthest ends after a move. -/
lemma Log.Known.move {log : Log} (h : log.Known) (place size : ℕ)
    (hfrom : log.reach.frontFrom places place =
      (log.reach.front.takeWhile fun a => a.start < place).length)
    (hfront : (log.reach.move places place size).front =
      (log.reach.toList places).takeWhile fun a => a.start < place) :
    (log.move place size).Known := by
  obtain ⟨hfurthest, hle⟩ := Log.furthest_move h place size hfrom
  have hreach : (log.move place size).reach = log.reach.move places place size := rfl
  generalize hn : (log.move place size).furthest.length = n at hfurthest hle
  have hmin : min n log.furthest.length = n := by
    rw [← List.length_take, ← hfurthest, hn]
  have hsame : (log.move place size).reach.front.take n = log.reach.front.take n := by
    rw [hreach, hfront, Zipper.toList]
    rw [take_of_isPrefix (takeWhile_prefix_append _ _ _) hle]
    exact (take_of_isPrefix (List.takeWhile_prefix _) hle).symm
  have hsub : (log.reach.front.take log.furthest.length).take n = log.reach.front.take n := by
    rw [List.take_take, hmin]
  constructor
  · rw [hn, hsame, hfurthest, h.furthest, Maxima.take_ends, hsub]
  · rw [hn, hsame, ← hsub]
    exact List.Pairwise.sublist (List.take_sublist n _) h.inOrder

lemma State.Inv.keep (h : s.Inv r) (hreading : s.reading = false) (hheld : s.held = [])
    (hin : InOrder Place.start (s.log.reach.toList places)) {start size : ℕ} (hstart : start ≤ size)
    (hsize : size < 2 ^ 32) :
    State.Inv { s with log := s.log.move start s.size, size, place := start, reading := true }
      (r.apply (.keep start size)) := by
  obtain ⟨hok, hlist⟩ := h.ok hreading hin
  have hmove := hok.move_eq start
  obtain ⟨hok', -, hrest⟩ := hok.move start
  rw [hlist] at hmove hrest
  have hreach : (s.log.move start s.size).reach =
      (s.log.reach.resize s.size).move places start s.size := rfl
  have hfront : (s.log.move start s.size).reach.front =
      (s.log.reach.toList places).takeWhile fun a => a.start < start := by
    rw [hreach]
    exact congrArg Zipper.front hmove
  have hback : (s.log.move start s.size).reach.rest places =
      (s.log.reach.toList places).dropWhile fun a => a.start < start := by
    rw [hreach]
    exact hrest
  have hnotes : r.notes = ↑(s.log.reach.toList places) := by
    rw [h.notes, State.notesAt, List.take_length, hreading]
    rfl
  constructor
  · exact h.known.move start s.size (hok.frontFrom_eq start) hfront
  · intro a ha
    have ha' : a ∈ (s.log.reach.toList places).takeWhile fun a => a.start < start := hfront ▸ ha
    have hlt := List.mem_takeWhile_imp ha'
    have hmem : a ∈ (s.log.reach.resize s.size).toList places :=
      hlist ▸ (List.takeWhile_prefix _).sublist.subset ha'
    exact ⟨le_of_lt (of_decide_eq_true hlt), (hok.within hmem).2.2⟩
  · exact hstart
  · exact hsize
  · intro a ha
    have hsizes : (s.log.move start s.size).reach.size = s.size := rfl
    exact hsizes ▸ hok'.back a ha
  · exact (List.pairwise_append.mp hok'.ordered).2.1
  · intro hfalse
    cases hfalse
  · intro hfalse
    cases hfalse
  · rw [Readings.apply, hnotes, filter_lt_eq hin, State.notesAt, List.take_length, hfront]
    exact (Multiset.add_zero _).symm
  · intro _
    rw [Readings.apply, hnotes, filter_le_eq hin, hback]
  · intro count hcount
    rw [hheld] at hcount
    exact absurd hcount (by simp)
  · exact h.held
  · rw [Readings.apply, h.saved, hheld]
    rfl

/-! ### Taking the old tail back -/

lemma start_shift {delta : ℤ} {a : Place} (hle : 0 ≤ a.start + delta)
    (hlt : (a.start : ℤ) + delta < 2 ^ 32) : ((a.shift delta).start : ℤ) = a.start + delta := by
  simp only [Place.shift, wrap]
  omega

/-- What a splice keeps of the old tail is where it stood, moved by the edit. -/
lemma State.Inv.rest_splice (h : s.Inv r) (old : ℕ) {delta : ℤ}
    (hsize : (s.size : ℤ) = s.log.reach.size + delta) :
    (s.log.splice old delta).reach.rest places =
      ((s.log.reach.rest places).dropWhile fun a => a.start < old).map (·.shift delta) := by
  have hcut := Zipper.rest_cut (P := places) h.back h.rest old
  have hsize' : ((s.log.reach.size : ℤ) + delta).toNat = s.size := by omega
  have hdelta : delta = (s.size : ℤ) - s.log.reach.size := by omega
  have hrest : (s.log.splice old delta).reach.rest places =
      (s.log.reach.cut places old).back.map (Place.flip · s.size) := by
    rw [← hsize']
    rfl
  rw [hrest]
  refine Eq.trans ?_ (congrArg (List.map (·.shift delta)) hcut)
  rw [Zipper.rest, List.map_map]
  refine List.map_congr_left fun a ha => ?_
  have hmem : a ∈ s.log.reach.back := List.mem_of_mem_drop ha
  have hwithin := h.back a hmem
  have hflip := @Place.flip_flip_shift _ s.size _ (Place.within_flip hwithin)
  rw [Place.flip_flip hwithin, ← hdelta] at hflip
  exact hflip

lemma State.Inv.splice (h : s.Inv r) (hreading : s.reading = true) (hheld : s.held = [])
    {old : ℕ} {delta : ℤ} (hplace : (s.place : ℤ) = old + delta)
    (hsize : (s.size : ℤ) = s.log.reach.size + delta) :
    State.Inv { s with log := s.log.splice old delta, reading := false }
      (r.apply (.splice old delta)) := by
  have hrest := h.rest_splice old hsize
  have hsize' : (s.log.splice old delta).reach.size = s.size := by
    have hnat : ((s.log.reach.size : ℤ) + delta).toNat = s.size := by omega
    exact hnat
  have hlt := h.size_lt
  have hle := h.place_le
  -- what starts from the place the reading took the tail back at on moves as it is
  have hwithin : ∀ a ∈ s.log.reach.rest places, a.start ≤ s.log.reach.size := by
    intro a ha
    obtain ⟨b, hb, rfl⟩ := List.mem_map.mp ha
    exact (Place.within_flip (h.back b hb)).1
  have hstart : ∀ a ∈ (s.log.reach.rest places).dropWhile fun a => a.start < old,
      ((a.shift delta).start : ℤ) = a.start + delta ∧ s.place ≤ (a.shift delta).start := by
    intro a ha
    have hold : old ≤ a.start := le_of_mem_dropWhile h.rest ha
    have hle' := hwithin a ((List.dropWhile_sublist _).subset ha)
    have hshift := @start_shift delta a (by omega) (by omega)
    exact ⟨hshift, by omega⟩
  constructor
  · exact ⟨h.known.furthest, h.known.inOrder⟩
  · exact h.placed
  · exact h.place_le
  · exact h.size_lt
  · intro a ha
    have hmem : a ∈ (s.log.reach.cut places old).back := ha
    have hcut : (s.log.reach.cut places old).rest places =
        (s.log.reach.rest places).dropWhile fun a => a.start < old :=
      Zipper.rest_cut (P := places) h.back h.rest old
    have hin : a.flip s.log.reach.size ∈
        (s.log.reach.rest places).dropWhile fun a => a.start < old := by
      rw [← hcut]
      exact List.mem_map.mpr ⟨a, hmem, rfl⟩
    have hwithin := h.back a (List.mem_of_mem_drop hmem)
    have hold := le_of_mem_dropWhile h.rest hin
    have hflip := Place.start_flip hwithin
    have hstart' := hwithin.1
    rw [hsize']
    refine ⟨?_, h.size_lt, hwithin.2.2⟩
    omega
  · rw [hrest]
    refine List.pairwise_map.mpr ?_
    have hordered := List.Pairwise.sublist (List.dropWhile_sublist fun a : Place => a.start < old)
      h.rest
    refine hordered.imp_of_mem fun {a b} ha hb hab => ?_
    obtain ⟨ha', -⟩ := hstart a ha
    obtain ⟨hb', -⟩ := hstart b hb
    omega
  · intro _
    exact Or.inr hsize'
  · intro _ a ha
    have ha' : a ∈ ((s.log.reach.rest places).dropWhile fun a => a.start < old).map
        (·.shift delta) := hrest ▸ ha
    obtain ⟨b, hb, rfl⟩ := List.mem_map.mp ha'
    exact (hstart b hb).2
  · have hold := filter_le_eq h.rest old
    rw [Readings.apply, h.notes, h.old hreading, hold]
    simp only [State.notesAt, hreading, if_true, List.take_length]
    rw [hrest, Multiset.add_zero]
    rfl
  · intro hfalse
    cases hfalse
  · intro count hcount
    rw [hheld] at hcount
    exact absurd hcount (by simp)
  · exact h.held
  · rw [Readings.apply, h.saved, hheld]
    rfl

lemma State.Inv.release (h : s.Inv r) (hreading : s.reading = true) (hheld : s.held = []) :
    State.Inv { s with log := s.log.release, reading := false } (r.apply .release) := by
  constructor
  · exact ⟨h.known.furthest, h.known.inOrder⟩
  · exact h.placed
  · exact h.place_le
  · exact h.size_lt
  · simp [Log.release]
  · exact List.Pairwise.nil
  · exact fun _ => Or.inl rfl
  · intro _ a ha
    exact absurd ha (by simp [Log.release, Zipper.rest])
  · rw [Readings.apply, h.notes, State.notesAt, State.notesAt, hreading]
    rfl
  · intro hfalse
    cases hfalse
  · intro count hcount
    rw [hheld] at hcount
    exact absurd hcount (by simp)
  · exact h.held
  · rw [Readings.apply, h.saved, hheld]
    rfl

/-- Growing the text, or reading on in it, leaves the log as it is. -/
lemma State.Inv.advance (h : s.Inv r) {size place : ℕ} (hreading : s.reading = true)
    (hle : s.place ≤ place) (hplace : place ≤ size) (hsize : size < 2 ^ 32) :
    State.Inv { s with size, place } r := by
  constructor
  · exact h.known
  · exact fun a ha => ⟨le_trans (h.placed a ha).1 hle, (h.placed a ha).2⟩
  · exact hplace
  · exact hsize
  · exact h.back
  · exact h.rest
  · intro hfalse
    rw [hreading] at hfalse
    cases hfalse
  · intro hfalse
    rw [hreading] at hfalse
    cases hfalse
  · exact h.notes
  · exact h.old
  · exact h.kept
  · exact h.held
  · exact h.saved

/-! ### Runs -/

/-- Each step of an edit keeps the readings. -/
theorem State.Inv.step (h : s.Inv r) {op : Op} (hstep : s.apply sorting op = some s') :
    s'.Inv (r.apply op) := by
  cases op with
  | feed size =>
    simp only [State.apply] at hstep
    split at hstep
    next hguard =>
      cases hstep
      exact h.advance hguard.1 (le_refl _) (le_trans h.place_le hguard.2.2.1) hguard.2.2.2
    next => cases hstep
  | read place =>
    simp only [State.apply] at hstep
    split at hstep
    next hguard =>
      cases hstep
      exact h.advance hguard.1 hguard.2.1 hguard.2.2 h.size_lt
    next => cases hstep
  | note start stop =>
    simp only [State.apply] at hstep
    split at hstep
    next hguard =>
      cases hstep
      exact h.note hguard
    next => cases hstep
  | hold =>
    cases hstep
    exact h.hold
  | restore =>
    simp only [State.apply] at hstep
    split at hstep
    next => cases hstep
    next count held hheld =>
      cases hstep
      exact h.restore hheld
  | sort room ends =>
    simp only [State.apply] at hstep
    split at hstep
    next hguard =>
      split at hstep
      next log hsort =>
        cases hstep
        exact (h.sort (Bool.not_eq_true _ ▸ hguard.1) hguard.2 hsort).1
      next => cases hstep
    next => cases hstep
  | keep start size =>
    simp only [State.apply] at hstep
    split at hstep
    next hguard =>
      obtain ⟨hreading, hheld, hin, hstart, hsize⟩ := hguard
      cases hstep
      exact h.keep (Bool.not_eq_true _ ▸ hreading) hheld hin hstart hsize
    next => cases hstep
  | splice old delta =>
    simp only [State.apply] at hstep
    split at hstep
    next hguard =>
      cases hstep
      exact h.splice hguard.1 hguard.2.1 hguard.2.2.1 hguard.2.2.2
    next => cases hstep
  | release =>
    simp only [State.apply] at hstep
    split at hstep
    next hguard =>
      cases hstep
      exact h.release hguard.1 hguard.2
    next => cases hstep

lemma State.Inv.run (h : s.Inv r) {ops : List Op} (hrun : s.run sorting ops = some s') :
    s'.Inv (ops.foldl Readings.apply r) := by
  induction ops generalizing s r with
  | nil =>
    cases hrun
    exact h
  | cons op ops ih =>
    obtain ⟨next, hstep, hrest⟩ := Option.bind_eq_some_iff.mp hrun
    exact ih (h.step hstep) hrest

/-- Sorting by insertion. -/
def Sorting.insertion : Sorting where
  sort := List.insertionSort fun a b => a.start ≤ b.start
  perm := List.perm_insertionSort _
  inOrder l := by
    have : IsTrans Place fun a b => a.start ≤ b.start := ⟨fun _ _ _ => le_trans⟩
    have : Std.Total fun a b : Place => a.start ≤ b.start := ⟨fun a b => le_total a.start b.start⟩
    exact List.pairwise_insertionSort _ l

/-- A parse, and an edit that reads from its place 10 and takes the old tail back from 14, moved by
two bytes. -/
def edit : List Op :=
  [.feed 30, .read 25, .note 9 11, .note 20 26, .note 5 8, .note 12 18, .release,
    .sort true true, .keep 10 32, .read 16, .hold, .note 10 30, .restore, .note 0 16,
    .splice 14 2]

end MarkdownCore.Reach
