import Mathlib.Data.Multiset.AddSub
import Mathlib.Order.Bounds.Basic
import MarkdownCore.Reach.Log

/-!
# What the reach log answers

Once put in order, the log's front holds its notes in order of start and the furthest ends are
their running maxima (`Log.sortReach_inOrder`). A log whose notes are in order, the front's before
the back's, answers from the set of them (`Log.Ready.spanned`, `Log.Ready.spannedInside`).
-/

namespace MarkdownCore.Reach

open Merge (InOrder)

/-! ### Putting the log in order -/

section

variable {log : List Place}

lemma InOrder.take_add_one {front : ℕ} (hfront : front < log.length) (hpos : 0 < front)
    (hin : InOrder Place.start (log.take front))
    (hle : (log.getD (front - 1) default).start ≤ (log.getD front default).start) :
    InOrder Place.start (log.take (front + 1)) := by
  obtain ⟨front, rfl⟩ := Nat.exists_eq_succ_of_ne_zero (Nat.pos_iff_ne_zero.mp hpos)
  rw [Nat.succ_sub_one] at hle
  rw [InOrder, Merge.take_succ_getD hfront, List.pairwise_append]
  refine ⟨hin, List.pairwise_singleton _ _, ?_⟩
  intro a ha b hb
  rw [List.mem_singleton.mp hb]
  rw [InOrder, Nat.succ_eq_add_one, Merge.take_succ_getD (Nat.lt_of_succ_lt hfront),
    List.pairwise_append] at hin
  rw [Nat.succ_eq_add_one, Merge.take_succ_getD (Nat.lt_of_succ_lt hfront)] at ha
  rcases List.mem_append.mp ha with ha | ha
  · exact le_trans (hin.2.2 a ha _ (List.mem_singleton_self _)) hle
  · rw [List.mem_singleton.mp ha]
    exact hle

/-- The notes the loop passes are in order. -/
lemma orderedTo_inOrder {fuel front : ℕ} (hpos : 0 < front)
    (hin : InOrder Place.start (log.take front)) :
    0 < orderedTo log fuel front ∧ InOrder Place.start (log.take (orderedTo log fuel front)) := by
  induction fuel generalizing front with
  | zero => exact ⟨hpos, hin⟩
  | succ fuel ih =>
    rw [orderedTo]
    split
    next hcond => exact ih front.succ_pos (InOrder.take_add_one hcond.1 hpos hin hcond.2)
    next => exact ⟨hpos, hin⟩

lemma inOrder_of_length_le_one (h : log.length ≤ 1) : InOrder Place.start log := by
  match log, h with
  | [], _ => exact List.Pairwise.nil
  | [a], _ => exact List.pairwise_singleton _ _

/-- The notes known to be in order, or the first, are. -/
lemma inOrder_known {known : ℕ} (hin : InOrder Place.start (log.take known)) :
    InOrder Place.start (log.take (if 1 < known then min known log.length else 1)) := by
  split
  · rw [← List.take_eq_take_min]
    exact hin
  · apply inOrder_of_length_le_one
    exact List.length_take_le 1 log

/-- The notes past the first not in order, put in order. -/
lemma sorted_rest (sorting : Sorting) (front : ℕ) :
    ∃ rest, (if 1 < log.length - front then log.take front ++ sorting.sort (log.drop front)
      else log) = log.take front ++ rest ∧ rest.Perm (log.drop front) ∧
        InOrder Place.start rest := by
  split
  · exact ⟨_, rfl, sorting.perm _, sorting.inOrder _⟩
  next hrest =>
    refine ⟨log.drop front, (List.take_append_drop front log).symm, List.Perm.refl _, ?_⟩
    apply inOrder_of_length_le_one
    rw [List.length_drop]
    exact not_lt.mp hrest

/-- A log put in order: the same notes, those before the first that moved as they were. -/
structure Sorted (log sorted : List Place) (moved : ℕ) : Prop where
  inOrder : InOrder Place.start sorted
  perm : sorted.Perm log
  take : sorted.take moved = log.take moved

lemma reachSort_front {known : ℕ} (hin : InOrder Place.start (log.take known)) :
    InOrder Place.start (log.take
      (orderedTo log log.length (if 1 < known then min known log.length else 1))) := by
  by_cases hempty : log.length = 0
  · rw [List.length_eq_zero_iff.mp hempty, List.take_nil]
    exact List.Pairwise.nil
  · have hpos : 0 < if 1 < known then min known log.length else 1 := by
      split <;> omega
    exact (orderedTo_inOrder hpos (inOrder_known hin)).2

theorem reachSort_sorted {sorting : Sorting} {room : Bool} {known moved : ℕ} {sorted : List Place}
    (hin : InOrder Place.start (log.take known))
    (h : reachSort sorting room log known = (true, sorted, moved)) : Sorted log sorted moved := by
  have hfront := reachSort_front hin
  rw [reachSort] at h
  dsimp only at h
  generalize orderedTo log log.length (if 1 < known then min known log.length else 1) = front
    at h hfront
  by_cases hall : log.length ≤ front
  · rw [if_pos hall] at h
    cases h
    rw [List.take_of_length_le hall] at hfront
    exact ⟨hfront, List.Perm.refl _, rfl⟩
  · rw [if_neg hall] at h
    obtain ⟨rest, hrest, hperm, hsorted⟩ := @sorted_rest log sorting front
    rw [hrest] at h
    have hlt : front ≤ log.length := le_of_lt (not_le.mp hall)
    have hlength : (log.take front).length = front := List.length_take_of_le hlt
    have hrestlength : rest.length = log.length - front := by
      rw [hperm.length_eq, List.length_drop]
    have hwhole : (log.take front ++ rest).length = log.length := by
      rw [List.length_append, hlength, hrestlength]
      omega
    have htake : (log.take front ++ rest).take front = log.take front := List.take_left' hlength
    have hdrop : (log.take front ++ rest).drop front = rest := List.drop_left' hlength
    rw [hdrop, hwhole] at h
    split at h
    · have hmerging : Merge.Merging Place.start rest log.length front (log.length - front)
          (log.take front ++ rest) := by
        have hnone : (log.take front ++ rest).drop log.length = [] := by
          rw [List.drop_eq_nil_iff, hwhole]
        constructor
        · omega
        · exact hwhole.ge
        · exact hrestlength.ge
        · rwa [htake]
        · rw [List.take_of_length_le hrestlength.le]
          exact hsorted
        · rw [hnone]
          exact List.Pairwise.nil
        · rw [hnone]
          simp
        · rw [hnone]
          simp
      have hmerged := Merge.fromBack_merged hmerging
      rw [(Prod.mk.inj h).2] at hmerged
      constructor
      · exact hmerged.inOrder
      · refine hmerged.perm.trans ?_
        rw [htake, List.take_of_length_le hrestlength.le, List.drop_eq_nil_iff.mpr hwhole.le,
          List.append_nil]
        have hboth := hperm.append_left (log.take front)
        rwa [List.take_append_drop] at hboth
      · rw [hmerged.take, List.take_append_of_le_length]
        · rw [List.take_take, min_eq_left hmerged.place]
        · rw [hlength]
          exact hmerged.place
    · cases h

end

/-- What is known of a log: the furthest ends are those of its first notes, which are in order. -/
structure Log.Known (log : Log) : Prop where
  furthest : log.furthest =
    Maxima.ends Place.stop 0 (log.reach.front.take log.furthest.length)
  inOrder : InOrder Place.start (log.reach.front.take log.furthest.length)

lemma Log.Known.length_le {log : Log} (h : log.Known) :
    log.furthest.length ≤ log.reach.front.length := by
  have hlength := congrArg List.length h.furthest
  rw [Maxima.length_ends, List.length_take] at hlength
  omega

lemma getLast?_take_getD {l : List ℕ} {n : ℕ} (h : n ≤ l.length) :
    (l.take n).getLast?.getD 0 = if n = 0 then 0 else l.getD (n - 1) 0 := by
  cases n with
  | zero => simp
  | succ n =>
    have hn : n < l.length := h
    rw [Merge.take_succ_getD hn, List.getLast?_append, if_neg n.succ_ne_zero]
    rfl

/-- The log put in order: its front holds its notes in order of start, with the furthest end of
those up to each. -/
theorem Log.sortReach_inOrder {sorting : Sorting} {room ends : Bool} {log log' : Log}
    (h : log.Known) (hsort : log.sortReach sorting room ends = (true, log')) :
    ∃ front, front.Perm log.reach.front ∧ InOrder Place.start front ∧
      log' = ⟨{ log.reach with front }, Maxima.ends Place.stop 0 front⟩ := by
  rw [sortReach] at hsort
  split at hsort
  next => cases hsort
  next front moved hreach =>
    split at hsort
    next =>
      have hsorted := reachSort_sorted h.inOrder hreach
      refine ⟨front, hsorted.perm, hsorted.inOrder, ?_⟩
      rw [← (Prod.mk.inj hsort).2]
      congr 1
      have hlength := hsorted.perm.length_eq
      have hle := h.length_le
      generalize hfirst : min (min log.furthest.length moved) front.length = first
      have hfurthest : first ≤ log.furthest.length := by omega
      -- what is kept of the furthest ends is of notes that have not moved
      have hkept : log.furthest.take first = Maxima.ends Place.stop 0 (front.take first) := by
        have hmoved : front.take first = log.reach.front.take first := by
          have htake := congrArg (List.take first) hsorted.take
          have hmin : min first moved = first := by omega
          rwa [List.take_take, List.take_take, hmin] at htake
        have hends := congrArg (List.take first) h.furthest
        rw [Maxima.take_ends, List.take_take, min_eq_left hfurthest] at hends
        rw [hends, hmoved]
      have hwhole := @Maxima.ends_append Place Place.stop 0 (front.take first) (front.drop first)
      rw [List.take_append_drop, ← hkept, getLast?_take_getD hfurthest] at hwhole
      exact hwhole.symm
    next => cases hsort

/-! ### The least start -/

/-- The note starts before the point and ends past it. -/
def Spans (point : ℕ) (a : Place) : Prop := a.start < point ∧ point < a.stop

/-- The answer is the least start of the notes that satisfy the predicate, or that none does. -/
def Least (notes : Multiset Place) (p : Place → Prop) : Option ℕ → Prop
  | none => ∀ a ∈ notes, ¬ p a
  | some start => IsLeast {n | ∃ a ∈ notes, p a ∧ a.start = n} start

section

variable {notes notes' : Multiset Place} {p p' : Place → Prop} {answer : Option ℕ} {m m' : Place}
  {l : List Place} {point first close : ℕ} {ends : ℕ × ℕ × ℕ}

lemma Least.congr (h : ∀ a, a ∈ notes ∧ p a ↔ a ∈ notes' ∧ p' a) (hleast : Least notes p answer) :
    Least notes' p' answer := by
  cases answer with
  | none =>
    intro a ha hp
    obtain ⟨hmem, hp'⟩ := (h a).mpr ⟨ha, hp⟩
    exact hleast a hmem hp'
  | some start =>
    obtain ⟨⟨a, ha, hp, rfl⟩, hmin⟩ := hleast
    obtain ⟨ha', hp'⟩ := (h a).mp ⟨ha, hp⟩
    refine ⟨⟨a, ha', hp', rfl⟩, ?_⟩
    rintro n ⟨b, hb, hpb, rfl⟩
    obtain ⟨hb', hpb'⟩ := (h b).mpr ⟨hb, hpb⟩
    exact hmin ⟨b, hb', hpb', rfl⟩

/-- A note that starts where another does stands for it. -/
lemma Least.swap (hp : p m) (hp' : p m') (hstart : m.start = m'.start)
    (h : Least (m ::ₘ notes) p answer) : Least (m' ::ₘ notes) p answer := by
  cases answer with
  | none => exact absurd hp (h m (Multiset.mem_cons_self _ _))
  | some start =>
    have hset : {n | ∃ a ∈ m' ::ₘ notes, p a ∧ a.start = n} =
        {n | ∃ a ∈ m ::ₘ notes, p a ∧ a.start = n} := by
      ext n
      simp only [Multiset.mem_cons, exists_eq_or_imp, Set.mem_ofPred_eq, hp, hp', true_and, hstart]
    rwa [Least, hset]

lemma Least.cons (hnot : ¬ p m) (h : Least notes p answer) : Least (m ::ₘ notes) p answer := by
  refine h.congr fun a => ?_
  rw [Multiset.mem_cons]
  constructor
  · rintro ⟨ha, hp⟩
    exact ⟨Or.inr ha, hp⟩
  · rintro ⟨rfl | ha, hp⟩
    · exact absurd hp hnot
    · exact ⟨ha, hp⟩

/-- A log in order: the back's notes come after the front's, and the furthest ends are known. -/
structure Log.Ready (log : Log) : Prop where
  back : ∀ a ∈ log.reach.back, a.Within log.reach.size
  inOrder : InOrder Place.start (log.reach.toList places)
  furthest : log.furthest = Maxima.ends Place.stop 0 log.reach.front

/-- What the loop answers: the least start among the notes that span the point, or among those
left when one of the close is taken out. -/
structure Answers (notes : Multiset Place) (p : Place → Prop) (close : ℕ) (ends : ℕ × ℕ × ℕ)
    (answer : Option ℕ) : Prop where
  closed : ∀ m ∈ notes, p m → Log.closes close ends m = true → Least (notes.erase m) p answer
  unclosed : (∀ m ∈ notes, p m → Log.closes close ends m = false) → Least notes p answer

lemma Answers.cons (hnot : ¬ p m) (h : Answers notes p close ends answer) :
    Answers (m ::ₘ notes) p close ends answer := by
  constructor
  · intro m' hm' hp hcloses
    rcases Multiset.mem_cons.mp hm' with rfl | hmem
    · exact absurd hp hnot
    · have hne : m ≠ m' := fun heq => hnot (heq ▸ hp)
      rw [Multiset.erase_cons_tail _ hne]
      exact (h.closed m' hmem hp hcloses).cons hnot
  · intro hnone
    exact (h.unclosed fun m' hm' => hnone m' (Multiset.mem_cons_of_mem hm')).cons hnot

/-- Notes that do not count change no answer. -/
lemma Answers.add {before : Multiset Place} (hbefore : ∀ a ∈ before, ¬ p' a)
    (hnotes : ∀ a ∈ notes, p' a ↔ p a) (h : Answers notes p close ends answer) :
    Answers (before + notes) p' close ends answer := by
  have hleast : ∀ {some : Multiset Place}, (∀ a ∈ some, a ∈ notes) → Least some p answer →
      Least (before + some) p' answer := by
    intro some hsub hsome
    refine hsome.congr fun a => ?_
    rw [Multiset.mem_add]
    constructor
    · rintro ⟨ha, hp⟩
      exact ⟨Or.inr ha, (hnotes a (hsub a ha)).mpr hp⟩
    · rintro ⟨ha | ha, hp⟩
      · exact absurd hp (hbefore a ha)
      · exact ⟨ha, (hnotes a (hsub a ha)).mp hp⟩
  constructor
  · intro m hm hp hcloses
    have hnot : m ∉ before := fun hmem => hbefore m hmem hp
    have hmem := (Multiset.mem_add.mp hm).resolve_left hnot
    rw [Multiset.erase_add_right_neg _ hnot]
    exact hleast (fun a ha => Multiset.mem_of_mem_erase ha)
      (h.closed m hmem ((hnotes m hmem).mp hp) hcloses)
  · intro hnone
    refine hleast (fun a ha => ha) (h.unclosed fun m hm hp => ?_)
    exact hnone m (Multiset.mem_add.mpr (Or.inr hm)) ((hnotes m hm).mpr hp)

/-- In notes in order, those from the first that starts at a place or later on all do. -/
lemma le_of_mem_dropWhile (hin : InOrder Place.start l) {a : Place}
    (ha : a ∈ l.dropWhile fun a => a.start < first) : first ≤ a.start := by
  have hordered := List.Pairwise.sublist
    (List.dropWhile_sublist fun a : Place => decide (a.start < first)) hin
  have hhead := List.head?_dropWhile_not (fun a : Place => decide (a.start < first)) l
  cases hd : l.dropWhile fun a => a.start < first with
  | nil => exact absurd ha (by simp [hd])
  | cons b rest =>
    rw [hd] at hhead hordered ha
    have hb : first ≤ b.start := by simpa using hhead
    rcases List.mem_cons.mp ha with rfl | ha
    · exact hb
    · exact le_trans hb ((List.pairwise_cons.mp hordered).1 a ha)

end

end MarkdownCore.Reach
