import Mathlib.Data.List.Nodup

/-!
# Linked lists

A list is held by links between its entries: each entry's next and each entry's prior. An entry put
into the list, or taken from it, changes the links of its two neighbours alone. A search from any
entry, forward while a test holds or backward until it does, ends where the entries that pass the
test end, when those are the first of the list.
-/

namespace Links

variable {α : Type*} [DecidableEq α]

/-! ### Neighbours -/

/-- The entry after one. -/
@[grind =] def next : List α → α → Option α
  | [], _ => none
  | b :: l, a => if b = a then l.head? else next l a

/-- The entry before one. -/
def prior (l : List α) (a : α) : Option α := next l.reverse a

lemma next_append_of_notMem {l l' : List α} {a : α} (h : a ∉ l) : next (l ++ l') a = next l' a := by
  induction l with
  | nil => rfl
  | cons b l ih =>
    obtain ⟨hne, hl⟩ := not_or.mp (List.mem_cons.not.mp h)
    rw [List.cons_append, next, if_neg (Ne.symm hne), ih hl]

lemma prior_append_of_notMem {l l' : List α} {a : α} (h : a ∉ l') :
    prior (l ++ l') a = prior l a := by
  rw [prior, List.reverse_append, next_append_of_notMem (by rwa [List.mem_reverse]), prior]

lemma next_split {l l' : List α} {a : α} (h : a ∉ l) : next (l ++ a :: l') a = l'.head? := by
  rw [next_append_of_notMem h, next, if_pos rfl]

lemma prior_split {l l' : List α} {a : α} (h : a ∉ l') : prior (l ++ a :: l') a = l.getLast? := by
  rw [prior, List.reverse_append, List.reverse_cons, List.append_assoc, List.singleton_append,
    next_split (by rwa [List.mem_reverse]), List.head?_reverse]

/-- What follows the next entry of a list does not matter. -/
lemma next_append_left {l l' : List α} {a b : α} (h : a ∈ l) :
    next (l ++ b :: l') a = next (l ++ [b]) a := by
  induction l with
  | nil => cases h
  | cons c l ih =>
    rw [List.cons_append, List.cons_append, next, next]
    by_cases hc : c = a
    · rw [if_pos hc, if_pos hc]
      cases l with
      | nil => rfl
      | cons d l => rfl
    · rw [if_neg hc, if_neg hc, ih ((List.mem_cons.mp h).resolve_left (Ne.symm hc))]

lemma prior_append_right {l l' : List α} {a b : α} (h : a ∈ l') :
    prior (l ++ b :: l') a = prior (b :: l') a := by
  have hrev : (l ++ b :: l').reverse = l'.reverse ++ b :: l.reverse := by
    rw [List.reverse_append, List.reverse_cons, List.append_assoc, List.singleton_append]
  rw [prior, hrev, next_append_left (List.mem_reverse.mpr h), prior, List.reverse_cons]

/-- An entry put between two parts of a list. -/
lemma next_insert {l l' : List α} {a b : α} (h : (l ++ a :: l').Nodup) (hb : b ∈ l ++ l') :
    next (l ++ a :: l') b = if l.getLast? = some b then some a else next (l ++ l') b := by
  induction l with
  | nil =>
    have hne : a ≠ b := by
      rintro rfl
      exact (List.nodup_cons.mp h).1 hb
    rw [List.nil_append, next, if_neg hne]
    rfl
  | cons c l ih =>
    rw [List.cons_append, List.nodup_cons] at h
    by_cases hc : c = b
    · subst hc
      rw [List.cons_append, next, if_pos rfl, List.cons_append, next, if_pos rfl]
      cases l with
      | nil => exact (if_pos rfl).symm
      | cons d l =>
        have hlast : (c :: d :: l).getLast? ≠ some c := by
          intro heq
          rw [List.getLast?_cons_cons] at heq
          exact h.1 (List.mem_append_left _ (List.mem_of_getLast? heq))
        rw [if_neg hlast]
        rfl
    · have hb : b ∈ l ++ l' := by
        rw [List.cons_append] at hb
        exact (List.mem_cons.mp hb).resolve_left (Ne.symm hc)
      rw [List.cons_append, next, if_neg hc, ih h.2 hb, List.cons_append, next, if_neg hc]
      cases l with
      | nil => simp [hc]
      | cons d l => rw [List.getLast?_cons_cons]

lemma prior_insert {l l' : List α} {a b : α} (h : (l ++ a :: l').Nodup) (hb : b ∈ l ++ l') :
    prior (l ++ a :: l') b = if l'.head? = some b then some a else prior (l ++ l') b := by
  have hrev : (l ++ a :: l').reverse = l'.reverse ++ a :: l.reverse := by
    rw [List.reverse_append, List.reverse_cons, List.append_assoc, List.singleton_append]
  have hnodup : (l'.reverse ++ a :: l.reverse).Nodup := by
    rw [← hrev]
    exact List.nodup_reverse.mpr h
  have hmem : b ∈ l'.reverse ++ l.reverse := by
    rw [← List.reverse_append, List.mem_reverse]
    exact hb
  rw [prior, hrev, next_insert hnodup hmem, List.getLast?_reverse, prior, List.reverse_append]

/-- An entry taken from between two parts of a list. -/
lemma next_erase {l l' : List α} {a b : α} (h : (l ++ a :: l').Nodup) (hb : b ∈ l ++ l') :
    next (l ++ l') b = if l.getLast? = some b then l'.head? else next (l ++ a :: l') b := by
  rw [next_insert h hb]
  split
  next hlast =>
    obtain ⟨ys, rfl⟩ := List.getLast?_eq_some_iff.mp hlast
    rw [List.append_assoc, List.singleton_append] at h ⊢
    refine next_split fun hin => ?_
    exact (List.nodup_append.mp h).2.2 b hin b List.mem_cons_self rfl
  next => rfl

lemma prior_erase {l l' : List α} {a b : α} (h : (l ++ a :: l').Nodup) (hb : b ∈ l ++ l') :
    prior (l ++ l') b = if l'.head? = some b then l.getLast? else prior (l ++ a :: l') b := by
  rw [prior_insert h hb]
  split
  next hhead =>
    obtain ⟨ys, rfl⟩ := List.head?_eq_some_iff.mp hhead
    refine prior_split fun hin => ?_
    have hnodup := (List.nodup_append.mp h).2.1
    exact (List.nodup_cons.mp (List.nodup_cons.mp hnodup).2).1 hin
  next => rfl

lemma prior_eq_none_iff {l : List α} {a : α} (h : l.Nodup) (ha : a ∈ l) :
    prior l a = none ↔ l.head? = some a := by
  obtain ⟨before, after, rfl⟩ := List.append_of_mem ha
  have hafter : a ∉ after := (List.nodup_cons.mp (List.nodup_append.mp h).2.1).1
  rw [prior_split hafter, List.getLast?_eq_none_iff]
  cases before with
  | nil => simp
  | cons b before =>
    have hne : b ≠ a := by
      rintro rfl
      exact (List.nodup_cons.mp h).1 (List.mem_append_right _ List.mem_cons_self)
    simp [hne]

/-- One entry put in the place of those between two. -/
lemma next_between {before l after : List α} {a b c d : α}
    (h : (before ++ a :: (l ++ c :: after)).Nodup) (hb : b ∉ before ++ a :: (l ++ c :: after))
    (hd : d ∈ before ++ a :: b :: c :: after) :
    next (before ++ a :: b :: c :: after) d =
      if d = a then some b
      else if d = b then some c
      else next (before ++ a :: (l ++ c :: after)) d := by
  simp only [List.mem_append, List.mem_cons, not_or] at hb
  induction before with
  | nil =>
    rw [List.nil_append, List.nodup_cons, List.mem_append, List.mem_cons] at h
    rw [List.nil_append, next]
    by_cases hda : d = a
    · rw [if_pos hda.symm, if_pos hda]
      rfl
    · rw [if_neg (Ne.symm hda), if_neg hda, next]
      by_cases hdb : d = b
      · rw [if_pos hdb.symm, if_pos hdb]
        rfl
      · have hdl : d ∉ l := by
          intro hin
          have hcases : d = c ∨ d ∈ after := by simpa [hda, hdb] using hd
          obtain ⟨-, -, hapart⟩ := List.nodup_append.mp h.2
          exact hapart d hin d (List.mem_cons.mpr hcases) rfl
        have hright : next (a :: (l ++ c :: after)) d = next (c :: after) d := by
          rw [next, if_neg (Ne.symm hda), next_append_of_notMem hdl]
        rw [if_neg (Ne.symm hdb), if_neg hdb, List.nil_append, hright]
  | cons e before ih =>
    rw [List.cons_append, List.nodup_cons] at h
    rw [List.cons_append, next, List.cons_append, next]
    by_cases hde : d = e
    · subst hde
      have hda : d ≠ a := by
        rintro rfl
        exact h.1 (by simp)
      have hdb : d ≠ b := by
        rintro rfl
        exact hb.1 (by simp)
      rw [if_pos rfl, if_neg hda, if_neg hdb, if_pos rfl]
      cases before with
      | nil => rfl
      | cons x before => rfl
    · have hd' : d ∈ before ++ a :: b :: c :: after := by
        rw [List.cons_append] at hd
        exact (List.mem_cons.mp hd).resolve_left hde
      have hb' : b ∉ before := fun hin => hb.1 (List.mem_cons_of_mem e hin)
      rw [if_neg (Ne.symm hde), if_neg (Ne.symm hde)]
      exact ih h.2 hd' ⟨hb', hb.2⟩

lemma prior_between {before l after : List α} {a b c d : α}
    (h : (before ++ a :: (l ++ c :: after)).Nodup) (hb : b ∉ before ++ a :: (l ++ c :: after))
    (hd : d ∈ before ++ a :: b :: c :: after) :
    prior (before ++ a :: b :: c :: after) d =
      if d = c then some b
      else if d = b then some a
      else prior (before ++ a :: (l ++ c :: after)) d := by
  have hrev : (before ++ a :: (l ++ c :: after)).reverse =
      after.reverse ++ c :: (l.reverse ++ a :: before.reverse) := by simp
  have hrev' : (before ++ a :: b :: c :: after).reverse =
      after.reverse ++ c :: b :: a :: before.reverse := by simp
  rw [prior, hrev', prior, hrev]
  refine next_between ?_ ?_ ?_
  · rw [← hrev]
    exact List.nodup_reverse.mpr h
  · rw [← hrev, List.mem_reverse]
    exact hb
  · rw [← hrev', List.mem_reverse]
    exact hd

/-- The first entry and what follows each name one list. -/
lemma eq_of_next {l l' : List α} {link : α → Option α} (h : l.Nodup) (h' : l'.Nodup)
    (hhead : l.head? = l'.head?) (hlink : ∀ a ∈ l, link a = next l a)
    (hlink' : ∀ a ∈ l', link a = next l' a) : l = l' := by
  induction l generalizing l' with
  | nil => exact (List.head?_eq_none_iff.mp hhead.symm).symm
  | cons a l ih =>
    obtain ⟨rest, rfl⟩ := List.head?_eq_some_iff.mp hhead.symm
    have hfirst := (hlink a List.mem_cons_self).symm.trans (hlink' a List.mem_cons_self)
    rw [next, if_pos rfl, next, if_pos rfl] at hfirst
    rw [List.nodup_cons] at h h'
    rw [ih h.2 h'.2 hfirst ?_ ?_]
    · intro b hb
      rw [hlink b (List.mem_cons_of_mem _ hb), next, if_neg (ne_of_mem_of_not_mem hb h.1).symm]
    · intro b hb
      rw [hlink' b (List.mem_cons_of_mem _ hb), next, if_neg (ne_of_mem_of_not_mem hb h'.1).symm]

/-! ### Searches -/

section

variable (link : α → Option α) (p : α → Bool)

/-- On from an entry while the next passes. -/
def forward : ℕ → α → α
  | 0, a => a
  | fuel + 1, a =>
    match link a with
    | some b => if p b then forward fuel b else a
    | none => a

/-- Back from an entry until one passes. -/
def backward : ℕ → Option α → Option α
  | 0, a => a
  | _ + 1, none => none
  | fuel + 1, some a => if p a then some a else backward fuel (link a)

end

variable {link : α → Option α} {p : α → Bool}

lemma forward_eq {l l' l'' : List α} {a : α} {fuel : ℕ} (h : (l ++ a :: (l' ++ l'')).Nodup)
    (hlink : ∀ b ∈ l ++ a :: (l' ++ l''), link b = next (l ++ a :: (l' ++ l'')) b)
    (hpass : ∀ b ∈ l', p b = true) (hstop : ∀ b ∈ l''.head?, p b = false)
    (hfuel : l'.length < fuel) : some (forward link p fuel a) = (a :: l').getLast? := by
  induction fuel generalizing l a l' with
  | zero => cases hfuel
  | succ fuel ih =>
    have ha : a ∉ l := fun hin =>
      (List.nodup_append.mp h).2.2 a hin a List.mem_cons_self rfl
    have hnext : link a = (l' ++ l'').head? := by
      rw [hlink a (List.mem_append_right _ List.mem_cons_self), next_split ha]
    rw [forward, hnext]
    cases l' with
    | nil =>
      rw [List.nil_append]
      cases hl : l''.head? with
      | none => rfl
      | some b =>
        dsimp only
        rw [if_neg (by rw [hstop b hl]; exact Bool.false_ne_true)]
        rfl
    | cons b l' =>
      dsimp only [List.cons_append, List.head?_cons]
      rw [if_pos (hpass b List.mem_cons_self), List.getLast?_cons_cons]
      have heq : l ++ a :: (b :: l' ++ l'') = (l ++ [a]) ++ b :: (l' ++ l'') := by
        rw [List.append_assoc, List.singleton_append, List.cons_append]
      rw [heq] at h hlink
      exact ih h hlink (fun c hc => hpass c (List.mem_cons_of_mem _ hc))
        (Nat.lt_of_succ_lt_succ hfuel)

lemma backward_eq {l l' l'' : List α} {fuel : ℕ} (h : (l ++ l' ++ l'').Nodup)
    (hlink : ∀ b ∈ l ++ l' ++ l'', link b = prior (l ++ l' ++ l'') b)
    (hstop : ∀ b ∈ l.getLast?, p b = true) (hpass : ∀ b ∈ l', p b = false)
    (hfuel : l'.length < fuel) : backward link p fuel (l ++ l').getLast? = l.getLast? := by
  induction fuel generalizing l' l'' with
  | zero => cases hfuel
  | succ fuel ih =>
    rcases l'.eq_nil_or_concat with rfl | ⟨l', b, rfl⟩
    · rw [List.append_nil]
      cases hl : l.getLast? with
      | none => rfl
      | some b => exact if_pos (hstop b hl)
    · rw [List.concat_eq_append] at h hlink hpass hfuel ⊢
      have heq : l ++ (l' ++ [b]) ++ l'' = l ++ l' ++ b :: l'' := by
        simp only [List.append_assoc, List.singleton_append]
      rw [heq] at h hlink
      have hb : b ∉ l'' := (List.nodup_cons.mp (List.nodup_append.mp h).2.1).1
      have hprior : link b = (l ++ l').getLast? := by
        rw [hlink b (List.mem_append_right _ List.mem_cons_self), prior_split hb]
      rw [← List.append_assoc, List.getLast?_concat, backward,
        if_neg (by rw [hpass b (by simp)]; exact Bool.false_ne_true), hprior]
      refine ih h hlink (fun c hc => hpass c (List.mem_append_left _ hc)) ?_
      rw [List.length_append] at hfuel
      exact Nat.lt_of_succ_lt_succ hfuel

/-- A search from any entry ends at the last that passes, where those that do come first. -/
theorem search_eq {after before : α → Option α} (l l' : List α) {a : α} {fuel : ℕ}
    (h : (l ++ l').Nodup) (hafter : ∀ b ∈ l ++ l', after b = next (l ++ l') b)
    (hbefore : ∀ b ∈ l ++ l', before b = prior (l ++ l') b) (hpass : ∀ b ∈ l, p b = true)
    (hfail : ∀ b ∈ l', p b = false) (ha : a ∈ l ++ l') (hfuel : (l ++ l').length < fuel) :
    (if p a then some (forward after p fuel a) else backward before p fuel (some a)) =
      l.getLast? := by
  rw [List.length_append] at hfuel
  rcases List.mem_append.mp ha with ha | ha
  · rw [if_pos (hpass a ha)]
    obtain ⟨first, rest, rfl⟩ := List.append_of_mem ha
    rw [List.append_assoc, List.cons_append] at h hafter
    rw [forward_eq h hafter (fun b hb => hpass b (by simp [hb])) ?_ ?_]
    · rw [List.getLast?_append_of_ne_nil _ (List.cons_ne_nil _ _)]
    · intro b hb
      exact hfail b (List.mem_of_mem_head? hb)
    · rw [List.length_append, List.length_cons] at hfuel
      omega
  · rw [if_neg (by rw [hfail a ha]; exact Bool.false_ne_true)]
    obtain ⟨first, rest, rfl⟩ := List.append_of_mem ha
    have heq : l ++ (first ++ a :: rest) = l ++ (first ++ [a]) ++ rest := by
      simp only [List.append_assoc, List.singleton_append]
    have hlast : (l ++ (first ++ [a])).getLast? = some a := by
      rw [← List.append_assoc, List.getLast?_concat]
    rw [heq] at h hbefore
    rw [← hlast]
    refine backward_eq h hbefore (fun b hb => hpass b (List.mem_of_getLast? hb)) ?_ ?_
    · intro b hb
      refine hfail b ?_
      rcases List.mem_append.mp hb with hb | hb
      · exact List.mem_append_left _ hb
      · rw [List.mem_singleton.mp hb]
        exact ha
    · rw [List.length_append, List.length_cons] at hfuel
      rw [List.length_append, List.length_singleton]
      omega

end Links
