import MarkdownCore.Library.Bisect

/-!
# Zippers over a text

Entries in order of where they start in a text, held in two parts about a focus. Each place in the
front is where it is in the text; each place in the back is measured from the text's end, so that
a change before the back moves none of it. Moving the focus moves only the entries between where
it was and where it goes.

What the zipper holds is `Zipper.toList`, and a move of the focus keeps it (`Zipper.toList_move`).
-/

/-- How an entry holds places: where it starts, and the entry with each place measured from the
other end of a text. -/
structure Places (α : Type*) where
  start : α → ℕ
  flip : α → ℕ → α
  /-- Every place the entry holds lies in a text of this size. -/
  Within : ℕ → α → Prop
  start_le : ∀ {n a}, Within n a → start a ≤ n
  start_flip : ∀ {n a}, Within n a → start (flip a n) = n - start a
  flip_flip : ∀ {n a}, Within n a → flip (flip a n) n = a
  within_flip : ∀ {n a}, Within n a → Within n (flip a n)

/-- Entries about a focus; the back's are listed from the focus on. -/
structure Zipper (α : Type*) where
  front : List α
  back : List α
  /-- The size of the text the back is measured in. -/
  size : ℕ

namespace Zipper

variable {α : Type*} (P : Places α) (z : Zipper α)

/-- The back's entries, in the text's terms. -/
def rest : List α := z.back.map fun a => P.flip a z.size

def toList : List α := z.front ++ z.rest P

def count : ℕ := z.front.length + z.back.length

/-- Where the entry at `k` of the back starts. -/
def backStart (k : ℕ) : Option ℕ := z.back[k]?.map fun a => z.size - P.start a

/-- Where the entry at `index` starts. -/
def startAt (index : ℕ) : Option ℕ :=
  if index < z.front.length then z.front[index]?.map P.start
  else z.backStart P (index - z.front.length)

/-- The first of the back's entries, from the focus, that starts at or past `place`. -/
def backFrom (place : ℕ) : ℕ :=
  Bisect.bisect (fun k => (z.back[k]?).any fun a => z.size - P.start a < place)
    z.back.length 0 z.back.length

/-- The first of the front's entries that starts at or past `place`. -/
def frontFrom (place : ℕ) : ℕ :=
  Bisect.bisect (fun k => (z.front[k]?).any fun a => P.start a < place)
    z.front.length 0 z.front.length

/-- The first entry that starts at or past `place`, or the count. -/
def entryFrom (place : ℕ) : ℕ :=
  if (z.backStart P 0).any (· < place) then z.front.length + z.backFrom P place
  else z.frontFrom P place

/-- The front's entries from `first` on go. -/
def truncate (first : ℕ) : Zipper α := { z with front := z.front.take first }

/-- The back's first `gone` entries go. -/
def leave (gone : ℕ) : Zipper α := { z with back := z.back.drop gone }

/-- The back's entries that start before `place` go. -/
def cut (place : ℕ) : Zipper α := z.leave (z.backFrom P place)

/-- An entry put in the front at an index. -/
def insert (index : ℕ) (a : α) : Zipper α :=
  { z with front := z.front.take index ++ a :: z.front.drop index }

/-- The front's entry at an index goes. -/
def erase (index : ℕ) : Zipper α := { z with front := z.front.eraseIdx index }

/-- The back measured in a text of another size. -/
def resize (size : ℕ) : Zipper α := { z with size }

/-- Move the focus to `place` of a text of `size` bytes. -/
def move (place size : ℕ) : Zipper α :=
  let first := frontFrom P (z.resize size) place
  let taken := backFrom P (z.resize size) place
  let back := (z.front.drop first).map (P.flip · size) ++ z.back
  { front := z.front.take first ++ (back.take taken).map (P.flip · size)
    back := back.drop taken
    size }

/-! ### What the zipper holds -/

/-- Every place an entry of the zipper holds lies in the text, and the entries are in order of
where they start. -/
structure Ok : Prop where
  front : ∀ a ∈ z.front, P.Within z.size a
  back : ∀ a ∈ z.back, P.Within z.size a
  ordered : (z.toList P).Pairwise fun a b => P.start a ≤ P.start b

variable {P z}

@[simp] lemma length_rest : (z.rest P).length = z.back.length := List.length_map _

@[simp] lemma length_toList : (z.toList P).length = z.count := by simp [toList, count]

lemma Ok.within_rest (h : z.Ok P) {a : α} (ha : a ∈ z.rest P) : P.Within z.size a := by
  obtain ⟨b, hb, rfl⟩ := List.mem_map.mp ha
  exact P.within_flip (h.back b hb)

lemma Ok.within (h : z.Ok P) {a : α} (ha : a ∈ z.toList P) : P.Within z.size a := by
  rcases List.mem_append.mp ha with ha | ha
  · exact h.front a ha
  · exact h.within_rest ha

/-- The back is the rest of the zipper's entries, measured from the text's end. -/
lemma Ok.back_eq (h : z.Ok P) : z.back = (z.rest P).map fun a => P.flip a z.size := by
  rw [rest, List.map_map]
  refine (List.map_id z.back).symm.trans (List.map_congr_left fun a ha => ?_)
  exact (P.flip_flip (h.back a ha)).symm

/-- A zipper is what it holds, divided at its focus. -/
lemma Ok.of_toList {l : List α} {size n : ℕ} (hl : ∀ a ∈ l, P.Within size a)
    (hordered : l.Pairwise fun a b => P.start a ≤ P.start b)
    (hz : z = ⟨l.take n, (l.drop n).map (P.flip · size), size⟩) :
    z.Ok P ∧ z.toList P = l ∧ z.rest P = l.drop n := by
  subst hz
  have hrest : rest P ⟨l.take n, (l.drop n).map (P.flip · size), size⟩ = l.drop n := by
    simp only [rest, List.map_map]
    refine (List.map_congr_left fun a ha => ?_).trans (List.map_id _)
    exact P.flip_flip (hl a (List.mem_of_mem_drop ha))
  have hlist : toList P ⟨l.take n, (l.drop n).map (P.flip · size), size⟩ = l := by
    rw [toList, hrest, List.take_append_drop]
  refine ⟨⟨fun a ha => hl a (List.mem_of_mem_take ha), ?_, by rwa [hlist]⟩, hlist, hrest⟩
  intro a ha
  obtain ⟨b, hb, rfl⟩ := List.mem_map.mp ha
  exact P.within_flip (hl b (List.mem_of_mem_drop hb))

/-- Where an entry of the zipper starts. -/
lemma Ok.startAt_eq (h : z.Ok P) (index : ℕ) :
    z.startAt P index = (z.toList P)[index]?.map P.start := by
  rw [startAt]
  split
  next hlt => rw [toList, List.getElem?_append_left hlt]
  next hge =>
    rw [toList, List.getElem?_append_right (not_lt.mp hge), backStart, rest, List.getElem?_map,
      Option.map_map]
    cases hback : z.back[index - z.front.length]? with
    | none => rfl
    | some a =>
      exact congrArg some (P.start_flip (h.back a (List.mem_of_getElem? hback))).symm

/-! ### Bisection of the parts -/

lemma divided_of_ordered {l : List α} (h : l.Pairwise fun a b => P.start a ≤ P.start b)
    (place : ℕ) : Bisect.Divided (fun a => decide (P.start a < place)) l := by
  refine h.imp fun {a b} hab hb => ?_
  simp only [decide_eq_true_eq] at hb ⊢
  exact lt_of_le_of_lt hab hb

/-- A bisection of a front in order. -/
lemma frontFrom_of_ordered (hordered : z.front.Pairwise fun a b => P.start a ≤ P.start b)
    (place : ℕ) : z.frontFrom P place = (z.front.takeWhile fun a => P.start a < place).length :=
  Bisect.bisect_takeWhile (divided_of_ordered hordered place)

lemma Ok.frontFrom_eq (h : z.Ok P) (place : ℕ) :
    z.frontFrom P place = (z.front.takeWhile fun a => P.start a < place).length :=
  frontFrom_of_ordered (List.pairwise_append.mp h.ordered).1 place

/-- A bisection of a back in order, whatever the front holds. -/
lemma backFrom_of_ordered (hback : ∀ a ∈ z.back, P.Within z.size a)
    (hordered : (z.rest P).Pairwise fun a b => P.start a ≤ P.start b) (place : ℕ) :
    z.backFrom P place = ((z.rest P).takeWhile fun a => P.start a < place).length := by
  have hp : ∀ a ∈ z.back, decide (P.start (P.flip a z.size) < place) =
      decide (z.size - P.start a < place) := by
    intro a ha
    rw [P.start_flip (hback a ha)]
  have hdivided := divided_of_ordered hordered place
  rw [rest, List.takeWhile_map, List.length_map]
  have hbisect := Bisect.bisect_takeWhile (l := z.rest P) hdivided
  rw [length_rest, rest, List.takeWhile_map, List.length_map] at hbisect
  rw [← hbisect, backFrom]
  congr 1
  funext k
  rw [List.getElem?_map, Option.any_map]
  cases hk : z.back[k]? with
  | none => rfl
  | some a => exact (hp a (List.mem_of_getElem? hk)).symm

lemma Ok.backFrom_eq (h : z.Ok P) (place : ℕ) :
    z.backFrom P place = ((z.rest P).takeWhile fun a => P.start a < place).length :=
  backFrom_of_ordered h.back (List.pairwise_append.mp h.ordered).2.1 place

/-! ### Moving the focus -/

lemma take_takeWhile_length (p : α → Bool) (l : List α) :
    l.take (l.takeWhile p).length = l.takeWhile p := by
  have h := @List.take_left α (l.takeWhile p) (l.dropWhile p)
  rwa [List.takeWhile_append_dropWhile] at h

lemma drop_takeWhile_length (p : α → Bool) (l : List α) :
    l.drop (l.takeWhile p).length = l.dropWhile p := by
  have h := @List.drop_left α (l.takeWhile p) (l.dropWhile p)
  rwa [List.takeWhile_append_dropWhile] at h

lemma map_take_back (n : ℕ) :
    (z.back.take n).map (P.flip · z.size) = (z.rest P).take n := by
  rw [rest, List.map_take]

lemma Ok.drop_back (h : z.Ok P) (n : ℕ) :
    z.back.drop n = ((z.rest P).drop n).map (P.flip · z.size) := by
  rw [List.map_drop, ← h.back_eq]

/-- A cut keeps the back's entries from the first that starts at or past the place on. -/
lemma rest_cut (hback : ∀ a ∈ z.back, P.Within z.size a)
    (hordered : (z.rest P).Pairwise fun a b => P.start a ≤ P.start b) (place : ℕ) :
    (z.cut P place).rest P = (z.rest P).dropWhile fun a => P.start a < place := by
  rw [← drop_takeWhile_length, ← backFrom_of_ordered hback hordered place, rest, rest,
    ← List.map_drop]
  rfl

/-- The focus stands between the entries that start before `place` and the others. -/
theorem Ok.move_eq (h : z.Ok P) (place : ℕ) :
    z.move P place z.size =
      ⟨(z.toList P).takeWhile fun a => P.start a < place,
        ((z.toList P).dropWhile fun a => P.start a < place).map (P.flip · z.size), z.size⟩ := by
  have hres : z.resize z.size = z := rfl
  rw [move, hres, h.frontFrom_eq, h.backFrom_eq, toList]
  set p : α → Bool := fun a => decide (P.start a < place) with hp
  by_cases hall : ∀ a ∈ z.front, p a = true
  · -- Nothing leaves the front, and the back's entries before the place come to it.
    have htake : z.front.takeWhile p = z.front := List.takeWhile_eq_self_iff.mpr hall
    rw [htake, List.take_length, List.drop_length, List.map_nil, List.nil_append, map_take_back,
      h.drop_back, take_takeWhile_length, drop_takeWhile_length,
      List.takeWhile_append_of_pos hall, List.dropWhile_append_of_pos hall]
  · -- The front's last entry starts at or past the place, and so does the whole back.
    obtain ⟨a, hall⟩ := not_forall.mp hall
    obtain ⟨ha, hpa⟩ := Classical.not_imp.mp hall
    have hrest : (z.rest P).takeWhile p = [] := by
      cases hr : z.rest P with
      | nil => rfl
      | cons b l =>
        refine List.takeWhile_cons_of_neg ?_
        have hab := (List.pairwise_append.mp h.ordered).2.2 a ha b (by simp [hr])
        simp only [hp, decide_eq_true_eq, not_lt] at hpa ⊢
        exact le_trans hpa hab
    have hlt : (z.front.takeWhile p).length ≠ z.front.length := by
      intro hlen
      have := (List.takeWhile_prefix p (l := z.front)).eq_of_length hlen
      exact hpa (List.takeWhile_eq_self_iff.mp this a ha)
    have hdrop : (z.front.dropWhile p).isEmpty = false := by
      have hlen := congrArg List.length (List.takeWhile_append_dropWhile (p := p) (l := z.front))
      rw [List.length_append] at hlen
      cases hd : z.front.dropWhile p with
      | nil => exact absurd (by simpa [hd] using hlen) hlt
      | cons => rfl
    rw [hrest, List.length_nil, List.take_zero, List.map_nil, List.append_nil, List.drop_zero,
      take_takeWhile_length, drop_takeWhile_length, List.takeWhile_append, if_neg hlt,
      List.dropWhile_append, hdrop]
    simp only [Bool.false_eq_true, if_false, List.map_append]
    rw [← h.back_eq]

/-- A move of the focus keeps what the zipper holds. -/
theorem Ok.move (h : z.Ok P) (place : ℕ) :
    (z.move P place z.size).Ok P ∧ (z.move P place z.size).toList P = z.toList P ∧
      (z.move P place z.size).rest P =
        (z.toList P).dropWhile fun a => P.start a < place := by
  have hsplit := Ok.of_toList (z := z.move P place z.size)
    (n := ((z.toList P).takeWhile fun a => decide (P.start a < place)).length)
    (fun a ha => h.within ha) h.ordered
    (by rw [take_takeWhile_length, drop_takeWhile_length]; exact h.move_eq place)
  rw [drop_takeWhile_length] at hsplit
  exact hsplit

end Zipper
