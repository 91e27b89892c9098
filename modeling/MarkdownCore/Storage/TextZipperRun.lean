import MarkdownCore.Storage.TextZipper

/-!
# A zipper is an ordered list

What an entry's type keeps to, `Turning`, makes the flip an involution but for what only a front
entry holds. So a zipper in order about its focus, `Turning.Good`, is one list of entries in order
of start and a place in it: each operation is an edit of the list (`Turning.Good.run`).
-/

namespace MarkdownCore.Storage

variable {α ω : Type*} {I : Interface α ω}

/-- What an entry's type keeps to. -/
structure Turning (I : Interface α ω) where
  /-- Every place the entry holds lies in a text of this size, and none before its start. -/
  Fits : ℕ → α → Prop
  /-- The entry less what only a front entry holds. -/
  shed : α → α
  /-- The entry with each place moved as far, less what only a front entry holds. -/
  shift : α → ℤ → α
  start_le : ∀ {n a}, Fits n a → I.start a ≤ n
  start_flip : ∀ {n a}, Fits n a → I.start (I.flip a n) = n - I.start a
  flip_flip : ∀ {n a}, Fits n a → I.flip (I.flip a n) n = shed a
  start_shed : ∀ a, I.start (shed a) = I.start a
  shed_shed : ∀ a, shed (shed a) = shed a
  flip_shed : ∀ a n, I.flip (shed a) n = I.flip a n
  shed_flip : ∀ a n, shed (I.flip a n) = I.flip a n
  fits_shed : ∀ {n a}, Fits n a → Fits n (shed a)
  shed_shift : ∀ a d, shed (shift a d) = shift a d
  start_shift : ∀ {a} {d : ℤ}, 0 ≤ I.start a + d → (I.start (shift a d) : ℤ) = I.start a + d
  fits_shift : ∀ {n a} {d : ℤ}, Fits n a → 0 ≤ I.start a + d → Fits ((n : ℤ) + d).toNat (shift a d)
  flip_shift : ∀ {n a} {d : ℤ}, Fits n a → 0 ≤ I.start a + d →
    I.flip (shift a d) ((n : ℤ) + d).toNat = I.flip a n

namespace TextZipper

/-! ### The entries by index -/

variable {z : TextZipper α}

@[simp] lemma length_rest : (z.rest I).length = z.back.length := by simp [rest]

lemma stored_eq (k : ℕ) : z.stored k = z.back.reverse[k]? := by
  rw [stored]
  split
  next hk => rw [List.getElem?_reverse hk]
  next hk => rw [List.getElem?_eq_none (by simpa using hk)]

/-- The entry at an index is the list's. -/
lemma entryAt_eq (index : ℕ) : z.entryAt I index = (z.entries I)[index]? := by
  rw [entryAt, entries]
  split
  next hlt => rw [List.getElem?_append_left hlt]
  next hge =>
    rw [List.getElem?_append_right (not_lt.mp hge), backAt, stored_eq, rest, List.getElem?_map]

/-- Pushing the front's entries from the last to the first on the back stacks them in order. -/
lemma pushed_eq {front back : List α} {first size : ℕ} :
    ∀ {i : ℕ}, first ≤ i → i ≤ front.length →
      pushed I front first size i back =
        back ++ (((front.take i).drop first).map (I.flip · size)).reverse := by
  intro i hfirst hi
  induction i generalizing back with
  | zero => simp [pushed]
  | succ i ih =>
    rw [pushed]
    split
    next hle =>
      have hlt : i < front.length := hi
      rw [ih hle hlt.le, List.take_succ_eq_append_getElem hlt,
        List.drop_append_of_le_length (by simp; omega), List.getElem?_eq_getElem hlt]
      simp
    next hgt =>
      have heq : first = i + 1 := by omega
      rw [List.drop_of_length_le (by simp; omega)]
      simp

/-- Popping the back takes its entries from the focus on, in order. -/
lemma popped_eq {size : ℕ} : ∀ {taken : ℕ} {front back : List α}, taken ≤ back.length →
    popped I size taken front back =
      (front ++ (back.reverse.take taken).map (I.flip · size),
        (back.reverse.drop taken).reverse) := by
  intro taken
  induction taken with
  | zero => simp [popped]
  | succ taken ih =>
    intro front back hle
    cases List.eq_nil_or_concat back with
    | inl hnil =>
      subst hnil
      simp at hle
    | inr hlast =>
      obtain ⟨init, last, rfl⟩ := hlast
      rw [List.concat_eq_append] at hle ⊢
      rw [popped, List.dropLast_concat, List.getLast?_concat,
        ih (by simpa using hle)]
      simp

end TextZipper

/-! ### Order -/

/-- Where a list in order is divided by a place, so is each of its parts. -/
lemma takeWhile_append_of_ordered {start : α → ℕ} {l r : List α}
    (h : (l ++ r).Pairwise fun a b => start a ≤ start b) (place : ℕ) :
    ((l ++ r).takeWhile fun a => start a < place) =
        (l.takeWhile fun a => start a < place) ++ (r.takeWhile fun a => start a < place) ∧
      ((l ++ r).dropWhile fun a => start a < place) =
        (l.dropWhile fun a => start a < place) ++ (r.dropWhile fun a => start a < place) ∧
      ((l.dropWhile fun a => start a < place) = [] ∨
        (r.takeWhile fun a => start a < place) = []) := by
  set p : α → Bool := fun a => decide (start a < place) with hp
  by_cases hall : ∀ a ∈ l, p a = true
  · refine ⟨?_, ?_, .inl (List.dropWhile_eq_nil_iff.mpr hall)⟩
    · rw [List.takeWhile_append_of_pos hall, List.takeWhile_eq_self_iff.mpr hall]
    · rw [List.dropWhile_append_of_pos hall, List.dropWhile_eq_nil_iff.mpr hall, List.nil_append]
  · -- An entry of the first part past the place has all of the second past it.
    obtain ⟨a, hall⟩ := not_forall.mp hall
    obtain ⟨ha, hpa⟩ := Classical.not_imp.mp hall
    have hpast : ∀ b ∈ r, ¬ p b = true := by
      intro b hb hpb
      have hab := (List.pairwise_append.mp h).2.2 a ha b hb
      simp only [hp, decide_eq_true_eq] at hpa hpb
      omega
    have htake : r.takeWhile p = [] := by
      cases r with
      | nil => rfl
      | cons b r => exact List.takeWhile_cons_of_neg (hpast b (by simp))
    have hdrop : r.dropWhile p = r := by
      cases r with
      | nil => rfl
      | cons b r => exact List.dropWhile_cons_of_neg (hpast b (by simp))
    have hne : l.dropWhile p ≠ [] := by
      intro hnil
      exact hpa (List.dropWhile_eq_nil_iff.mp hnil a ha)
    have hlen : ¬ (l.takeWhile p).length = l.length := by
      intro hlen
      have heq := (List.takeWhile_prefix p (l := l)).eq_of_length hlen
      exact hpa (List.takeWhile_eq_self_iff.mp heq a ha)
    refine ⟨?_, ?_, .inr htake⟩
    · rw [List.takeWhile_append, if_neg hlen, htake, List.append_nil]
    · rw [List.dropWhile_append, hdrop]
      cases hd : l.dropWhile p with
      | nil => exact absurd hd hne
      | cons => rfl

/-- The first entry at or past a place, as a linear scan finds it. -/
lemma findIdx_past (start : α → ℕ) (l : List α) (place : ℕ) :
    (l.findIdx fun a => place ≤ start a) = (l.takeWhile fun a => start a < place).length := by
  induction l with
  | nil => rfl
  | cons a l ih =>
    rw [List.findIdx_cons, List.takeWhile_cons]
    by_cases hlt : start a < place
    · simp [hlt, not_le.mpr hlt, ih]
    · simp [hlt, not_lt.mp hlt]

/-- What is left of a list in order, from the first entry at or past a place on, is past it. -/
lemma past_of_mem_dropWhile {start : α → ℕ} {l : List α}
    (h : l.Pairwise fun a b => start a ≤ start b) {place : ℕ} :
    ∀ a ∈ l.dropWhile fun a => start a < place, place ≤ start a := by
  induction l with
  | nil => simp
  | cons b l ih =>
    rw [List.pairwise_cons] at h
    by_cases hlt : start b < place
    · rw [List.dropWhile_cons_of_pos (by simpa using hlt)]
      exact ih h.2
    · rw [List.dropWhile_cons_of_neg (by simpa using hlt)]
      intro a ha
      rcases List.mem_cons.mp ha with rfl | ha
      · exact not_lt.mp hlt
      · exact (not_lt.mp hlt).trans (h.1 a ha)

/-- What a list in order has before a place stays, and the rest is changed. -/
lemma map_past {start : α → ℕ} {l : List α} (h : l.Pairwise fun a b => start a ≤ start b)
    (f : α → α) (place : ℕ) :
    (l.map fun a => if start a < place then a else f a) =
      (l.takeWhile fun a => start a < place) ++
        (l.dropWhile fun a => start a < place).map f := by
  have hsplit := List.takeWhile_append_dropWhile (p := fun a => decide (start a < place)) (l := l)
  conv => lhs; rw [← hsplit]
  rw [List.map_append]
  congr 1
  · refine (List.map_congr_left fun a ha => ?_).trans (List.map_id _)
    have hlt := List.mem_takeWhile_imp ha
    rw [if_pos (by simpa using hlt), id_eq]
  · refine List.map_congr_left fun a ha => ?_
    rw [if_neg (not_lt.mpr (past_of_mem_dropWhile h a ha))]

namespace Turning

variable (T : Turning I)

/-- The interface's places as a zipper of lists has them: an entry of either part holds nothing of
the front's own. -/
def places : Places α where
  start := I.start
  flip := I.flip
  Within n a := T.shed a = a ∧ (T.Fits n a ∨ ∃ b, T.Fits n b ∧ a = I.flip b n)
  start_le := by
    rintro n a ⟨-, h | ⟨b, h, rfl⟩⟩
    · exact T.start_le h
    · rw [T.start_flip h]
      exact Nat.sub_le _ _
  start_flip := by
    rintro n a ⟨-, h | ⟨b, h, rfl⟩⟩
    · exact T.start_flip h
    · rw [T.flip_flip h, T.start_shed, T.start_flip h, Nat.sub_sub_self (T.start_le h)]
  flip_flip := by
    rintro n a ⟨hshed, h | ⟨b, h, rfl⟩⟩
    · rw [T.flip_flip h, hshed]
    · rw [T.flip_flip h, T.flip_shed]
  within_flip := by
    rintro n a ⟨-, h | ⟨b, h, rfl⟩⟩
    · exact ⟨T.shed_flip _ _, .inr ⟨a, h, rfl⟩⟩
    · rw [T.flip_flip h]
      exact ⟨T.shed_shed _, .inl (T.fits_shed h)⟩

/-- A zipper's entries in order of start, those of the front before the focus and those of the
back at or past it, and the back's places within the text. -/
structure Good (z : TextZipper α) (focus : ℕ) : Prop where
  stored : ∀ a ∈ z.back, ∃ b, T.Fits z.stop b ∧ a = I.flip b z.stop
  ordered : (z.entries I).Pairwise fun a b => I.start a ≤ I.start b
  front : ∀ a ∈ z.front, I.start a < focus
  rest : ∀ a ∈ z.rest I, focus ≤ I.start a

/-- The zipper of lists that a zipper of a stack is. -/
def listed (z : TextZipper α) : Zipper α := ⟨z.front, z.back.reverse, z.stop⟩

variable {T} {z : TextZipper α} {focus : ℕ}

lemma backFrom_listed (place : ℕ) : z.backFrom I place = (listed z).backFrom T.places place := by
  rw [TextZipper.backFrom, Zipper.backFrom]
  have hbelow : (fun k => (z.backStart I k).any (· < place)) = fun k =>
      ((listed z).back[k]?).any fun a => (listed z).size - T.places.start a < place := by
    funext k
    rw [TextZipper.backStart, TextZipper.stored_eq, Option.any_map]
    rfl
  rw [hbelow]
  simp [listed]

namespace Good

lemma within (h : T.Good z focus) : ∀ a ∈ (listed z).back, T.places.Within (listed z).size a := by
  intro a ha
  obtain ⟨b, hb, rfl⟩ := h.stored a (List.mem_reverse.mp ha)
  exact ⟨T.shed_flip _ _, .inr ⟨b, hb, rfl⟩⟩

lemma ordered_rest (h : T.Good z focus) :
    (z.rest I).Pairwise fun a b => I.start a ≤ I.start b :=
  (List.pairwise_append.mp h.ordered).2.1

lemma ordered_front (h : T.Good z focus) :
    z.front.Pairwise fun a b => I.start a ≤ I.start b :=
  (List.pairwise_append.mp h.ordered).1

/-- The back's entries hold nothing of the front's own, and lie in the text. -/
lemma rest_fits (h : T.Good z focus) {a : α} (ha : a ∈ z.rest I) :
    T.Fits z.stop a ∧ T.shed a = a := by
  obtain ⟨s, hs, rfl⟩ := List.mem_map.mp ha
  obtain ⟨b, hb, rfl⟩ := h.stored s (List.mem_reverse.mp hs)
  rw [T.flip_flip hb]
  exact ⟨T.fits_shed hb, T.shed_shed b⟩

lemma back_eq (h : T.Good z focus) : z.back.reverse = (z.rest I).map (I.flip · z.stop) := by
  rw [TextZipper.rest, List.map_map]
  refine (List.map_id z.back.reverse).symm.trans (List.map_congr_left fun a ha => ?_)
  obtain ⟨b, hb, rfl⟩ := h.stored a (List.mem_reverse.mp ha)
  simp [T.flip_flip hb, T.flip_shed]

/-- A zipper of these parts. -/
lemma of_parts (front rest : List α) (size : ℕ) (hfits : ∀ a ∈ rest, T.Fits size a)
    (hordered : (front ++ rest).Pairwise fun a b => I.start a ≤ I.start b)
    (hfront : ∀ a ∈ front, I.start a < focus) (hrest : ∀ a ∈ rest, focus ≤ I.start a)
    (hz : z = ⟨front, (rest.map (I.flip · size)).reverse, size⟩) :
    T.Good z focus ∧ z.rest I = rest.map T.shed := by
  have hrest' : z.rest I = rest.map T.shed := by
    subst hz
    rw [TextZipper.rest, List.reverse_reverse, List.map_map]
    exact List.map_congr_left fun a ha => T.flip_flip (hfits a ha)
  refine ⟨⟨?_, ?_, ?_, ?_⟩, hrest'⟩
  · subst hz
    intro a ha
    obtain ⟨b, hb, rfl⟩ := List.mem_map.mp (List.mem_reverse.mp ha)
    exact ⟨b, hfits b hb, rfl⟩
  · rw [TextZipper.entries, hrest']
    subst hz
    rw [List.pairwise_append] at hordered ⊢
    refine ⟨hordered.1, ?_, ?_⟩
    · rw [List.pairwise_map]
      simpa only [T.start_shed] using hordered.2.1
    · intro a ha b hb
      obtain ⟨c, hc, rfl⟩ := List.mem_map.mp hb
      rw [T.start_shed]
      exact hordered.2.2 a ha c hc
  · subst hz
    exact hfront
  · rw [hrest']
    intro a ha
    obtain ⟨c, hc, rfl⟩ := List.mem_map.mp ha
    rw [T.start_shed]
    exact hrest c hc

/-! ### Searches -/

lemma frontFrom_eq (h : T.Good z focus) (place : ℕ) :
    z.frontFrom I place = (z.front.takeWhile fun a => I.start a < place).length :=
  Zipper.frontFrom_of_ordered (P := T.places) (z := listed z) h.ordered_front place

lemma backFrom_eq (h : T.Good z focus) (place : ℕ) :
    z.backFrom I place = ((z.rest I).takeWhile fun a => I.start a < place).length := by
  rw [backFrom_listed (T := T)]
  exact Zipper.backFrom_of_ordered (P := T.places) (z := listed z) h.within h.ordered_rest place

lemma backStart_eq (h : T.Good z focus) (k : ℕ) :
    z.backStart I k = (z.rest I)[k]?.map I.start := by
  rw [TextZipper.backStart, TextZipper.stored_eq, TextZipper.rest, List.getElem?_map,
    Option.map_map]
  cases hk : z.back.reverse[k]? with
  | none => rfl
  | some a =>
    obtain ⟨b, hb, rfl⟩ := h.stored a (List.mem_reverse.mp (List.mem_of_getElem? hk))
    simp [T.flip_flip hb, T.start_shed, T.start_flip hb, Nat.sub_sub_self (T.start_le hb)]

/-- Where an entry starts. -/
lemma startAt_eq (h : T.Good z focus) (index : ℕ) :
    z.startAt I index = (z.entryAt I index).map I.start := by
  rw [TextZipper.startAt, TextZipper.entryAt_eq, TextZipper.entries]
  split
  next hlt => rw [List.getElem?_append_left hlt]
  next hge => rw [h.backStart_eq, List.getElem?_append_right (not_lt.mp hge)]

lemma entryFrom_eq (h : T.Good z focus) (place : ℕ) :
    z.entryFrom I place = ((z.entries I).takeWhile fun a => I.start a < place).length := by
  obtain ⟨htake, -, hor⟩ := takeWhile_append_of_ordered h.ordered place
  rw [TextZipper.entries, htake, List.length_append, TextZipper.entryFrom]
  split
  next hsome =>
    rw [h.backFrom_eq]
    obtain ⟨-, hany⟩ := hsome
    rw [h.backStart_eq] at hany
    cases hr : z.rest I with
    | nil => simp [hr] at hany
    | cons b rest =>
      have hb : I.start b < place := by simpa [hr] using hany
      rw [hr, List.takeWhile_cons_of_pos (by simpa using hb)] at hor
      have hnil := hor.resolve_right (by simp)
      rw [List.dropWhile_eq_nil_iff] at hnil
      rw [List.takeWhile_eq_self_iff.mpr hnil]
  next hnone =>
    rw [h.frontFrom_eq]
    have hnil : ((z.rest I).takeWhile fun a => decide (I.start a < place)) = [] := by
      cases hr : z.rest I with
      | nil => rfl
      | cons b rest =>
        refine List.takeWhile_cons_of_neg ?_
        intro hb
        refine hnone ⟨?_, ?_⟩
        · have hlen := congrArg List.length hr
          simp at hlen
          omega
        · rw [h.backStart_eq, hr]
          simpa using hb
    rw [hnil, List.length_nil, Nat.add_zero]

/-! ### The focus moved -/

/-- A move puts the focus between the entries that start before the place and the others. -/
lemma move_eq (h : T.Good z focus) {place size : ℕ} (hsize : z.back ≠ [] → z.stop = size)
    (self : ω) :
    z.move I place size true self =
      (true, ⟨(z.entries I).takeWhile fun a => I.start a < place,
        (((z.entries I).dropWhile fun a => I.start a < place).map (I.flip · size)).reverse, size⟩,
        if z.frontFrom I place < z.front.length then I.leave self (z.frontFrom I place)
        else self) := by
  obtain ⟨htake, hdrop, hor⟩ := takeWhile_append_of_ordered h.ordered place
  rw [TextZipper.entries, htake, hdrop, TextZipper.move, if_neg (by simp)]
  set p : α → Bool := fun a => decide (I.start a < place) with hp
  have hfirst : TextZipper.frontFrom I { z with stop := size } place =
      (z.front.takeWhile p).length := h.frontFrom_eq place
  have hfirst' : z.frontFrom I place = (z.front.takeWhile p).length := h.frontFrom_eq place
  have htaken : (if z.back.length ≠ 0 then TextZipper.backFrom I { z with stop := size } place
      else 0) = ((z.rest I).takeWhile p).length := by
    by_cases hback : z.back = []
    · simp [hback, TextZipper.rest]
    · have hz : ({ z with stop := size } : TextZipper α) = z := by rw [← hsize hback]
      rw [if_pos (by simpa using hback), hz]
      exact h.backFrom_eq place
  have hle := (List.takeWhile_prefix p (l := z.front)).length_le
  -- what the front keeps, and what the back holds once the front's entries are pushed
  have hkept : (if decide ((z.front.takeWhile p).length < z.front.length) = true then
      z.front.take (z.front.takeWhile p).length else z.front) = z.front.takeWhile p := by
    split
    next => rw [Zipper.take_takeWhile_length]
    next hge =>
      have hlen : (z.front.takeWhile p).length = z.front.length := by
        simp only [decide_eq_true_eq, not_lt] at hge
        omega
      exact ((List.takeWhile_prefix p (l := z.front)).eq_of_length hlen).symm
  have hpushed : (if decide ((z.front.takeWhile p).length < z.front.length) = true then
      TextZipper.pushed I z.front (z.front.takeWhile p).length size z.front.length z.back
      else z.back) = z.back ++ ((z.front.dropWhile p).map (I.flip · size)).reverse := by
    split
    next =>
      rw [TextZipper.pushed_eq hle (le_refl _), List.take_length, Zipper.drop_takeWhile_length]
    next hge =>
      have hlen : (z.front.takeWhile p).length = z.front.length := by
        simp only [decide_eq_true_eq, not_lt] at hge
        omega
      have heq := (List.takeWhile_prefix p (l := z.front)).eq_of_length hlen
      rw [List.dropWhile_eq_nil_iff.mpr (List.takeWhile_eq_self_iff.mp heq)]
      simp
  have htaken_le : ((z.rest I).takeWhile p).length ≤
      (z.back ++ ((z.front.dropWhile p).map (I.flip · size)).reverse).length := by
    have := (List.takeWhile_prefix p (l := z.rest I)).length_le
    rw [TextZipper.length_rest] at this
    rw [List.length_append]
    omega
  have hback : z.back.reverse = (z.rest I).map (I.flip · size) := by
    by_cases hback : z.back = []
    · simp [hback, TextZipper.rest]
    · rw [← hsize hback]
      exact h.back_eq
  dsimp only
  rw [hfirst, hfirst', htaken, hkept, hpushed, TextZipper.popped_eq htaken_le, List.reverse_append,
    List.reverse_reverse, hback, ← List.map_append]
  simp only [decide_eq_true_eq]
  rcases hor with hnil | hnil
  · -- the front keeps all of its entries
    rw [hnil, List.nil_append, List.nil_append, ← List.map_take, ← List.map_drop,
      Zipper.take_takeWhile_length, Zipper.drop_takeWhile_length, List.map_map]
    have hback : ((z.rest I).takeWhile p).map ((I.flip · size) ∘ (I.flip · size)) =
        (z.rest I).takeWhile p := by
      refine (List.map_congr_left fun a ha => ?_).trans (List.map_id _)
      have hmem := (List.takeWhile_sublist p).subset ha
      have hne : z.back ≠ [] := by
        intro hb
        simp [TextZipper.rest, hb] at hmem
      obtain ⟨hfits, hshed⟩ := h.rest_fits hmem
      rw [hsize hne] at hfits
      simp only [Function.comp_apply, id_eq]
      rw [T.flip_flip hfits, hshed]
    rw [hback]
  · -- the back gives none
    have hdropnil : (z.rest I).dropWhile p = z.rest I := by
      have := List.takeWhile_append_dropWhile (p := p) (l := z.rest I)
      rwa [hnil, List.nil_append] at this
    rw [hnil, hdropnil]
    simp

/-- The entries a move keeps: those it takes to the back hold nothing of the front's own. -/
lemma move (h : T.Good z focus) {place size : ℕ} (hsize : z.back ≠ [] → z.stop = size)
    (hfits : ∀ a ∈ z.front, place ≤ I.start a → T.Fits size a) (self : ω) :
    T.Good (z.move I place size true self).2.1 place ∧
      (z.move I place size true self).2.1.rest I =
        ((z.entries I).dropWhile fun a => I.start a < place).map T.shed := by
  refine of_parts ((z.entries I).takeWhile fun a => I.start a < place) _ size ?_ ?_ ?_ ?_
    (by rw [h.move_eq hsize self])
  · intro a ha
    have hmem := (List.dropWhile_sublist _).subset ha
    rw [TextZipper.entries, List.mem_append] at hmem
    rcases hmem with hmem | hmem
    · exact hfits a hmem (past_of_mem_dropWhile h.ordered a ha)
    · have hne : z.back ≠ [] := by
        intro hb
        simp [TextZipper.rest, hb] at hmem
      rw [← hsize hne]
      exact (h.rest_fits hmem).1
  · rw [List.takeWhile_append_dropWhile]
    exact h.ordered
  · intro a ha
    simpa using List.mem_takeWhile_imp ha
  · exact past_of_mem_dropWhile h.ordered

/-! ### The back cut -/

/-- A cut and the text's new end: the entries it keeps move with the end, the front's stay. -/
lemma cut (h : T.Good z focus) {place : ℕ} {delta : ℤ}
    (hdelta : ∀ a ∈ z.rest I, place ≤ I.start a → (focus : ℤ) ≤ I.start a + delta) :
    T.Good ((z.cut I place).2.grow delta) focus ∧
      ((z.cut I place).2.grow delta).rest I =
        ((z.rest I).dropWhile fun a => I.start a < place).map (T.shift · delta) := by
  have hkept : ∀ a ∈ (z.rest I).dropWhile fun a => I.start a < place,
      T.Fits z.stop a ∧ 0 ≤ I.start a + delta ∧ (focus : ℤ) ≤ I.start (T.shift a delta) := by
    intro a ha
    have hmem := (List.dropWhile_sublist _).subset ha
    have hle := hdelta a hmem (past_of_mem_dropWhile h.ordered_rest a ha)
    have hnonneg : 0 ≤ I.start a + delta := (Int.natCast_nonneg focus).trans hle
    exact ⟨(h.rest_fits hmem).1, hnonneg, by rw [T.start_shift hnonneg]; exact hle⟩
  have hback : z.back.take (z.back.length - z.backFrom I place) =
      ((((z.rest I).dropWhile fun a => I.start a < place).map (T.shift · delta)).map
        (I.flip · ((z.stop : ℤ) + delta).toNat)).reverse := by
    rw [← List.reverse_inj, List.reverse_reverse, List.reverse_take, h.backFrom_eq, h.back_eq]
    have hle := (List.takeWhile_prefix (fun a => decide (I.start a < place))
      (l := z.rest I)).length_le
    rw [TextZipper.length_rest] at hle
    rw [Nat.sub_sub_self hle, ← List.map_drop, Zipper.drop_takeWhile_length, List.map_map]
    refine List.map_congr_left fun a ha => ?_
    obtain ⟨hfits, hnonneg, -⟩ := hkept a ha
    exact (T.flip_shift hfits hnonneg).symm
  have hshed : (((z.rest I).dropWhile fun a => I.start a < place).map (T.shift · delta)).map
      T.shed = ((z.rest I).dropWhile fun a => I.start a < place).map (T.shift · delta) := by
    rw [List.map_map]
    exact List.map_congr_left fun a _ => T.shed_shift a delta
  rw [← hshed]
  refine of_parts z.front (((z.rest I).dropWhile fun a => I.start a < place).map (T.shift · delta))
    ((z.stop : ℤ) + delta).toNat ?_ ?_ h.front ?_ ?_
  · intro a ha
    obtain ⟨b, hb, rfl⟩ := List.mem_map.mp ha
    obtain ⟨hfits, hnonneg, -⟩ := hkept b hb
    exact T.fits_shift hfits hnonneg
  · rw [List.pairwise_append]
    refine ⟨h.ordered_front, ?_, ?_⟩
    · rw [List.pairwise_map]
      have hsorted := h.ordered_rest.sublist (List.dropWhile_sublist fun a =>
        decide (I.start a < place))
      refine hsorted.imp_of_mem fun {a b} ha hb hab => ?_
      obtain ⟨-, hnonneg, -⟩ := hkept a ha
      obtain ⟨-, hnonneg', -⟩ := hkept b hb
      have h₁ := T.start_shift hnonneg
      have h₂ := T.start_shift hnonneg'
      omega
    · intro a ha b hb
      obtain ⟨c, hc, rfl⟩ := List.mem_map.mp hb
      obtain ⟨-, -, hfocus⟩ := hkept c hc
      have hbefore := h.front a ha
      omega
  · intro a ha
    obtain ⟨b, hb, rfl⟩ := List.mem_map.mp ha
    obtain ⟨-, -, hfocus⟩ := hkept b hb
    omega
  · rw [← hback]
    rfl

/-! ### The parts edited -/

/-- A zipper whose front alone changes. -/
lemma withFront (h : T.Good z focus) {front : List α}
    (hordered : (front ++ z.rest I).Pairwise fun a b => I.start a ≤ I.start b)
    (hfront : ∀ a ∈ front, I.start a < focus) : T.Good { z with front } focus :=
  ⟨h.stored, hordered, hfront, h.rest⟩

/-- An entry put in order in the front. -/
lemma frontInsert (h : T.Good z focus) {index : ℕ} {entry : α}
    (hbefore : ∀ a ∈ z.front.take index, I.start a ≤ I.start entry)
    (hafter : ∀ a ∈ z.front.drop index, I.start entry ≤ I.start a)
    (hfocus : I.start entry < focus) (self : ω) :
    T.Good (z.frontInsert I index entry true self).2.1 focus := by
  have hparts : (z.front.take index ++ z.front.drop index).Pairwise fun a b =>
      I.start a ≤ I.start b := by
    rw [List.take_append_drop]
    exact h.ordered_front
  obtain ⟨htake, hdrop, hcross⟩ := List.pairwise_append.mp hparts
  have hmem : ∀ a ∈ z.front.take index ++ entry :: z.front.drop index,
      a = entry ∨ a ∈ z.front := by
    intro a ha
    rcases List.mem_append.mp ha with ha | ha
    · exact .inr (List.mem_of_mem_take ha)
    · rcases List.mem_cons.mp ha with rfl | ha
      · exact .inl rfl
      · exact .inr (List.mem_of_mem_drop ha)
  have hinserted : ∀ a ∈ z.front.take index ++ entry :: z.front.drop index,
      I.start a < focus := by
    intro a ha
    rcases hmem a ha with rfl | ha
    · exact hfocus
    · exact h.front a ha
  refine h.withFront ?_ hinserted
  rw [List.pairwise_append, List.pairwise_append, List.pairwise_cons]
  refine ⟨⟨htake, ⟨hafter, hdrop⟩, ?_⟩, h.ordered_rest, ?_⟩
  · intro a ha b hb
    rcases List.mem_cons.mp hb with rfl | hb
    · exact hbefore a ha
    · exact hcross a ha b hb
  · intro a ha b hb
    exact (hinserted a ha).le.trans (h.rest b hb)

/-- Entries of the front gone. -/
lemma frontErase (h : T.Good z focus) (index n : ℕ) (self : ω) :
    T.Good (z.frontErase I index n self).1 focus := by
  have hsub : (z.front.take index ++ z.front.drop (index + n)).Sublist z.front := by
    have happend := (List.Sublist.refl (z.front.take index)).append
      (List.drop_sublist_drop_left z.front (Nat.le_add_right index n))
    rwa [List.take_append_drop] at happend
  refine h.withFront ?_ fun a ha => h.front a (hsub.subset ha)
  exact h.ordered.sublist (hsub.append (List.Sublist.refl _))

lemma rest_backRemove {k : ℕ} (hk : k < z.back.length) :
    (z.backRemove k).rest I = (z.rest I).eraseIdx k := by
  have hback : (z.backRemove k).back.reverse =
      z.back.reverse.take k ++ z.back.reverse.drop (k + 1) := by
    rw [TextZipper.backRemove, List.reverse_append, List.reverse_take, List.reverse_drop,
      show z.back.length - (z.back.length - 1 - k + 1) = k by omega,
      show z.back.length - (z.back.length - 1 - k) = k + 1 by omega]
  rw [TextZipper.rest, hback, List.map_append, List.map_take, List.map_drop,
    List.eraseIdx_eq_take_drop_succ]
  rfl

/-- An entry of the back gone. -/
lemma backRemove (h : T.Good z focus) {k : ℕ} (hk : k < z.back.length) :
    T.Good (z.backRemove k) focus := by
  have hsub : ((z.backRemove k).rest I).Sublist (z.rest I) := by
    rw [rest_backRemove hk]
    exact List.eraseIdx_sublist _ _
  refine ⟨?_, ?_, h.front, fun a ha => h.rest a (hsub.subset ha)⟩
  · intro a ha
    rcases List.mem_append.mp ha with ha | ha
    · exact h.stored a (List.mem_of_mem_take ha)
    · exact h.stored a (List.mem_of_mem_drop ha)
  · exact h.ordered.sublist ((List.Sublist.refl _).append hsub)

end Good

end Turning

/-! ### Runs -/

/-- An edit of a zipper, and whether storage could be had for it; a cut is followed by what the
text's end moves by. -/
inductive Edit (α : Type*) where
  | move (place size : ℕ) (room : Bool)
  | insert (index : ℕ) (entry : α) (room : Bool)
  | erase (index n : ℕ)
  | cut (place : ℕ) (delta : ℤ)
  | remove (k : ℕ)

namespace Edit

/-- What an edit makes of a zipper. -/
def act (I : Interface α ω) : Edit α → TextZipper α × ω → TextZipper α × ω
  | .move place size room, (z, self) => (z.move I place size room self).2
  | .insert index entry room, (z, self) => (z.frontInsert I index entry room self).2
  | .erase index n, (z, self) => z.frontErase I index n self
  | .cut place delta, (z, self) => ((z.cut I place).2.grow delta, self)
  | .remove k, (z, self) => (z.backRemove k, self)

/-- Where the focus is after an edit. -/
def focusAfter : Edit α → ℕ → ℕ
  | .move place _ true, _ => place
  | _, focus => focus

/-- Whether an edit may be made: a move is in the text the zipper's places are in, an entry goes
in order, before the focus, and what a cut keeps stays at or past the focus. -/
def Fits (T : Turning I) (z : TextZipper α) (focus : ℕ) : Edit α → Prop
  | .move place size _ =>
    (z.back ≠ [] → z.stop = size) ∧ ∀ a ∈ z.front, place ≤ I.start a → T.Fits size a
  | .insert index entry _ =>
    index ≤ z.front.length ∧ (∀ a ∈ z.front.take index, I.start a ≤ I.start entry) ∧
      (∀ a ∈ z.front.drop index, I.start entry ≤ I.start a) ∧ I.start entry < focus
  | .erase index n => index + n ≤ z.front.length
  | .cut place delta =>
    ∀ a ∈ z.rest I, place ≤ I.start a → (focus : ℤ) ≤ I.start a + delta
  | .remove k => k < z.back.length

/-- The edit of one list in order, and of how many of its entries stand before the focus. -/
def onList (T : Turning I) : Edit α → List α × ℕ → List α × ℕ
  | .move place _ true, (l, _) =>
    ((l.takeWhile fun a => I.start a < place) ++
        (l.dropWhile fun a => I.start a < place).map T.shed,
      (l.takeWhile fun a => I.start a < place).length)
  | .move _ _ false, (l, n) => (l, n)
  | .insert index entry true, (l, n) => (l.take index ++ entry :: l.drop index, n + 1)
  | .insert _ _ false, (l, n) => (l, n)
  | .erase index count, (l, n) => (l.take index ++ l.drop (index + count), n - count)
  | .cut place delta, (l, n) =>
    (l.take n ++ ((l.drop n).dropWhile fun a => I.start a < place).map (T.shift · delta), n)
  | .remove k, (l, n) => (l.eraseIdx (n + k), n)

/-- Edits each of which may be made where the ones before it lead. -/
def FitsAll (T : Turning I) : List (Edit α) → TextZipper α × ω → ℕ → Prop
  | [], _, _ => True
  | edit :: edits, z, focus =>
    edit.Fits T z.1 focus ∧ FitsAll T edits (edit.act I z) (edit.focusAfter focus)

/-- Where the focus is after edits. -/
def focusAfterAll : List (Edit α) → ℕ → ℕ
  | [], focus => focus
  | edit :: edits, focus => focusAfterAll edits (edit.focusAfter focus)

end Edit

namespace Turning.Good

variable {T : Turning I} {z : TextZipper α} {focus : ℕ}

/-- An edit of a zipper is the edit of its list. -/
theorem act (h : T.Good z focus) {edit : Edit α} (hfits : edit.Fits T z focus) (self : ω) :
    T.Good (edit.act I (z, self)).1 (edit.focusAfter focus) ∧
      ((edit.act I (z, self)).1.entries I, (edit.act I (z, self)).1.front.length) =
        edit.onList T (z.entries I, z.front.length) := by
  cases edit with
  | move place size room =>
    cases room with
    | false => exact ⟨h, rfl⟩
    | true =>
      obtain ⟨hgood, hrest⟩ := h.move hfits.1 hfits.2 self
      refine ⟨hgood, ?_⟩
      simp only [Edit.act, Edit.onList]
      rw [TextZipper.entries, hrest, h.move_eq hfits.1 self]
  | insert index entry room =>
    cases room with
    | false => exact ⟨h, rfl⟩
    | true =>
      obtain ⟨hindex, hbefore, hafter, hfocus⟩ := hfits
      refine ⟨h.frontInsert hbefore hafter hfocus self, ?_⟩
      have hlen : (z.front.take index ++ entry :: z.front.drop index).length =
          z.front.length + 1 := by
        simp
        omega
      have hlist : (z.frontInsert I index entry true self).2.1.entries I =
          (z.entries I).take index ++ entry :: (z.entries I).drop index := by
        rw [TextZipper.entries, TextZipper.entries, List.take_append_of_le_length hindex,
          List.drop_append_of_le_length hindex, ← List.cons_append, ← List.append_assoc]
        rfl
      exact Prod.ext hlist hlen
  | erase index n =>
    have hle : index + n ≤ z.front.length := hfits
    refine ⟨h.frontErase index n self, ?_⟩
    have hlen : (z.front.take index ++ z.front.drop (index + n)).length =
        z.front.length - n := by
      simp
      omega
    have hlist : (z.frontErase I index n self).1.entries I =
        (z.entries I).take index ++ (z.entries I).drop (index + n) := by
      rw [TextZipper.entries, TextZipper.entries, List.take_append_of_le_length (by omega),
        List.drop_append_of_le_length hle, ← List.append_assoc]
      rfl
    exact Prod.ext hlist hlen
  | cut place delta =>
    obtain ⟨hgood, hrest⟩ := h.cut hfits
    refine ⟨hgood, ?_⟩
    simp only [Edit.act, Edit.onList]
    rw [TextZipper.entries, hrest, TextZipper.entries, List.take_left, List.drop_left]
    rfl
  | remove k =>
    refine ⟨h.backRemove hfits, ?_⟩
    simp only [Edit.act, Edit.onList]
    rw [TextZipper.entries, rest_backRemove hfits, TextZipper.entries,
      List.eraseIdx_append_of_length_le (Nat.le_add_right _ _), Nat.add_sub_cancel_left]
    rfl

/-- Edits of a zipper are the edits of its list. -/
theorem run {edits : List (Edit α)} {s : TextZipper α × ω} (h : T.Good s.1 focus)
    (hfits : Edit.FitsAll T edits s focus) :
    T.Good (edits.foldl (fun s edit => edit.act I s) s).1 (Edit.focusAfterAll edits focus) ∧
      ((edits.foldl (fun s edit => edit.act I s) s).1.entries I,
          (edits.foldl (fun s edit => edit.act I s) s).1.front.length) =
        edits.foldl (fun l edit => edit.onList T l) (s.1.entries I, s.1.front.length) := by
  induction edits generalizing s focus with
  | nil => exact ⟨h, rfl⟩
  | cons edit edits ih =>
    obtain ⟨hedit, hedits⟩ := hfits
    obtain ⟨hgood, heq⟩ := h.act hedit s.2
    obtain ⟨hgood', heq'⟩ := ih hgood hedits
    refine ⟨hgood', ?_⟩
    rw [List.foldl_cons, List.foldl_cons, heq', heq]

end Turning.Good

/-! ### The entries' types -/

/-- A line's places are its start and its end; the front alone has facts about it. -/
def linesTurning (leave : ω → ℕ → ω) : Turning (linesInterface leave) where
  Fits n line := line.start ≤ line.stop ∧ line.stop ≤ n
  shed line := { line with facts := 0 }
  shift line d := ⟨(line.start + d).toNat, (line.stop + d).toNat, 0, line.own⟩
  start_le h := h.1.trans h.2
  start_flip _ := rfl
  flip_flip := by
    rintro n ⟨start, stop, facts, own⟩ ⟨h₁, h₂⟩
    simp only at h₁ h₂
    simp only [linesInterface, InputLine.mk.injEq, and_true]
    exact ⟨Nat.sub_sub_self (h₁.trans h₂), Nat.sub_sub_self h₂⟩
  start_shed _ := rfl
  shed_shed _ := rfl
  flip_shed _ _ := rfl
  shed_flip _ _ := rfl
  fits_shed h := h
  shed_shift _ _ := rfl
  start_shift h := Int.toNat_of_nonneg h
  fits_shift := by
    rintro n ⟨start, stop, facts, own⟩ d ⟨h₁, h₂⟩ h
    simp only [linesInterface] at h₁ h₂ h ⊢
    omega
  flip_shift := by
    rintro n ⟨start, stop, facts, own⟩ d ⟨h₁, h₂⟩ h
    simp only [linesInterface] at h₁ h₂ h ⊢
    simp only [InputLine.mk.injEq, and_true]
    omega

/-- A place's start and end. -/
def reachTurning (leave : ω → ℕ → ω) : Turning (reachInterface leave) where
  Fits n place := place.1 ≤ place.2 ∧ place.2 ≤ n
  shed place := place
  shift place d := ((place.1 + d).toNat, (place.2 + d).toNat)
  start_le h := h.1.trans h.2
  start_flip _ := rfl
  flip_flip := by
    rintro n ⟨start, stop⟩ ⟨h₁, h₂⟩
    simp only at h₁ h₂
    simp only [reachInterface, Prod.mk.injEq]
    exact ⟨Nat.sub_sub_self (h₁.trans h₂), Nat.sub_sub_self h₂⟩
  start_shed _ := rfl
  shed_shed _ := rfl
  flip_shed _ _ := rfl
  shed_flip _ _ := rfl
  fits_shed h := h
  shed_shift _ _ := rfl
  start_shift h := Int.toNat_of_nonneg h
  fits_shift := by
    rintro n ⟨start, stop⟩ d ⟨h₁, h₂⟩ h
    simp only [reachInterface] at h₁ h₂ h ⊢
    omega
  flip_shift := by
    rintro n ⟨start, stop⟩ d ⟨h₁, h₂⟩ h
    simp only [reachInterface] at h₁ h₂ h ⊢
    simp only [Prod.mk.injEq]
    omega

/-- An entry whose one place is its start. -/
def startsTurning (β : Type*) (leave : ω → ℕ → ω) : Turning (startsInterface β leave) where
  Fits n entry := entry.1 ≤ n
  shed entry := entry
  shift entry d := ((entry.1 + d).toNat, entry.2)
  start_le h := h
  start_flip _ := rfl
  flip_flip := by
    rintro n ⟨start, held⟩ h
    simp only at h
    simp only [startsInterface, Prod.mk.injEq, and_true]
    exact Nat.sub_sub_self h
  start_shed _ := rfl
  shed_shed _ := rfl
  flip_shed _ _ := rfl
  shed_flip _ _ := rfl
  fits_shed h := h
  shed_shift _ _ := rfl
  start_shift h := Int.toNat_of_nonneg h
  fits_shift := by
    rintro n ⟨start, held⟩ d h₁ h
    simp only [startsInterface] at h₁ h ⊢
    omega
  flip_shift := by
    rintro n ⟨start, held⟩ d h₁ h
    simp only [startsInterface] at h₁ h ⊢
    simp only [Prod.mk.injEq, and_true]
    omega

/-! ### A zipper is an ordered list under edits -/

/-- **A zipper is an ordered list under edits.** A move of the focus keeps the sequence of entries
but for what only a front entry holds, which those it takes to the back drop, and puts the focus at
the place, or is refused and leaves the zipper as it was. Each search finds the first entry at or
past the place, as a linear scan does. A cut and the text's new end drop the back's entries before
the place and move the others with the end, the front's not at all. So any edits, in order, are the
edits of one list in order. -/
theorem zipper_is_ordered_list (T : Turning I) {z : TextZipper α} {focus : ℕ}
    (h : T.Good z focus) (self : ω) :
    (∀ index, z.entryAt I index = (z.entries I)[index]? ∧
        z.startAt I index = (z.entryAt I index).map I.start) ∧
      (∀ place size, (z.back ≠ [] → z.stop = size) →
        (∀ a ∈ z.front, place ≤ I.start a → T.Fits size a) →
        (z.move I place size true self).1 = true ∧
          T.Good (z.move I place size true self).2.1 place ∧
          (z.move I place size true self).2.1.stop = size ∧
          (∀ index, (z.move I place size true self).2.1.entryAt I index =
            (z.entryAt I index).map fun a => if I.start a < place then a else T.shed a) ∧
          (z.move I place size true self).2.1.front =
            ((z.entries I).takeWhile fun a => I.start a < place)) ∧
      (∀ place size, z.move I place size false self = (false, z, self)) ∧
      (∀ place, z.entryFrom I place = ((z.entries I).findIdx fun a => place ≤ I.start a) ∧
        z.frontFrom I place = (z.front.findIdx fun a => place ≤ I.start a) ∧
        z.backFrom I place = ((z.rest I).findIdx fun a => place ≤ I.start a)) ∧
      (∀ (place : ℕ) (delta : ℤ),
        (∀ a ∈ z.rest I, place ≤ I.start a → 0 ≤ I.start a + delta) →
        ((z.cut I place).2.grow delta).front = z.front ∧
          (z.cut I place).1 = ((z.rest I).takeWhile fun a => I.start a < place).length ∧
          ((z.cut I place).2.grow delta).rest I =
            ((z.rest I).dropWhile fun a => I.start a < place).map (T.shift · delta) ∧
          ∀ a ∈ (z.rest I).dropWhile fun a => I.start a < place,
            (I.start (T.shift a delta) : ℤ) = I.start a + delta) ∧
      ∀ edits : List (Edit α), Edit.FitsAll T edits (z, self) focus →
        T.Good (edits.foldl (fun s edit => edit.act I s) (z, self)).1
            (Edit.focusAfterAll edits focus) ∧
          ((edits.foldl (fun s edit => edit.act I s) (z, self)).1.entries I,
              (edits.foldl (fun s edit => edit.act I s) (z, self)).1.front.length) =
            edits.foldl (fun l edit => edit.onList T l) (z.entries I, z.front.length) := by
  refine ⟨?_, ?_, ?_, ?_, ?_, fun edits hfits => Turning.Good.run h hfits⟩
  · intro index
    exact ⟨TextZipper.entryAt_eq index, h.startAt_eq index⟩
  · intro place size hsize hfits
    obtain ⟨hgood, hrest⟩ := h.move hsize hfits self
    have heq := @Turning.Good.move_eq _ _ _ T z focus h place size hsize self
    refine ⟨by rw [heq], hgood, by rw [heq], ?_, by rw [heq]⟩
    intro index
    rw [TextZipper.entryAt_eq, TextZipper.entryAt_eq, ← List.getElem?_map, map_past h.ordered,
      TextZipper.entries, hrest, heq]
  · intro place size
    rfl
  · intro place
    rw [findIdx_past, findIdx_past, findIdx_past]
    exact ⟨h.entryFrom_eq place, h.frontFrom_eq place, h.backFrom_eq place⟩
  · intro place delta hdelta
    -- what a cut keeps of the back is nothing of the front's
    have hbare : T.Good { z with front := [] } 0 :=
      ⟨h.stored, h.ordered_rest, by simp, fun a _ => Nat.zero_le _⟩
    refine ⟨rfl, h.backFrom_eq place, (hbare.cut hdelta).2, ?_⟩
    intro a ha
    have hmem := (List.dropWhile_sublist _).subset ha
    exact T.start_shift (hdelta a hmem (past_of_mem_dropWhile h.ordered_rest a ha))

/-- The starts of a stem's headings. -/
def stemStarts : TextZipper (ℕ × Unit) := ⟨[(1, ()), (3, ())], [(0, ()), (5, ())], 9⟩

lemma stemStarts_good : (startsTurning Unit fun (self : Unit) _ => self).Good stemStarts 4 where
  stored := by
    intro a ha
    have hle : a.1 ≤ 9 := by
      revert a
      decide
    exact ⟨(9 - a.1, ()), Nat.sub_le _ _, Prod.ext (Nat.sub_sub_self hle).symm rfl⟩
  ordered := by decide
  front := by decide
  rest := by decide

theorem zipper_is_ordered_list_stems :
    stemStarts.entryFrom (startsInterface Unit fun (self : Unit) _ => self) 4 =
      (stemStarts.entries (startsInterface Unit fun (self : Unit) _ => self)).findIdx
        fun a => 4 ≤ a.1 :=
  ((zipper_is_ordered_list _ stemStarts_good ()).2.2.2.1 4).1

/-- A line that a move takes to the back is not the line it was: the facts about it go. -/
theorem moved_line_sheds_facts :
    let z : TextZipper InputLine := ⟨[⟨0, 3, 1, false⟩], [], 0⟩
    let I := linesInterface fun (self : Unit) _ => self
    (linesTurning fun (self : Unit) _ => self).Good z 1 ∧
      (z.move I 0 3 true ()).2.1.entryAt I 0 ≠ z.entryAt I 0 := by
  refine ⟨⟨by simp, ?_, by decide, by decide⟩, by decide⟩
  exact List.pairwise_singleton _ _

end MarkdownCore.Storage
