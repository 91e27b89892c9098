import Mathlib.Data.List.TakeWhile
import Mathlib.Data.Nat.Basic

/-!
# Bisection

A predicate on indexes that holds up to a place and fails from there on has one place where it
turns. `bisect` finds it between two bounds by halving. In a list whose entries that satisfy a
predicate come before those that do not, the place is the length of the list's longest prefix of
entries that do (`bisect_takeWhile`).
-/

namespace Bisect

/-- Halve the indexes from `low` to `high` until none is left, going up from an index that is
`below` and down from one that is not. The first argument bounds the halvings. -/
@[grind =] def bisect (below : ℕ → Bool) : ℕ → ℕ → ℕ → ℕ
  | 0, low, _ => low
  | fuel + 1, low, high =>
    if low < high then
      let middle := low + (high - low) / 2
      if below middle then bisect below fuel (middle + 1) high else bisect below fuel low middle
    else low

/-- The predicate turns at most once: what holds at an index holds at those before it. -/
def Falls (below : ℕ → Bool) : Prop := ∀ ⦃i j⦄, i ≤ j → below j = true → below i = true

lemma bisect_bounds (below : ℕ → Bool) {fuel low high : ℕ} (h : low ≤ high) :
    low ≤ bisect below fuel low high ∧ bisect below fuel low high ≤ high := by
  induction fuel generalizing low high with
  | zero => exact ⟨le_refl _, h⟩
  | succ fuel ih =>
    rw [bisect]
    dsimp only
    split
    next hlow =>
      split
      · obtain ⟨h₁, h₂⟩ := ih (show low + (high - low) / 2 + 1 ≤ high by omega)
        exact ⟨by omega, h₂⟩
      · obtain ⟨h₁, h₂⟩ := ih (show low ≤ low + (high - low) / 2 by omega)
        exact ⟨h₁, by omega⟩
    next => exact ⟨le_refl _, h⟩

/-- The index found depends on the indexes below the upper bound alone. -/
lemma bisect_congr {below below' : ℕ → Bool} {fuel low high : ℕ}
    (h : ∀ k < high, below k = below' k) :
    bisect below fuel low high = bisect below' fuel low high := by
  induction fuel generalizing low high with
  | zero => rfl
  | succ fuel ih =>
    simp only [bisect]
    by_cases hlow : low < high
    · have hmiddle : low + (high - low) / 2 < high := by omega
      rw [if_pos hlow, if_pos hlow, h _ hmiddle, ih h, ih fun k hk => h k (hk.trans hmiddle)]
    · rw [if_neg hlow, if_neg hlow]

/-- What lies between the lower bound and the index found is below. -/
lemma bisect_below {below : ℕ → Bool} (hbelow : Falls below) {fuel low high i : ℕ}
    (hlow : low ≤ i) (hi : i < bisect below fuel low high) : below i = true := by
  induction fuel generalizing low high with
  | zero => exact absurd hi (by simp only [bisect]; omega)
  | succ fuel ih =>
    rw [bisect] at hi
    dsimp only at hi
    split at hi
    · split at hi
      next hmiddle =>
        by_cases hcase : i ≤ low + (high - low) / 2
        · exact hbelow hcase hmiddle
        · exact ih (by omega) hi
      next => exact ih hlow hi
    · omega

/-- With enough halvings, the index found is the upper bound or one that is not below. -/
lemma bisect_not_below {below : ℕ → Bool} {fuel low high : ℕ} (hfuel : high - low ≤ fuel)
    (hfound : bisect below fuel low high < high) :
    below (bisect below fuel low high) = false := by
  induction fuel generalizing low high with
  | zero => exact absurd hfound (by simp only [bisect]; omega)
  | succ fuel ih =>
    rw [bisect] at hfound ⊢
    dsimp only at hfound ⊢
    split at hfound
    next hlow =>
      rw [if_pos hlow]
      split at hfound
      next hmiddle =>
        rw [if_pos hmiddle]
        exact ih (by omega) hfound
      next hmiddle =>
        rw [if_neg hmiddle]
        have hle : bisect below fuel low (low + (high - low) / 2) ≤ low + (high - low) / 2 :=
          (bisect_bounds below (Nat.le_add_right _ _)).2
        by_cases hmid : bisect below fuel low (low + (high - low) / 2) < low + (high - low) / 2
        · exact ih (by omega) hmid
        · rw [le_antisymm hle (not_lt.mp hmid)]
          simpa using hmiddle
    next hlow => omega

/-- Where a predicate falls is where the bisection ends. -/
theorem bisect_eq {below : ℕ → Bool} (hbelow : Falls below) {fuel low high turn : ℕ}
    (hfuel : high - low ≤ fuel) (hlow : low ≤ turn) (hhigh : turn ≤ high)
    (hbefore : ∀ i < turn, low ≤ i → below i = true)
    (hfrom : turn < high → below turn = false) :
    bisect below fuel low high = turn := by
  have hbounds : low ≤ bisect below fuel low high ∧ bisect below fuel low high ≤ high :=
    bisect_bounds below (le_trans hlow hhigh)
  obtain ⟨h₁, h₂⟩ := hbounds
  rcases lt_trichotomy (bisect below fuel low high) turn with h | h | h
  · have := bisect_not_below hfuel (lt_of_lt_of_le h hhigh)
    rw [hbefore _ h h₁] at this
    exact absurd this (by simp)
  · exact h
  · have := bisect_below hbelow hlow h
    rw [hfrom (lt_of_lt_of_le h h₂)] at this
    exact absurd this (by simp)

/-- A predicate that, between the bounds, holds of the indexes before a place alone ends the
bisection there, whatever it is outside them. -/
theorem bisect_of_lt {below : ℕ → Bool} {turn : ℕ} :
    ∀ {fuel low high : ℕ}, high - low ≤ fuel → low ≤ turn → turn ≤ high →
      (∀ k, low ≤ k → k < high → (below k = true ↔ k < turn)) →
      bisect below fuel low high = turn := by
  intro fuel
  induction fuel with
  | zero =>
    intro low high hfuel hlow hhigh _
    rw [bisect]
    omega
  | succ fuel ih =>
    intro low high hfuel hlow hhigh h
    rw [bisect]
    dsimp only
    split
    next hlt =>
      have hmiddle := h (low + (high - low) / 2) (Nat.le_add_right _ _) (by omega)
      split
      next hbelow =>
        exact ih (by omega) (hmiddle.mp hbelow) hhigh fun k hk => h k (by omega)
      next hbelow =>
        have hle : turn ≤ low + (high - low) / 2 := not_lt.mp fun hlt => hbelow (hmiddle.mpr hlt)
        exact ih (by omega) hlow hle fun k hk hk' => h k hk (by omega)
    next hge => omega

/-! ### The last index before the turn -/

/-- Halve the indexes from `low` to `high` until one is left, going up to an index that is `below`
and down past one that is not. -/
def last (below : ℕ → Bool) : ℕ → ℕ → ℕ → ℕ
  | 0, low, _ => low
  | fuel + 1, low, high =>
    if low < high then
      let middle := low + (high - low + 1) / 2
      if below middle then last below fuel middle high else last below fuel low (middle - 1)
    else low

/-- Where the lower bound is below, the index found is too, and no later one up to the upper
bound is. -/
theorem last_spec {below : ℕ → Bool} {fuel low high : ℕ}
    (hbelow : ∀ ⦃i j⦄, i ≤ j → j ≤ high → below j = true → below i = true)
    (hfuel : high - low ≤ fuel) (hle : low ≤ high) (hlow : below low = true) :
    last below fuel low high ≤ high ∧ below (last below fuel low high) = true ∧
      ∀ i, last below fuel low high < i → i ≤ high → below i = false := by
  induction fuel generalizing low high with
  | zero =>
    refine ⟨hle, hlow, fun i hi hi' => ?_⟩
    simp only [last] at hi
    omega
  | succ fuel ih =>
    rw [last]
    dsimp only
    split
    next hlt =>
      split
      next hmiddle => exact ih hbelow (by omega) (by omega) hmiddle
      next hmiddle =>
        obtain ⟨h₁, h₂, h₃⟩ := ih
          (fun i j hij (hj : j ≤ low + (high - low + 1) / 2 - 1) => hbelow hij (by omega))
          (by omega) (by omega) hlow
        refine ⟨by omega, h₂, fun i hi hi' => ?_⟩
        by_cases hcase : i ≤ low + (high - low + 1) / 2 - 1
        · exact h₃ i hi hcase
        · -- past the middle, as at it, the predicate fails
          refine Bool.eq_false_iff.mpr fun hi'' => ?_
          exact absurd (hbelow (by omega) hi' hi'') hmiddle
    next hge => exact ⟨hle, hlow, fun i hi hi' => by omega⟩

/-- Keep an index and how many from it on are left, and move the index up half of them where the
predicate holds there. -/
def stride (below : ℕ → Bool) : ℕ → ℕ → ℕ → ℕ
  | 0, index, _ => index
  | fuel + 1, index, count =>
    if 1 < count then
      let half := count / 2
      stride below fuel (if below (index + half) then index + half else index) (count - half)
    else index

/-- The index found is the first or one that is below, and no later one is. -/
theorem stride_spec {below : ℕ → Bool} {fuel index count : ℕ}
    (hbelow : ∀ ⦃i j⦄, i ≤ j → j < index + count → below j = true → below i = true)
    (hfuel : count ≤ fuel) (hcount : 0 < count) :
    stride below fuel index count < index + count ∧
      (stride below fuel index count = index ∨ below (stride below fuel index count) = true) ∧
      ∀ i, stride below fuel index count < i → i < index + count → below i = false := by
  induction fuel generalizing index count with
  | zero => omega
  | succ fuel ih =>
    rw [stride]
    by_cases hone : 1 < count
    · rw [if_pos hone]
      by_cases hhalf : below (index + count / 2) = true
      · simp only [if_pos hhalf]
        have hend : index + count / 2 + (count - count / 2) = index + count := by omega
        have hrest := @ih (index + count / 2) (count - count / 2)
          (fun i j hij hj => hbelow hij (by omega)) (by omega) (by omega)
        rw [hend] at hrest
        obtain ⟨h₁, h₂, h₃⟩ := hrest
        refine ⟨h₁, .inr ?_, h₃⟩
        rcases h₂ with heq | hfound
        · rw [heq]
          exact hhalf
        · exact hfound
      · simp only [if_neg hhalf]
        obtain ⟨h₁, h₂, h₃⟩ := @ih index (count - count / 2)
          (fun i j hij hj => hbelow hij (by omega)) (by omega) (by omega)
        refine ⟨by omega, h₂, ?_⟩
        intro i hi hi'
        by_cases hcase : i < index + (count - count / 2)
        · exact h₃ i hi hcase
        · -- past the half, as at it, the predicate fails
          apply Bool.eq_false_iff.mpr
          intro hi''
          exact absurd (hbelow (by omega) hi' hi'') hhalf
    · rw [if_neg hone]
      exact ⟨by omega, .inl rfl, fun i hi hi' => by omega⟩

/-! ### Lists -/

variable {α : Type*}

/-- Entries that satisfy the predicate come before those that do not. -/
def Divided (p : α → Bool) (l : List α) : Prop := l.Pairwise fun a b => p b = true → p a = true

lemma Divided.falls {p : α → Bool} {l : List α} (h : Divided p l) :
    Falls fun i => (l[i]?).any p := by
  intro i j hij hj
  rcases Nat.lt_or_eq_of_le hij with hlt | rfl
  · simp only [Option.any_eq_true] at hj ⊢
    obtain ⟨b, hb, hpb⟩ := hj
    obtain ⟨hjl, rfl⟩ := List.getElem?_eq_some_iff.mp hb
    refine ⟨l[i], List.getElem?_eq_getElem (lt_trans hlt hjl), ?_⟩
    exact List.pairwise_iff_getElem.mp h i j _ _ hlt hpb
  · exact hj

/-- Past its part that satisfies the predicate, no entry of a divided list does. -/
lemma Divided.of_mem_dropWhile {p : α → Bool} {l : List α} (h : Divided p l) {a : α}
    (ha : a ∈ l.dropWhile p) : p a = false := by
  cases hdrop : l.dropWhile p with
  | nil => simp [hdrop] at ha
  | cons first rest =>
    have hfirst : p first = false := by
      have hnot := List.head?_dropWhile_not p l
      rw [hdrop] at hnot
      simpa using hnot
    have hdivided : Divided p (first :: rest) := by
      rw [← hdrop]
      exact h.sublist (List.dropWhile_sublist _)
    rw [hdrop] at ha
    rcases List.mem_cons.mp ha with rfl | ha
    · exact hfirst
    · refine Bool.eq_false_iff.mpr fun htrue => ?_
      exact Bool.eq_false_iff.mp hfirst ((List.pairwise_cons.mp hdivided).1 a ha htrue)

/-- An entry of a divided list satisfies the predicate in the part that does. -/
lemma Divided.getElem_iff {p : α → Bool} {l : List α} (h : Divided p l) {i : ℕ}
    (hi : i < l.length) : p l[i] = true ↔ i < (l.takeWhile p).length := by
  have hsplit := List.takeWhile_append_dropWhile (p := p) (l := l)
  constructor
  · intro hp
    by_contra hge
    have hget := @List.getElem?_append_right α (l.takeWhile p) (l.dropWhile p) i (not_lt.mp hge)
    rw [hsplit, List.getElem?_eq_getElem hi] at hget
    rw [h.of_mem_dropWhile (List.mem_of_getElem? hget.symm)] at hp
    exact Bool.false_ne_true hp
  · intro hlt
    have hget := @List.getElem?_append_left α (l.takeWhile p) (l.dropWhile p) i hlt
    rw [hsplit, List.getElem?_eq_getElem hi, List.getElem?_eq_getElem hlt] at hget
    rw [Option.some.inj hget]
    exact List.mem_takeWhile_imp (List.getElem_mem hlt)

/-- The bisection of a divided list finds the length of its part that satisfies the predicate. -/
theorem bisect_takeWhile {p : α → Bool} {l : List α} (h : Divided p l) :
    bisect (fun i => (l[i]?).any p) l.length 0 l.length = (l.takeWhile p).length := by
  have hsplit := List.takeWhile_append_dropWhile (p := p) (l := l)
  have hle := (List.takeWhile_prefix p (l := l)).length_le
  refine bisect_eq h.falls (by omega) (Nat.zero_le _) hle ?_ ?_
  · intro i hi _
    have hget := @List.getElem?_append_left α (l.takeWhile p) (l.dropWhile p) i hi
    rw [hsplit, List.getElem?_eq_getElem hi] at hget
    have hp : p (l.takeWhile p)[i] = true := List.mem_takeWhile_imp (List.getElem_mem hi)
    simpa [hget] using hp
  · intro hlt
    have hget := @List.getElem?_append_right α (l.takeWhile p) (l.dropWhile p) _ (le_refl _)
    rw [hsplit, Nat.sub_self] at hget
    rw [hget]
    cases hdrop : l.dropWhile p with
    | nil => rfl
    | cons a rest =>
      have := List.head?_dropWhile_not p l
      rw [hdrop] at this
      simpa using this

end Bisect
