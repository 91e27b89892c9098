import Mathlib.Data.List.Basic
import Mathlib.Data.Nat.Bitwise

/-!
# Open-addressed tables probed linearly

A table of records keyed by what `Keys.key` reads off them. A record stands in the first slot from
its home that was empty when it came; an erasure shifts the records after it back, so that no
tombstone stays and a lookup ends at the first empty slot.

`Table.Ok` is what the operations keep: keys are distinct, and every slot from a record's home to
the record is taken. With a slot empty, `find` gives the record of a key wherever it stands
(`Table.Ok.find_eq_some_iff`), and `put`, `vacate` and `widen` change what the table holds as an
insertion, an erasure and a copy do.
-/

namespace Probe

/-- What a record is kept under, and the hash of a key. -/
structure Keys (ρ κ : Type*) where
  key : ρ → κ
  hash : κ → ℕ

/-- The slots of a table, whose number is a power of two. -/
abbrev Table (ρ : Type*) := List (Option ρ)

namespace Table

variable {ρ κ : Type*} (K : Keys ρ κ) (slots : Table ρ)

/-- What stands in a slot. -/
def slot (at' : ℕ) : Option ρ := slots.getD at' none

def wrap (n : ℕ) : ℕ := n &&& (slots.length - 1)

/-- The slot that holds the record of a key, or the empty slot where it would go. The first
argument bounds the slots looked at. -/
def probeFrom [DecidableEq κ] (k : κ) : ℕ → ℕ → ℕ
  | 0, at' => at'
  | fuel + 1, at' =>
    match slots.slot at' with
    | none => at'
    | some held =>
      if K.hash (K.key held) = K.hash k ∧ K.key held = k then at'
      else probeFrom k fuel (slots.wrap (at' + 1))

def probe [DecidableEq κ] (k : κ) : ℕ := probeFrom K slots k slots.length (slots.wrap (K.hash k))

def find [DecidableEq κ] (k : κ) : Option ρ := slots.slot (slots.probe K k)

/-- The record in the slot its key is probed to. -/
def put [DecidableEq κ] (r : ρ) : Table ρ := slots.set (slots.probe K (K.key r)) (some r)

/-- Every record of a row of slots, put one after another. -/
def putAll [DecidableEq κ] (slots : Table ρ) : List (Option ρ) → Table ρ
  | [] => slots
  | none :: old => putAll slots old
  | some r :: old => putAll (slots.put K r) old

/-- The records in a table twice as large. -/
def widen [DecidableEq κ] : Table ρ := putAll K (List.replicate (slots.length * 2) none) slots

/-- Whether a record stays where it stands: its home lies cyclically past `at'` and not past
`next`. -/
def stays (at' next home : ℕ) : Bool :=
  if at' ≤ next then decide (at' < home) && decide (home ≤ next)
  else decide (at' < home) || decide (home ≤ next)

/-- Move back each record from `next` on that a probe would no longer reach past the empty slot
`at'`, up to the first empty slot. -/
def shiftFrom (slots : Table ρ) : ℕ → ℕ → ℕ → Table ρ
  | 0, _, _ => slots
  | fuel + 1, at', next =>
    match slots.slot next with
    | none => slots
    | some held =>
      if stays at' next (slots.wrap (K.hash (K.key held))) then
        shiftFrom slots fuel at' (slots.wrap (next + 1))
      else shiftFrom ((slots.set at' (some held)).set next none) fuel next (slots.wrap (next + 1))

/-- Empty a slot. -/
def vacate (at' : ℕ) : Table ρ :=
  shiftFrom K (slots.set at' none) slots.length at' (slots.wrap (at' + 1))

/-- The number of slots taken. -/
def held : ℕ := slots.countP Option.isSome

/-! ### What a table holds -/

/-- The record stands somewhere in the table. -/
def Holds (r : ρ) : Prop := ∃ i, slots.slot i = some r

/-- The slots from one to another, going round. -/
def steps (n i j : ℕ) : ℕ := if i ≤ j then j - i else n + j - i

/-- Every slot from the home of each record to it is taken, with those of `P` let through. -/
def Reached (P : ℕ → Prop) : Prop :=
  ∀ i r, slots.slot i = some r → ∀ j < slots.length,
    steps slots.length (slots.wrap (K.hash (K.key r))) j <
      steps slots.length (slots.wrap (K.hash (K.key r))) i →
    (slots.slot j).isSome ∨ P j

/-- No two slots hold records of one key. -/
def Distinct : Prop :=
  ∀ i j r s, slots.slot i = some r → slots.slot j = some s → K.key r = K.key s → i = j

/-- What the operations keep. -/
structure Ok : Prop where
  power : ∃ m, slots.length = 2 ^ m
  distinct : Distinct K slots
  reached : Reached K slots fun _ => False

/-- A slot is empty. -/
def Room : Prop := ∃ i < slots.length, slots.slot i = none

variable {K slots}

lemma slot_set (i j : ℕ) (o : Option ρ) :
    slot (slots.set i o) j = if i = j ∧ i < slots.length then o else slots.slot j := by
  simp only [slot, List.getD_eq_getElem?_getD, List.getElem?_set]
  by_cases hij : i = j
  · subst hij
    by_cases hi : i < slots.length
    · simp [hi]
    · simp [hi]
  · simp [hij]

lemma lt_of_slot {i : ℕ} {r : ρ} (h : slots.slot i = some r) : i < slots.length := by
  by_contra hge
  rw [slot, List.getD_eq_default _ _ (not_lt.mp hge)] at h
  exact absurd h (by simp)

lemma set_slot (slots : Table ρ) (i : ℕ) : slots.set i (slots.slot i) = slots := by
  rcases Nat.lt_or_ge i slots.length with hi | hi
  · rw [slot, List.getD_eq_getElem _ _ hi, List.set_getElem_self]
  · exact List.set_eq_of_length_le hi

@[simp] lemma length_put [DecidableEq κ] (r : ρ) : (slots.put K r).length = slots.length := List.length_set

lemma wrap_eq (h : ∃ m, slots.length = 2 ^ m) (n : ℕ) : slots.wrap n = n % slots.length := by
  obtain ⟨m, hm⟩ := h
  rw [wrap, hm, Nat.and_two_pow_sub_one_eq_mod]

lemma length_pos (h : ∃ m, slots.length = 2 ^ m) : 0 < slots.length := by
  obtain ⟨m, hm⟩ := h
  exact hm ▸ Nat.two_pow_pos m

lemma wrap_lt (h : ∃ m, slots.length = 2 ^ m) (n : ℕ) : slots.wrap n < slots.length := by
  rw [wrap_eq h]
  exact Nat.mod_lt n (length_pos h)

lemma wrap_succ (h : ∃ m, slots.length = 2 ^ m) {n : ℕ} (hn : n < slots.length) :
    slots.wrap (n + 1) = if n + 1 = slots.length then 0 else n + 1 := by
  rw [wrap_eq h]
  split
  next heq => rw [heq, Nat.mod_self]
  next hne => exact Nat.mod_eq_of_lt (by omega)

lemma wrap_congr {slots' : Table ρ} (h : slots'.length = slots.length) (n : ℕ) :
    slots'.wrap n = slots.wrap n := by
  rw [wrap, wrap, h]

/-! ### Going round -/

lemma steps_cases (n i j : ℕ) :
    (i ≤ j ∧ steps n i j = j - i) ∨ (j < i ∧ steps n i j = n + j - i) := by
  rw [steps]
  split
  next h => exact Or.inl ⟨h, rfl⟩
  next h => exact Or.inr ⟨not_le.mp h, rfl⟩

lemma wrap_succ_cases (h : ∃ m, slots.length = 2 ^ m) {n : ℕ} (hn : n < slots.length) :
    (n + 1 = slots.length ∧ slots.wrap (n + 1) = 0) ∨
      (n + 1 < slots.length ∧ slots.wrap (n + 1) = n + 1) := by
  rw [wrap_succ h hn]
  split
  next heq => exact Or.inl ⟨heq, rfl⟩
  next hne => exact Or.inr ⟨by omega, rfl⟩

lemma steps_self (n i : ℕ) : steps n i i = 0 := by
  rw [steps, if_pos (le_refl i), Nat.sub_self]

lemma steps_lt {n i j : ℕ} (hi : i < n) (hj : j < n) : steps n i j < n := by
  have h := steps_cases n i j
  omega

lemma steps_pos {n i j : ℕ} (hi : i < n) (hne : i ≠ j) : 0 < steps n i j := by
  have h := steps_cases n i j
  omega

/-- The way by a third slot is the way, or once round more. -/
lemma steps_add {n i j : ℕ} (hi : i < n) (hj : j < n) (k : ℕ) :
    steps n i j + steps n j k = steps n i k ∨ steps n i j + steps n j k = steps n i k + n := by
  have h₁ := steps_cases n i j
  have h₂ := steps_cases n j k
  have h₃ := steps_cases n i k
  omega

lemma steps_wrap (h : ∃ m, slots.length = 2 ^ m) {i : ℕ} (hi : i < slots.length)
    (hlen : 1 < slots.length) : steps slots.length i (slots.wrap (i + 1)) = 1 := by
  rcases wrap_succ_cases h hi with ⟨heq, hwrap⟩ | ⟨hlt, hwrap⟩
  · rw [hwrap, steps, if_neg (by omega)]
    omega
  · rw [hwrap, steps, if_pos (Nat.le_succ i), Nat.add_sub_cancel_left]

/-- A step on from a slot brings every other slot one step nearer. -/
lemma steps_wrap_succ (h : ∃ m, slots.length = 2 ^ m) {i e : ℕ} (hi : i < slots.length)
    (he : e < slots.length) (hne : i ≠ e) :
    steps slots.length (slots.wrap (i + 1)) e + 1 = steps slots.length i e := by
  have hone := steps_wrap h hi (by omega)
  have hlt := steps_lt (wrap_lt h (i + 1)) he
  have hpos := steps_pos hi hne
  rcases steps_add hi (wrap_lt h (i + 1)) e with hway | hround
  · rw [← hway, hone, Nat.add_comm]
  · omega

/-- A step on from a slot that another stands past is one step further from the home. -/
lemma steps_of_wrap_succ (h : ∃ m, slots.length = 2 ^ m) {home i e : ℕ}
    (hhome : home < slots.length) (hi : i < slots.length) (he : e < slots.length)
    (hlt : steps slots.length home i < steps slots.length home e) :
    steps slots.length home (slots.wrap (i + 1)) = steps slots.length home i + 1 := by
  have hend := steps_lt hhome he
  have hone := steps_wrap h hi (by omega)
  rcases steps_add hhome hi (slots.wrap (i + 1)) with hway | hround
  · rw [← hway, hone]
  · omega

lemma steps_inj {n home i j : ℕ} (hhome : home < n) (hi : i < n) (hj : j < n)
    (h : steps n home i = steps n home j) : i = j := by
  have h₁ := steps_cases n home i
  have h₂ := steps_cases n home j
  omega

/-! ### Probing -/

section Probing

variable [DecidableEq κ]

/-- Every slot from the key's home to `i` is taken, and by another key's record. -/
def Passed (K : Keys ρ κ) (slots : Table ρ) (k : κ) (i : ℕ) : Prop :=
  ∀ j < slots.length, steps slots.length (slots.wrap (K.hash k)) j <
    steps slots.length (slots.wrap (K.hash k)) i → ∃ r, slots.slot j = some r ∧ K.key r ≠ k

/-- The probe ends at an empty slot or at the key's record, and passes other keys' records only. -/
lemma probeFrom_spec (hpower : ∃ m, slots.length = 2 ^ m) {k : κ} {e fuel i : ℕ}
    (he : e < slots.length) (hempty : slots.slot e = none) (hi : i < slots.length)
    (hfuel : steps slots.length i e < fuel)
    (hbefore : steps slots.length (slots.wrap (K.hash k)) i ≤
      steps slots.length (slots.wrap (K.hash k)) e)
    (hpassed : Passed K slots k i) :
    probeFrom K slots k fuel i < slots.length ∧ Passed K slots k (probeFrom K slots k fuel i) ∧
      ∀ r, slots.slot (probeFrom K slots k fuel i) = some r → K.key r = k := by
  have hhome := wrap_lt hpower (K.hash k)
  induction fuel generalizing i with
  | zero => exact absurd hfuel (Nat.not_lt_zero _)
  | succ fuel ih =>
    rw [probeFrom]
    cases hslot : slots.slot i with
    | none =>
      refine ⟨hi, hpassed, ?_⟩
      intro r hr
      rw [hslot] at hr
      exact absurd hr (by simp)
    | some held =>
      dsimp only
      split
      next hkey =>
        refine ⟨hi, hpassed, ?_⟩
        intro r hr
        rw [hslot, Option.some.injEq] at hr
        exact hr ▸ hkey.2
      next hkey =>
        have hother : K.key held ≠ k := fun h => hkey ⟨by rw [h], h⟩
        have hne : i ≠ e := by
          rintro rfl
          rw [hempty] at hslot
          exact absurd hslot (by simp)
        have hlt : steps slots.length (slots.wrap (K.hash k)) i <
            steps slots.length (slots.wrap (K.hash k)) e :=
          lt_of_le_of_ne hbefore fun h => hne (steps_inj hhome hi he h)
        have hnear := steps_wrap_succ hpower hi he hne
        have hfar := steps_of_wrap_succ hpower hhome hi he hlt
        refine ih (wrap_lt hpower _) (by omega) (by omega) ?_
        intro j hj hstep
        by_cases hji : j = i
        · exact ⟨held, hji ▸ hslot, hother⟩
        · refine hpassed j hj (lt_of_le_of_ne (by omega) fun h => hji (steps_inj hhome hj hi h))

lemma probe_spec (hpower : ∃ m, slots.length = 2 ^ m) (hroom : slots.Room) (k : κ) :
    slots.probe K k < slots.length ∧ Passed K slots k (slots.probe K k) ∧
      ∀ r, slots.slot (slots.probe K k) = some r → K.key r = k := by
  obtain ⟨e, he, hempty⟩ := hroom
  have hhome := wrap_lt hpower (K.hash k)
  have hself := steps_cases slots.length (slots.wrap (K.hash k)) (slots.wrap (K.hash k))
  have hend := steps_cases slots.length (slots.wrap (K.hash k)) e
  refine probeFrom_spec hpower he hempty hhome (by omega) (by omega) ?_
  intro j _ hj
  omega

/-- The probe of a key stops at its record, wherever that stands. -/
lemma Ok.probe_eq (h : Ok K slots) (hroom : slots.Room) {i : ℕ} {r : ρ}
    (hr : slots.slot i = some r) : slots.probe K (K.key r) = i := by
  obtain ⟨hlt, hpassed, hkey⟩ := probe_spec (K := K) h.power hroom (K.key r)
  have hi := lt_of_slot hr
  set at' := slots.probe K (K.key r)
  set home := slots.wrap (K.hash (K.key r))
  rcases lt_trichotomy (steps slots.length home at') (steps slots.length home i) with hs | hs | hs
  · -- The slot it stops at is taken, as every slot up to the record is.
    rcases h.reached i r hr at' hlt hs with htaken | hfalse
    · obtain ⟨s, hs⟩ := Option.isSome_iff_exists.mp htaken
      exact h.distinct _ _ _ _ hs hr (hkey s hs)
    · exact hfalse.elim
  · exact steps_inj (wrap_lt h.power _) hlt hi hs
  · obtain ⟨s, hs, hne⟩ := hpassed i hi hs
    rw [hr, Option.some.injEq] at hs
    exact absurd (congrArg K.key hs.symm) hne

/-- What a key is found to have is the record the table holds under it. -/
theorem Ok.find_eq_some_iff (h : Ok K slots) (hroom : slots.Room) {k : κ} {r : ρ} :
    slots.find K k = some r ↔ slots.Holds r ∧ K.key r = k := by
  constructor
  · intro hfind
    exact ⟨⟨_, hfind⟩, (probe_spec h.power hroom k).2.2 r hfind⟩
  · rintro ⟨⟨i, hi⟩, rfl⟩
    rw [find, h.probe_eq hroom hi, hi]

lemma Ok.find_eq_none_iff (h : Ok K slots) (hroom : slots.Room) {k : κ} :
    slots.find K k = none ↔ ∀ r, slots.Holds r → K.key r ≠ k := by
  constructor
  · intro hfind r hr hkey
    rw [(h.find_eq_some_iff hroom).mpr ⟨hr, hkey⟩] at hfind
    exact absurd hfind (by simp)
  · intro hnone
    cases hfind : slots.find K k with
    | none => rfl
    | some r =>
      obtain ⟨hr, hkey⟩ := (h.find_eq_some_iff hroom).mp hfind
      exact absurd hkey (hnone r hr)

/-! ### Putting a record in -/

lemma slot_put (h : slots.probe K (K.key r) < slots.length) (j : ℕ) :
    (slots.put K r).slot j = if slots.probe K (K.key r) = j then some r else slots.slot j := by
  rw [put, slot_set]
  by_cases hj : slots.probe K (K.key r) = j
  · rw [if_pos ⟨hj, h⟩, if_pos hj]
  · rw [if_neg fun hand => hj hand.1, if_neg hj]

lemma holds_put (h : Ok K slots) (hroom : slots.Room) {r s : ρ} :
    (slots.put K r).Holds s ↔ s = r ∨ (slots.Holds s ∧ K.key s ≠ K.key r) := by
  obtain ⟨hlt, -, hkey⟩ := probe_spec (K := K) h.power hroom (K.key r)
  constructor
  · rintro ⟨j, hj⟩
    rw [slot_put hlt] at hj
    split at hj
    · exact Or.inl (Option.some.injEq _ _ ▸ hj).symm
    next hne =>
      refine Or.inr ⟨⟨j, hj⟩, fun heq => hne ?_⟩
      rw [← heq]
      exact h.probe_eq hroom hj
  · rintro (rfl | ⟨⟨j, hj⟩, hne⟩)
    · exact ⟨slots.probe K (K.key s), by rw [slot_put hlt, if_pos rfl]⟩
    · refine ⟨j, ?_⟩
      rw [slot_put hlt, if_neg, hj]
      rintro rfl
      exact hne (hkey s hj)

theorem Ok.put (h : Ok K slots) (hroom : slots.Room) (r : ρ) : Ok K (slots.put K r) := by
  obtain ⟨hlt, hpassed, hkey⟩ := probe_spec (K := K) h.power hroom (K.key r)
  have hlen : (slots.put K r).length = slots.length := length_put r
  refine ⟨by rw [hlen]; exact h.power, ?_, ?_⟩
  · intro i j s t hi hj hst
    rw [slot_put hlt] at hi hj
    split at hi <;> split at hj
    next h₁ h₂ => exact h₁ ▸ h₂
    next h₁ h₂ =>
      rw [Option.some.injEq] at hi
      rw [← h.probe_eq hroom hj, ← hst, ← hi, h₁]
    next h₁ h₂ =>
      rw [Option.some.injEq] at hj
      rw [← h.probe_eq hroom hi, hst, ← hj, h₂]
    next h₁ h₂ => exact h.distinct i j s t hi hj hst
  · intro i s hi j hj hstep
    rw [hlen] at hj hstep
    rw [wrap_congr hlen] at hstep
    refine Or.inl ?_
    rw [slot_put hlt] at hi ⊢
    split at hi
    next hp =>
      rw [Option.some.injEq] at hi
      subst hi hp
      obtain ⟨t, ht, -⟩ := hpassed j hj hstep
      split
      · rfl
      · rw [ht]; rfl
    next hp =>
      rcases h.reached i s hi j hj hstep with htaken | hfalse
      · split
        · rfl
        · exact htaken
      · exact hfalse.elim

end Probing

/-! ### Counting -/

lemma getElem_eq_slot {i : ℕ} (hi : i < slots.length) : slots[i] = slots.slot i := by
  rw [slot, List.getD_eq_getElem _ _ hi]

lemma room_of_held_lt (h : slots.held < slots.length) : slots.Room := by
  by_contra hroom
  refine absurd (List.countP_eq_length.mpr ?_) (ne_of_lt h)
  intro o ho
  obtain ⟨i, hi, rfl⟩ := List.getElem_of_mem ho
  rw [getElem_eq_slot hi, Option.isSome_iff_ne_none]
  exact fun hnone => hroom ⟨i, hi, hnone⟩

lemma held_set {i : ℕ} (hi : i < slots.length) (o : Option ρ) :
    held (slots.set i o) + (if (slots.slot i).isSome then 1 else 0) =
      slots.held + if o.isSome then 1 else 0 := by
  have hset := List.countP_set (p := Option.isSome) (a := o) hi
  rw [getElem_eq_slot hi] at hset
  have hle : (slots.slot i).isSome = true → 0 < slots.held := by
    intro hsome
    refine List.countP_pos_iff.mpr ⟨slots[i], List.getElem_mem hi, ?_⟩
    rw [getElem_eq_slot hi]
    exact hsome
  rw [held, held, hset]
  split
  next hsome =>
    have := hle hsome
    rw [held] at this
    omega
  next => omega

lemma held_put [DecidableEq κ] (h : Ok K slots) (hroom : slots.Room) (r : ρ) :
    (slots.put K r).held =
      if (slots.find K (K.key r)).isSome then slots.held else slots.held + 1 := by
  have hset := held_set (probe_spec (K := K) h.power hroom (K.key r)).1 (some r)
  rw [Table.put, find]
  split
  next hsome => simpa [hsome] using hset
  next hnone => simpa [hnone] using hset

lemma holds_iff_mem {r : ρ} : slots.Holds r ↔ some r ∈ slots := by
  constructor
  · rintro ⟨i, hi⟩
    have hlt := lt_of_slot hi
    rw [← hi, ← getElem_eq_slot hlt]
    exact List.getElem_mem hlt
  · intro hr
    obtain ⟨i, hi, heq⟩ := List.getElem_of_mem hr
    exact ⟨i, by rw [← getElem_eq_slot hi, heq]⟩

/-! ### A wider table -/

/-- Every record of a list put into a table that has room for all of them and holds none of their
keys. -/
lemma Ok.putAll [DecidableEq κ] {l : List (Option ρ)} (h : Ok K slots)
    (hroom : slots.held + l.countP Option.isSome < slots.length)
    (hnew : ∀ r, some r ∈ l → ∀ s, slots.Holds s → K.key s ≠ K.key r)
    (hdistinct : l.Pairwise fun a b => ∀ r ∈ a, ∀ s ∈ b, K.key r ≠ K.key s) :
    Ok K (slots.putAll K l) ∧ (slots.putAll K l).length = slots.length ∧
      (slots.putAll K l).held = slots.held + l.countP Option.isSome ∧
      ∀ s, (slots.putAll K l).Holds s ↔ slots.Holds s ∨ some s ∈ l := by
  induction l generalizing slots with
  | nil => exact ⟨h, rfl, rfl, fun s => by simp [Table.putAll]⟩
  | cons o l ih =>
    obtain ⟨hhead, htail⟩ := List.pairwise_cons.mp hdistinct
    cases o with
    | none =>
      simp only [Table.putAll, List.countP_cons, Option.isSome_none, Bool.false_eq_true, if_false,
        Nat.add_zero] at hroom ⊢
      obtain ⟨hok, hlen, hheld, hholds⟩ :=
        ih h hroom (fun r hr => hnew r (List.mem_cons_of_mem _ hr)) htail
      refine ⟨hok, hlen, hheld, fun s => ?_⟩
      rw [hholds s, List.mem_cons]
      simp
    | some r =>
      simp only [Table.putAll, List.countP_cons, Option.isSome_some, if_true] at hroom ⊢
      have hplace : slots.Room := room_of_held_lt (by omega)
      have hfresh : slots.find K (K.key r) = none :=
        (h.find_eq_none_iff hplace).mpr (hnew r (List.mem_cons_self ..))
      have hcount : (slots.put K r).held = slots.held + 1 := by
        rw [held_put h hplace, hfresh]
        rfl
      have hlen : (slots.put K r).length = slots.length := length_put r
      have hnext : ∀ t, some t ∈ l → ∀ s, (slots.put K r).Holds s → K.key s ≠ K.key t := by
        intro t ht s hs
        rcases (holds_put h hplace).mp hs with rfl | ⟨hs, -⟩
        · exact hhead _ ht _ rfl _ rfl
        · exact hnew t (List.mem_cons_of_mem _ ht) s hs
      obtain ⟨hok, hlen', hheld, hholds⟩ := ih (h.put hplace r) (by omega) hnext htail
      refine ⟨hok, hlen'.trans hlen, by omega, fun s => ?_⟩
      rw [hholds s, holds_put h hplace, List.mem_cons, Option.some.injEq]
      constructor
      · rintro ((rfl | ⟨hs, -⟩) | hs)
        · exact Or.inr (Or.inl rfl)
        · exact Or.inl hs
        · exact Or.inr (Or.inr hs)
      · rintro (hs | rfl | hs)
        · exact Or.inl (Or.inr ⟨hs, hnew r (List.mem_cons_self ..) s hs⟩)
        · exact Or.inl (Or.inl rfl)
        · exact Or.inr hs

lemma slot_replicate (n i : ℕ) : slot (List.replicate n (none : Option ρ)) i = none := by
  rw [slot, List.getD_eq_getElem?_getD, List.getElem?_replicate]
  split <;> rfl

/-- An empty table. -/
lemma ok_replicate (m : ℕ) : Ok K (List.replicate (2 ^ m) none) := by
  refine ⟨⟨m, List.length_replicate⟩, ?_, ?_⟩
  · intro i j r s hi
    rw [slot_replicate] at hi
    exact absurd hi (by simp)
  · intro i r hi
    rw [slot_replicate] at hi
    exact absurd hi (by simp)

lemma held_replicate (n : ℕ) : held (List.replicate n (none : Option ρ)) = 0 := by
  simp [held, List.countP_replicate]

lemma Ok.pairwise (h : Ok K slots) :
    slots.Pairwise fun a b => ∀ r ∈ a, ∀ s ∈ b, K.key r ≠ K.key s := by
  rw [List.pairwise_iff_getElem]
  intro i j hi hj hij r hr s hs heq
  rw [getElem_eq_slot hi] at hr
  rw [getElem_eq_slot hj] at hs
  exact absurd (h.distinct i j r s hr hs heq) (ne_of_lt hij)

/-- The records of a table. -/
def records (slots : Table ρ) : List ρ := slots.filterMap id

lemma mem_records {r : ρ} : r ∈ slots.records ↔ slots.Holds r := by
  rw [holds_iff_mem, records, List.mem_filterMap]
  constructor
  · rintro ⟨o, ho, rfl⟩
    exact ho
  · intro hr
    exact ⟨some r, hr, rfl⟩

lemma length_records (slots : Table ρ) : slots.records.length = slots.held := by
  rw [records, held, List.length_filterMap_eq_countP]
  rfl

lemma Ok.nodup_keys (h : Ok K slots) : (slots.records.map K.key).Nodup := by
  rw [List.Nodup, List.pairwise_map, records, List.pairwise_filterMap]
  exact h.pairwise.imp fun hne r hr s hs => hne r hr s hs

/-- A wider table holds what the table held, in twice the slots. -/
theorem Ok.widen [DecidableEq κ] (h : Ok K slots) :
    Ok K (slots.widen K) ∧ (slots.widen K).length = slots.length * 2 ∧
      (slots.widen K).held = slots.held ∧ ∀ s, (slots.widen K).Holds s ↔ slots.Holds s := by
  obtain ⟨m, hm⟩ := h.power
  have hempty : Ok K (List.replicate (slots.length * 2) none) := by
    rw [hm, ← Nat.pow_succ]
    exact ok_replicate (m + 1)
  have hle : slots.countP Option.isSome ≤ slots.length := List.countP_le_length
  have hpos := length_pos h.power
  have hnone : ∀ s, ¬ Holds (List.replicate (slots.length * 2) (none : Option ρ)) s := by
    rintro s ⟨i, hi⟩
    rw [slot_replicate] at hi
    exact absurd hi (by simp)
  obtain ⟨hok, hlen, hheld, hholds⟩ := hempty.putAll (l := slots)
    (by rw [held_replicate, List.length_replicate]; omega)
    (fun r _ s hs => absurd hs (hnone s)) h.pairwise
  refine ⟨hok, by rw [Table.widen, hlen, List.length_replicate], ?_, fun s => ?_⟩
  · rw [Table.widen, hheld, held_replicate, Nat.zero_add]
    rfl
  · rw [Table.widen, hholds s, ← holds_iff_mem]
    exact or_iff_right (hnone s)

/-! ### Emptying a slot -/

/-- What the shift keeps: the slot `at'` is empty and every record is reached through it; the
slots from it to `next` are taken, by records whose homes stand past it; and the empty slot `e`
the shift ends at the latest is not passed. -/
structure Shifting (K : Keys ρ κ) (slots : Table ρ) (at' next e : ℕ) : Prop where
  power : ∃ m, slots.length = 2 ^ m
  distinct : Distinct K slots
  at_lt : at' < slots.length
  next_lt : next < slots.length
  end_lt : e < slots.length
  hole : slots.slot at' = none
  ends : slots.slot e = none
  past : 0 < steps slots.length at' next
  before : steps slots.length at' next ≤ steps slots.length at' e
  reached : Reached K slots fun j => j = at'
  stay : ∀ j < slots.length, 0 < steps slots.length at' j →
    steps slots.length at' j < steps slots.length at' next →
      ∃ r, slots.slot j = some r ∧
        0 < steps slots.length at' (slots.wrap (K.hash (K.key r))) ∧
        steps slots.length at' (slots.wrap (K.hash (K.key r))) ≤ steps slots.length at' j

lemma stays_iff {n at' next home : ℕ} (hat : at' < n) (hnext : next < n) (hhome : home < n) :
    stays at' next home = true ↔
      0 < steps n at' home ∧ steps n at' home ≤ steps n at' next := by
  have h₁ := steps_cases n at' home
  have h₂ := steps_cases n at' next
  rw [stays]
  split
  next hle =>
    simp only [Bool.and_eq_true, decide_eq_true_eq]
    omega
  next hgt =>
    simp only [Bool.or_eq_true, decide_eq_true_eq]
    omega

lemma Shifting.ne {at' next e : ℕ} (h : Shifting K slots at' next e) : at' ≠ next := by
  rintro rfl
  have := steps_cases slots.length at' at'
  have := h.past
  omega

/-- The record at `next` stays: its home stands past the hole. -/
lemma Shifting.keep {at' next e : ℕ} {r : ρ} (h : Shifting K slots at' next e)
    (hr : slots.slot next = some r)
    (hhome : 0 < steps slots.length at' (slots.wrap (K.hash (K.key r))) ∧
      steps slots.length at' (slots.wrap (K.hash (K.key r))) ≤ steps slots.length at' next) :
    Shifting K slots at' (slots.wrap (next + 1)) e := by
  have hne : next ≠ e := by
    rintro rfl
    rw [h.ends] at hr
    exact absurd hr (by simp)
  have hlt : steps slots.length at' next < steps slots.length at' e :=
    lt_of_le_of_ne h.before fun heq => hne (steps_inj h.at_lt h.next_lt h.end_lt heq)
  have hstep := steps_of_wrap_succ h.power h.at_lt h.next_lt h.end_lt hlt
  refine { h with next_lt := wrap_lt h.power _, past := by omega, before := by omega, stay := ?_ }
  intro j hj hpos hless
  by_cases hjn : j = next
  · exact ⟨r, hjn ▸ hr, hjn ▸ hhome⟩
  · refine h.stay j hj hpos (lt_of_le_of_ne (by omega) fun heq => hjn ?_)
    exact steps_inj h.at_lt hj h.next_lt heq

/-- What stands where once the record at `next` has moved into the hole. -/
lemma Shifting.slot_moved {at' next e : ℕ} {r : ρ} (h : Shifting K slots at' next e) (j : ℕ) :
    slot ((slots.set at' (some r)).set next none) j =
      if next = j then none else if at' = j then some r else slots.slot j := by
  rw [slot_set, slot_set, List.length_set]
  simp only [h.at_lt, h.next_lt, and_true]

/-- The record at `next` moves into the hole, and leaves one. -/
lemma Shifting.moved {at' next e : ℕ} {r : ρ} (h : Shifting K slots at' next e)
    (hr : slots.slot next = some r)
    (hhome : ¬ (0 < steps slots.length at' (slots.wrap (K.hash (K.key r))) ∧
      steps slots.length at' (slots.wrap (K.hash (K.key r))) ≤ steps slots.length at' next)) :
    Shifting K ((slots.set at' (some r)).set next none) next (slots.wrap (next + 1)) e := by
  have hlen : List.length ((slots.set at' (some r)).set next none) = slots.length := by simp
  have hnext : next ≠ e := by
    rintro rfl
    rw [h.ends] at hr
    exact absurd hr (by simp)
  have hat := h.ne
  have hlt : steps slots.length at' next < steps slots.length at' e :=
    lt_of_le_of_ne h.before fun heq => hnext (steps_inj h.at_lt h.next_lt h.end_lt heq)
  have hend := steps_lt h.at_lt h.end_lt
  have hone := steps_wrap h.power h.next_lt (by omega)
  refine
    { power := by rw [hlen]; exact h.power
      distinct := ?_
      at_lt := by rw [hlen]; exact h.next_lt
      next_lt := by rw [hlen]; exact wrap_lt h.power _
      end_lt := by rw [hlen]; exact h.end_lt
      hole := by rw [h.slot_moved, if_pos rfl]
      ends := ?_
      past := ?_
      before := ?_
      reached := ?_
      stay := ?_ }
  · -- A key stands where it stood, but for the one moved.
    intro i j s t hi hj hst
    rw [h.slot_moved] at hi hj
    split at hi
    · exact absurd hi (by simp)
    split at hj
    · exact absurd hj (by simp)
    next hni hnj =>
      split at hi <;> split at hj
      next h₁ h₂ => exact h₁ ▸ h₂
      next h₁ h₂ =>
        rw [Option.some.injEq] at hi
        exact absurd (h.distinct next j r t hr hj (hi ▸ hst)) hnj
      next h₁ h₂ =>
        rw [Option.some.injEq] at hj
        exact absurd (h.distinct i next s r hi hr (hj ▸ hst)) fun heq => hni heq.symm
      next h₁ h₂ => exact h.distinct i j s t hi hj hst
  · have hate : at' ≠ e := by
      rintro rfl
      have := steps_cases slots.length at' at'
      omega
    rw [h.slot_moved, if_neg hnext, if_neg hate, h.ends]
  · rw [hlen, hone]
    exact Nat.one_pos
  · rw [hlen, hone]
    exact steps_pos h.next_lt hnext
  · intro i s hi j hj hstep
    rw [hlen] at hj hstep
    rw [wrap_congr hlen] at hstep
    have hhomes := wrap_lt h.power (K.hash (K.key s))
    have hat_lt := h.at_lt
    rw [h.slot_moved] at hi
    rw [h.slot_moved]
    by_cases hjn : next = j
    · exact Or.inr hjn.symm
    rw [if_neg hjn]
    by_cases hja : at' = j
    · rw [if_pos hja]
      exact Or.inl rfl
    rw [if_neg hja]
    split at hi
    · exact absurd hi (by simp)
    split at hi
    next hni hia =>
      -- The record moved back: its home does not stand between the hole and it.
      rw [Option.some.injEq] at hi
      subst hi hia
      refine (h.reached next r hr j hj ?_).imp_right fun heq => absurd heq.symm hja
      refine lt_of_lt_of_le hstep ?_
      have hself := steps_self slots.length at'
      have hfar := steps_lt h.at_lt h.next_lt
      have hnear := steps_lt hhomes h.at_lt
      have hback := steps_add h.at_lt hhomes at'
      rcases steps_add hhomes h.at_lt next with hway | hround <;> omega
    next hni hia =>
      exact (h.reached i s hi j hj hstep).imp_right fun heq => absurd heq.symm hja
  · intro j hj hpos hless
    rw [hlen] at hj hpos hless
    omega

/-- Where the shift ends, every record is reached. -/
lemma Shifting.done {at' next e : ℕ} (h : Shifting K slots at' next e)
    (hnext : slots.slot next = none) : Ok K slots := by
  refine ⟨h.power, h.distinct, ?_⟩
  intro i s hi j hj hstep
  rcases h.reached i s hi j hj hstep with htaken | rfl
  · exact Or.inl htaken
  · -- The path of the record passes the hole, and so every slot from the hole to it is taken.
    exfalso
    have hhome := wrap_lt h.power (K.hash (K.key s))
    have hilt := lt_of_slot hi
    have hnlt := h.next_lt
    have hilt' := steps_lt hhome hilt
    have hlt := steps_lt hj hilt
    have hway : steps slots.length (slots.wrap (K.hash (K.key s))) j + steps slots.length j i =
        steps slots.length (slots.wrap (K.hash (K.key s))) i := by
      rcases steps_add hhome hj i with hway | hround
      · exact hway
      · omega
    by_cases hin : steps slots.length j i < steps slots.length j next
    · obtain ⟨t, ht, hpos, hle⟩ := h.stay i hilt (by omega) hin
      rw [hi, Option.some.injEq] at ht
      subst ht
      have hself := steps_self slots.length j
      have hback := steps_add hj hhome j
      omega
    · have hne : next ≠ i := by
        rintro rfl
        rw [hi] at hnext
        exact absurd hnext (by simp)
      have hnear : steps slots.length j next ≠ steps slots.length j i := fun heq =>
        hne (steps_inj hj hnlt hilt heq)
      have hpath := steps_add hhome hj next
      rcases h.reached i s hi next hnlt (by omega) with htaken | heq
      · rw [hnext] at htaken
        exact absurd htaken (by simp)
      · exact h.ne heq.symm

lemma Shifting.shiftFrom {at' next e fuel : ℕ} (h : Shifting K slots at' next e)
    (hfuel : steps slots.length next e < fuel) :
    Ok K (slots.shiftFrom K fuel at' next) ∧
      (slots.shiftFrom K fuel at' next).length = slots.length ∧
      (slots.shiftFrom K fuel at' next).held = slots.held ∧
      ∀ s, (slots.shiftFrom K fuel at' next).Holds s ↔ slots.Holds s := by
  induction fuel generalizing slots at' next with
  | zero => exact absurd hfuel (Nat.not_lt_zero _)
  | succ fuel ih =>
    rw [Table.shiftFrom]
    cases hr : slots.slot next with
    | none => exact ⟨h.done hr, rfl, rfl, fun s => Iff.rfl⟩
    | some r =>
      have hne : next ≠ e := by
        rintro rfl
        rw [h.ends] at hr
        exact absurd hr (by simp)
      have hnear := steps_wrap_succ h.power h.next_lt h.end_lt hne
      have hiff := stays_iff h.at_lt h.next_lt (wrap_lt h.power (K.hash (K.key r)))
      dsimp only
      split
      next hstays => exact ih (h.keep hr (hiff.mp hstays)) (by omega)
      next hstays =>
        have hmoved := h.moved hr fun hhome => hstays (hiff.mpr hhome)
        have hlen : List.length ((slots.set at' (some r)).set next none) = slots.length := by simp
        obtain ⟨hok, hlen', hheld, hholds⟩ := ih hmoved (by rw [hlen]; omega)
        refine ⟨hok, hlen'.trans hlen, hheld.trans ?_, fun s => (hholds s).trans ?_⟩
        · have hin := held_set h.at_lt (some r)
          have hlt : next < List.length (slots.set at' (some r)) := by simpa using h.next_lt
          have hout := held_set hlt none
          have hnext : slot (slots.set at' (some r)) next = some r := by
            rw [slot_set, if_neg fun hand => h.ne hand.1, hr]
          rw [hnext] at hout
          rw [h.hole] at hin
          simp only [Option.isSome_some, Option.isSome_none, if_true, Bool.false_eq_true,
            if_false] at hin hout
          omega
        · constructor
          · rintro ⟨j, hj⟩
            rw [h.slot_moved] at hj
            split at hj
            · exact absurd hj (by simp)
            · split at hj
              · exact ⟨next, hr.trans hj⟩
              · exact ⟨j, hj⟩
          · rintro ⟨j, hj⟩
            by_cases hjn : next = j
            · refine ⟨at', ?_⟩
              rw [h.slot_moved, if_neg h.ne.symm, if_pos rfl, ← hr, hjn, hj]
            · refine ⟨j, ?_⟩
              have hja : at' ≠ j := by
                rintro rfl
                rw [h.hole] at hj
                exact absurd hj (by simp)
              rw [h.slot_moved, if_neg hjn, if_neg hja, hj]

/-- A table with a slot emptied, before the records after it are looked at. -/
lemma Ok.shifting (h : Ok K slots) {at' e : ℕ} {r : ρ} (hr : slots.slot at' = some r)
    (he : e < slots.length) (hempty : slots.slot e = none) :
    Shifting K (slots.set at' none) at' (slots.wrap (at' + 1)) e ∧
      steps slots.length (slots.wrap (at' + 1)) e < slots.length := by
  have hat := lt_of_slot hr
  have hlen : List.length (slots.set at' none) = slots.length := List.length_set
  have hne : at' ≠ e := by
    rintro rfl
    rw [hempty] at hr
    exact absurd hr (by simp)
  have hslot : ∀ j, slot (slots.set at' none) j = if at' = j then none else slots.slot j := by
    intro j
    rw [slot_set]
    simp only [hat, and_true]
  have hself := steps_cases slots.length at' at'
  have hend := steps_cases slots.length at' e
  have hnext := steps_of_wrap_succ h.power hat hat he (by omega)
  have hnear := steps_wrap_succ h.power hat he hne
  refine ⟨?_, by omega⟩
  exact
    { power := by rw [hlen]; exact h.power
      distinct := by
        intro i j s t hi hj hst
        rw [hslot] at hi hj
        split at hi
        · exact absurd hi (by simp)
        split at hj
        · exact absurd hj (by simp)
        exact h.distinct i j s t hi hj hst
      at_lt := by rw [hlen]; exact hat
      next_lt := by rw [hlen]; exact wrap_lt h.power _
      end_lt := by rw [hlen]; exact he
      hole := by rw [hslot, if_pos rfl]
      ends := by rw [hslot, if_neg hne, hempty]
      past := by rw [hlen]; omega
      before := by rw [hlen]; omega
      reached := by
        intro i s hi j hj hstep
        rw [hlen] at hj hstep
        rw [wrap_congr hlen] at hstep
        rw [hslot] at hi ⊢
        split at hi
        · exact absurd hi (by simp)
        by_cases hja : at' = j
        · exact Or.inr hja.symm
        · rw [if_neg hja]
          exact (h.reached i s hi j hj hstep).imp_right False.elim
      stay := by
        intro j _ hpos hless
        rw [hlen] at hpos hless
        omega }

/-- A table with the record of a slot taken out, which holds every other record where a probe
reaches it. Another slot must be empty, which ends the shift. -/
theorem Ok.vacate (h : Ok K slots) {at' : ℕ} {r : ρ} (hr : slots.slot at' = some r)
    (hroom : slots.Room) :
    Ok K (slots.vacate K at') ∧ (slots.vacate K at').length = slots.length ∧
      (slots.vacate K at').held + 1 = slots.held ∧
      ∀ s, (slots.vacate K at').Holds s ↔ slots.Holds s ∧ K.key s ≠ K.key r := by
  obtain ⟨e, he, hempty⟩ := hroom
  have hat := lt_of_slot hr
  have hlen : List.length (slots.set at' none) = slots.length := List.length_set
  have hslot : ∀ j, slot (slots.set at' none) j = if at' = j then none else slots.slot j := by
    intro j
    rw [slot_set]
    simp only [hat, and_true]
  obtain ⟨hshift, hfuel⟩ := h.shifting hr he hempty
  have hfuel' : steps (List.length (slots.set at' none)) (slots.wrap (at' + 1)) e <
      slots.length := hlen.symm ▸ hfuel
  obtain ⟨hok, hlen', hheld, hholds⟩ := hshift.shiftFrom hfuel'
  refine ⟨hok, hlen'.trans hlen, ?_, fun s => (hholds s).trans ?_⟩
  · have hset := held_set hat none
    rw [hr] at hset
    rw [Table.vacate, hheld]
    simpa using hset
  · constructor
    · rintro ⟨j, hj⟩
      rw [hslot] at hj
      split at hj
      · exact absurd hj (by simp)
      next hja => exact ⟨⟨j, hj⟩, fun heq => hja (h.distinct _ _ _ _ hr hj heq.symm)⟩
    · rintro ⟨⟨j, hj⟩, hkey⟩
      refine ⟨j, ?_⟩
      rw [hslot, if_neg, hj]
      rintro rfl
      rw [hr, Option.some.injEq] at hj
      exact hkey (hj ▸ rfl)

end Table

end Probe
