import MarkdownCore.Storage.Ahead

/-!
# The list an array that moves ahead holds

Whatever its storage, its room and the storage it moves to, an array holds the list that the same
operations give on a list (`Array.contents_of_run`). What carries it is `Ahead.Good`: the elements
stand at the front of the array's cells, and those that were copied stand at the front of the
storage ahead.
-/

namespace MarkdownCore.Storage

/-! ### The room -/

lemma aheadSlice_pos (width : Width) : 0 < aheadSlice width := by
  rw [aheadSlice]
  split
  next hlt => exact Nat.div_pos hlt.le width.pos
  next => exact Nat.one_pos

variable {width : Width}

lemma le_aheadRoom {capacity count : ℕ} (h : count ≤ capacity) :
    count ≤ aheadRoom capacity count width := by
  have hmod := Nat.mod_lt count (aheadSlice_pos width)
  have hle := Nat.mod_le count (aheadSlice width)
  simp only [aheadRoom]
  split
  · exact h
  · split
    · assumption
    · exact le_min (by omega) h

lemma aheadRoom_le {capacity count : ℕ} : aheadRoom capacity count width ≤ capacity := by
  simp only [aheadRoom]
  split
  · exact le_rfl
  · split
    · exact Nat.div_le_self capacity 2
    · exact min_le_right _ _

lemma half_le_aheadRoom {capacity count : ℕ} (h : count ≤ capacity) :
    capacity / 2 ≤ aheadRoom capacity count width := by
  by_cases hhalf : count ≤ capacity / 2
  · simp only [aheadRoom, hhalf, if_true]
    split
    · exact Nat.div_le_self capacity 2
    · exact le_rfl
  · exact (not_le.mp hhalf).le.trans (le_aheadRoom h)

lemma aheadRoom_of_small {capacity count : ℕ} (h : capacity ≤ 2 * aheadSlice width) :
    aheadRoom capacity count width = capacity := by
  simp only [aheadRoom, h, if_true]

/-! ### The doubling -/

namespace Ahead

/-- With fuel for it, the doubling reaches the count. -/
lemma count_le_doubled {count : ℕ} :
    ∀ fuel larger, count ≤ larger * 2 ^ fuel → count ≤ doubled count fuel larger
  | 0, larger, h => by simpa [doubled] using h
  | fuel + 1, larger, h => by
    rw [doubled]
    split
    · apply count_le_doubled fuel
      rwa [Nat.mul_assoc, Nat.mul_comm 2, ← Nat.pow_succ]
    · exact not_lt.mp ‹_›

/-- The doubling goes no further than it must. -/
lemma doubled_lt {count bound : ℕ} (hbound : 2 * count ≤ bound) :
    ∀ fuel larger, larger ≤ bound → doubled count fuel larger ≤ bound
  | 0, larger, h => h
  | fuel + 1, larger, h => by
    rw [doubled]
    split
    next hlt => exact doubled_lt hbound fuel (larger * 2) (by omega)
    next => exact h

end Ahead

/-! ### Storage -/

variable {α : Type*}

lemma placesOf_eq {places : ℕ} (h : places * width.bytes < 2 ^ 64) :
    placesOf width places = places := by
  rw [placesOf, Nat.mod_eq_of_lt h, Nat.mul_div_cancel _ width.pos]

lemma take_eq_some {storage : ℕ → Bool} {places : ℕ} {cells : Cells α}
    (h : take storage width places = some cells) (hbytes : places * width.bytes < 2 ^ 64) :
    cells.length = places := by
  rw [take] at h
  split at h
  · rw [← Option.some.inj h, List.length_replicate, placesOf_eq hbytes]
  · cases h

/-- Storage moved keeps as many of its cells as it has places for. -/
lemma realloc_eq_some {storage : ℕ → Bool} {places : ℕ} {values cells : Cells α}
    (h : realloc storage width values places = some cells)
    (hbytes : places * width.bytes < 2 ^ 64) :
    cells.length = places ∧ values.take places <+: cells := by
  rw [realloc] at h
  split at h
  · cases Option.some.inj h
    rw [placesOf_eq hbytes]
    constructor
    · rw [List.length_append, List.length_take, List.length_replicate]
      omega
    · exact List.prefix_append _ _
  · cases h

/-! ### Cells -/

lemma copyCells_eq {dst src : Cells α} {at' start n : ℕ} (hdst : at' + n ≤ dst.length)
    (hsrc : start + n ≤ src.length) :
    copyCells dst at' src start n =
      some (dst.take at' ++ (src.drop start).take n ++ dst.drop (at' + n)) :=
  if_pos ⟨hdst, hsrc⟩

lemma length_copied {dst src : Cells α} {at' start n : ℕ} (hdst : at' + n ≤ dst.length)
    (hsrc : start + n ≤ src.length) :
    (dst.take at' ++ (src.drop start).take n ++ dst.drop (at' + n)).length = dst.length := by
  simp only [List.length_append, List.length_take, List.length_drop]
  omega

/-- A prefix of a list stands where the list does. -/
lemma prefix_of_take {l : List α} {cells : Cells α} (h : l.map some <+: cells) (n : ℕ) :
    (l.take n).map some <+: cells := by
  rw [List.map_take]
  exact (List.take_prefix n _).trans h

lemma take_of_held {l : List α} {cells : Cells α} (h : l.map some <+: cells) {n : ℕ}
    (hn : n ≤ l.length) : cells.take n = (l.take n).map some := by
  obtain ⟨rest, rfl⟩ := h
  rw [List.take_append_of_le_length (by simpa using hn), List.map_take]

/-- What stands past the first of a list's elements. -/
lemma drop_of_held {l : List α} {cells : Cells α} (h : l.map some <+: cells) (n : ℕ) :
    (l.drop n).map some <+: cells.drop n := by
  obtain ⟨rest, rfl⟩ := h
  rw [List.drop_append, List.map_drop]
  exact List.prefix_append _ _

lemma length_le_of_held {l : List α} {cells : Cells α} (h : l.map some <+: cells) :
    l.length ≤ cells.length := by
  simpa using h.length_le

/-- Copies made from `moved` to `stop`, over a row that has the copies before them. -/
lemma copyCells_copies {dst src : Cells α} {l : List α} {moved stop : ℕ}
    (hdst : (l.take moved).map some <+: dst) (hsrc : l.map some <+: src) (hmoved : moved ≤ stop)
    (hstop : stop ≤ l.length) (hlen : stop ≤ dst.length) :
    ∃ out, copyCells dst moved src moved (stop - moved) = some out ∧ out.length = dst.length ∧
      (l.take stop).map some <+: out := by
  have hlsrc := length_le_of_held hsrc
  have hdst' : moved + (stop - moved) ≤ dst.length := by omega
  have hsrc' : moved + (stop - moved) ≤ src.length := by omega
  refine ⟨_, copyCells_eq hdst' hsrc', length_copied hdst' hsrc', ?_⟩
  have hcopied : dst.take moved = (l.take moved).map some := by
    have h := take_of_held hdst (n := moved) (by simp; omega)
    rwa [List.take_take, min_self] at h
  have hcopy : (src.drop moved).take (stop - moved) =
      ((l.drop moved).take (stop - moved)).map some :=
    take_of_held (drop_of_held hsrc moved) (by simp; omega)
  have hjoin : l.take stop = l.take moved ++ (l.drop moved).take (stop - moved) := by
    rw [← List.take_add, Nat.add_sub_cancel' hmoved]
  rw [hcopied, hcopy, hjoin, List.map_append]
  exact List.prefix_append _ _

/-- Elements written over a row, before a tail that stands past them. -/
lemma writeCells_between {cells : Cells α} {front elements tail : List α}
    (hfront : front.map some <+: cells)
    (htail : tail.map some <+: cells.drop (front.length + elements.length))
    (hlen : front.length + elements.length ≤ cells.length) :
    ∃ out, writeCells cells front.length elements = some out ∧ out.length = cells.length ∧
      (front ++ elements ++ tail).map some <+: out := by
  have hsrc : 0 + elements.length ≤ (elements.map some).length := by simp
  refine ⟨_, copyCells_eq hlen hsrc, length_copied hlen hsrc, ?_⟩
  rw [take_of_held hfront le_rfl, List.take_length, List.drop_zero, List.map_append,
    List.map_append]
  have hall : (elements.map some).take elements.length = elements.map some :=
    List.take_of_length_le (by simp)
  rw [hall]
  obtain ⟨rest, hrest⟩ := htail
  rw [← hrest, ← List.append_assoc]
  exact List.prefix_append _ _

/-- A list's tail moved within its row. -/
lemma copyCells_tail {cells : Cells α} {l : List α} (hl : l.map some <+: cells) {at' start : ℕ}
    (hstart : start ≤ l.length) (hlen : at' + (l.length - start) ≤ cells.length) :
    ∃ out, copyCells cells at' cells start (l.length - start) = some out ∧
      out.length = cells.length ∧ out.take at' = cells.take at' ∧
      (l.drop start).map some <+: out.drop at' := by
  have hlcells := length_le_of_held hl
  have hsrc : start + (l.length - start) ≤ cells.length := by omega
  refine ⟨_, copyCells_eq hlen hsrc, length_copied hlen hsrc, ?_, ?_⟩
  · rw [List.append_assoc, List.take_append_of_le_length (by simp; omega), List.take_take, min_self]
  · have hat : (cells.take at').length = at' := by simp; omega
    rw [List.append_assoc, List.drop_append_of_le_length (by omega), List.drop_of_length_le hat.le,
      List.nil_append, take_of_held (drop_of_held hl start) (by simp)]
    rw [List.take_of_length_le (l := l.drop start) (by simp)]
    exact List.prefix_append _ _

/-! ### What an array's storage holds -/

variable (width) in
/-- The elements stand at the front of the array's cells, and those that were moved at the front
of the storage ahead, of twice the capacity. -/
structure Ahead.Good (a : Ahead α) (l : List α) : Prop where
  held : l.map some <+: a.values
  length : a.values.length = a.capacity
  bytes : a.capacity * width.bytes < 2 ^ 64
  moved_le : a.moved ≤ l.length
  copies : ∀ next, a.next = some next →
    next.length = 2 * a.capacity ∧ (l.take a.moved).map some <+: next
  settled : a.next = none → a.moved = 0
  le_room : l.length ≤ a.room
  room_le : a.room ≤ a.capacity
  half_le : a.capacity / 2 ≤ a.room
  small : a.capacity ≤ 2 * aheadSlice width → a.room = a.capacity

namespace Ahead

variable {a : Ahead α} {l : List α}

lemma Good.length_le (h : a.Good width l) : l.length ≤ a.capacity := h.le_room.trans h.room_le

/-- Elements that change past those that were moved. -/
lemma Good.rewrite (h : a.Good width l) {first : ℕ} {values : Cells α} {l' : List α}
    (hmoved : a.moved ≤ first) (hfirst : first ≤ l'.length) (hagree : l'.take first = l.take first)
    (hheld : l'.map some <+: values) (hlength : values.length = a.values.length)
    (hroom : l'.length ≤ a.room) : Good width { a with values } l' := by
  have htake : l'.take a.moved = l.take a.moved := by
    rw [← min_eq_left hmoved, ← List.take_take, hagree, List.take_take]
  constructor
  · exact hheld
  · exact hlength.trans h.length
  · exact h.bytes
  · exact hmoved.trans hfirst
  · intro next hnext
    rw [htake]
    exact h.copies next hnext
  · exact h.settled
  · exact hroom
  · exact h.room_le
  · exact h.half_le
  · exact h.small

/-- Copies that no longer count. -/
lemma Good.unsettle (h : a.Good width l) (first : ℕ) : (a.unsettle first).Good width l := by
  constructor
  · exact h.held
  · exact h.length
  · exact h.bytes
  · exact (min_le_left _ _).trans h.moved_le
  · intro next hnext
    obtain ⟨hlength, hcopies⟩ := h.copies next hnext
    refine ⟨hlength, ?_⟩
    rw [Ahead.unsettle, min_comm, ← List.take_take]
    exact prefix_of_take hcopies first
  · intro hnext
    rw [Ahead.unsettle, h.settled hnext, Nat.zero_min]
  · exact h.le_room
  · exact h.room_le
  · exact h.half_le
  · exact h.small

@[simp] lemma unsettle_moved_le (first : ℕ) : (a.unsettle first).moved ≤ first :=
  min_le_right _ _

@[simp] lemma unsettle_values (first : ℕ) : (a.unsettle first).values = a.values := rfl

@[simp] lemma unsettle_room (first : ℕ) : (a.unsettle first).room = a.room := rfl

/-- Storage that holds the elements, with none ahead of it. -/
lemma Good.fresh {values : Cells α} {capacity count : ℕ} (hheld : l.map some <+: values)
    (hlength : values.length = capacity) (hbytes : capacity * width.bytes < 2 ^ 64)
    (hl : l.length ≤ count) (hcount : count ≤ capacity) :
    Good width ⟨values, aheadRoom capacity count width, capacity, none, 0⟩ l := by
  constructor
  · exact hheld
  · exact hlength
  · exact hbytes
  · exact Nat.zero_le _
  · rintro next ⟨⟩
  · exact fun _ => rfl
  · exact hl.trans (le_aheadRoom hcount)
  · exact aheadRoom_le
  · exact half_le_aheadRoom hcount
  · exact aheadRoom_of_small

lemma good_empty : Good width (⟨[], 0, 0, none, 0⟩ : Ahead α) [] := by
  have h := @Good.fresh width α [] [] 0 0 (List.prefix_refl _) rfl (by simp) le_rfl le_rfl
  rwa [aheadRoom_of_small (Nat.zero_le _)] at h

/-- What a growth gives: room for the count, the elements as they were, or the array as it was. -/
inductive Grown (width : Width) (a : Ahead α) (l : List α) (count : ℕ) :
    Option (Bool × Ahead α) → Prop
  | had {grown : Ahead α} (good : grown.Good width l) (room : count ≤ grown.room) :
    Grown width a l count (some (true, grown))
  | refused : Grown width a l count (some (false, a))

variable (storage : ℕ → Bool)

/-- The assertions of `copy` hold, and it copies what it says. -/
lemma Good.copy (h : a.Good width l) {count : ℕ} (hroom : a.room < count)
    (hcount : count ≤ a.capacity) :
    Grown width a l count (a.copy storage width l.length count) := by
  have hlarge : 2 * aheadSlice width < a.capacity := by
    by_contra hsmall
    have := h.small (not_lt.mp hsmall)
    omega
  have hhalf : a.capacity / 2 < count := lt_of_le_of_lt h.half_le hroom
  have hl : l.length ≤ count := h.le_room.trans hroom.le
  rw [Ahead.copy, if_neg (by simp [h.moved_le, hl, hroom, hcount, hlarge, hhalf])]
  simp only
  split
  next hmore =>
    -- The elements from those moved up to the pace, or up to the last, are copied.
    have hcopied : ∀ next : Cells α, next.length = 2 * a.capacity →
        (l.take a.moved).map some <+: next →
        Grown width a l count
          ((copyCells next a.moved a.values a.moved
            (min (2 * (count - a.capacity / 2)) l.length - a.moved)).map fun next =>
          (true, { a with
            next := some next, moved := min (2 * (count - a.capacity / 2)) l.length,
            room := aheadRoom a.capacity count width })) := by
      intro next hlength hcopies
      have hlcap := h.length_le
      obtain ⟨out, hout, houtlen, hprefix⟩ := copyCells_copies hcopies h.held hmore.1.le
        (min_le_right _ _) ((min_le_right _ _).trans (by omega))
      rw [hout]
      apply Grown.had
      · constructor
        · exact h.held
        · exact h.length
        · exact h.bytes
        · exact min_le_right _ _
        · intro next' hnext'
          cases hnext'
          exact ⟨houtlen.trans hlength, hprefix⟩
        · rintro ⟨⟩
        · exact hl.trans (le_aheadRoom hcount)
        · exact aheadRoom_le
        · exact half_le_aheadRoom hcount
        · exact aheadRoom_of_small
      · exact le_aheadRoom hcount
    cases hnext : a.next with
    | some next =>
      obtain ⟨hlength, hcopies⟩ := h.copies next hnext
      exact hcopied next hlength hcopies
    | none =>
      simp only
      split
      next heq =>
        exact Grown.refused
      next next heq =>
        -- Storage of twice the capacity is taken, with nothing copied there yet.
        split at heq
        · cases heq
        next hbytes =>
          apply hcopied
          · apply take_eq_some heq
            have hle := (Nat.le_div_iff_mul_le width.pos).mp (not_lt.mp hbytes)
            rw [Nat.mul_assoc]
            simp only [sizeMax] at hle
            omega
          · rw [h.settled hnext, List.take_zero]
            exact List.nil_prefix
  next =>
    apply Grown.had
    · constructor
      · exact h.held
      · exact h.length
      · exact h.bytes
      · exact h.moved_le
      · exact h.copies
      · exact h.settled
      · exact hl.trans (le_aheadRoom hcount)
      · exact aheadRoom_le
      · exact half_le_aheadRoom hcount
      · exact aheadRoom_of_small
    · exact le_aheadRoom hcount

/-- Storage given back leaves the elements as they were. -/
theorem Good.fit (h : a.Good width l) : (a.fit storage width l.length).Good width l := by
  have hl := h.length_le
  rw [Ahead.fit]
  split
  next => exact h
  next hless =>
    have hcapacity := not_le.mp hless
    have hsize : a.capacity < 2 ^ 64 :=
      lt_of_le_of_lt (Nat.le_mul_of_pos_right _ width.pos) h.bytes
    have hcount : l.length ≤ doubled l.length 64 firstCapacity := by
      apply count_le_doubled
      simp only [firstCapacity]
      omega
    have hbytes : doubled l.length 64 firstCapacity * width.bytes < 2 ^ 64 :=
      lt_of_le_of_lt (Nat.mul_le_mul_right _ hcapacity.le) h.bytes
    split
    next => exact h
    next moved heq =>
      obtain ⟨hlength, hprefix⟩ := realloc_eq_some heq hbytes
      have hheld : l.map some <+: a.values.take (doubled l.length 64 firstCapacity) :=
        List.prefix_take_iff.mpr ⟨h.held, by simpa using hcount⟩
      exact Good.fresh (hheld.trans hprefix) hlength hbytes le_rfl hcount

variable [DecidableEq α]

/-- The assertions of `switch` hold, and the storage ahead has every element then. -/
lemma Good.switch (h : a.Good width l) {count : ℕ} {next : Cells α} (hnext : a.next = some next)
    (hcapacity : a.capacity < count) (hcount : count ≤ 2 * a.capacity)
    (hbytes : 2 * a.capacity * width.bytes < 2 ^ 64) :
    Grown width a l count (a.switch width l.length count) := by
  obtain ⟨hlength, hcopies⟩ := h.copies next hnext
  have hl := h.length_le
  have hsame : next.take a.moved = a.values.take a.moved := by
    rw [take_of_held h.held h.moved_le]
    have htake := take_of_held hcopies (n := a.moved) (by simp [h.moved_le])
    rwa [List.take_take, min_self] at htake
  obtain ⟨out, hout, houtlen, hprefix⟩ := copyCells_copies hcopies h.held h.moved_le le_rfl
    (by omega)
  rw [Ahead.switch]
  simp only [hnext]
  rw [if_neg (by simp [h.moved_le, hl, hcapacity, hcount, hsame]), hout]
  rw [List.take_length] at hprefix
  apply Grown.had
  · exact Good.fresh hprefix (houtlen.trans hlength) hbytes (by omega) hcount
  · exact le_aheadRoom hcount

/-- An array that asks for more than its room gets it, or is as it was. -/
theorem Good.extend (h : a.Good width l) (pooled : Bool) {count : ℕ} (hroom : a.room < count) :
    Grown width a l count (a.extend storage width pooled l.length count) := by
  have hl := h.length_le
  rw [Ahead.extend]
  split
  next hcount => exact h.copy storage hroom hcount
  next hcapacity =>
    split
    next => exact Grown.refused
    next hmany =>
      set first := if a.capacity ≠ 0 then a.capacity else max count firstCapacity with hfirst
      have hfits := (Nat.le_div_iff_mul_le width.pos).mp (not_lt.mp hmany)
      have hpos : 0 < first ∧ first * width.bytes < 2 ^ 64 := by
        have hwidth := width.lt
        rw [hfirst]
        split
        next hne => exact ⟨Nat.pos_of_ne_zero hne, h.bytes⟩
        next =>
          constructor
          · exact lt_of_lt_of_le (by decide) (le_max_right count firstCapacity)
          · simp only [sizeMax, firstCapacity] at hfits ⊢
            rcases Nat.le_total count 8 with hfew | hfew
            · rw [max_eq_right hfew]
              omega
            · rw [max_eq_left hfew]
              omega
      set larger := doubled count 64 first with hlarger
      have hcount : count ≤ larger := by
        apply count_le_doubled
        have hsmall : count ≤ count * width.bytes := Nat.le_mul_of_pos_right _ width.pos
        have hone : 2 ^ 64 ≤ first * 2 ^ 64 := Nat.le_mul_of_pos_left _ hpos.1
        simp only [sizeMax] at hfits
        omega
      have hbytes : larger * width.bytes < 2 ^ 64 := by
        have hle : larger ≤ max (2 * count) first :=
          doubled_lt (le_max_left _ _) 64 first (le_max_right _ _)
        refine lt_of_le_of_lt (Nat.mul_le_mul_right _ hle) ?_
        rcases Nat.le_total (2 * count) first with hless | hless
        · rw [max_eq_right hless]
          exact hpos.2
        · rw [max_eq_left hless, Nat.mul_assoc]
          simp only [sizeMax] at hfits
          omega
      simp only
      split
      next hswitch =>
        obtain ⟨hsome, hdouble⟩ := hswitch
        obtain ⟨next, hnext⟩ := Option.isSome_iff_exists.mp hsome
        exact h.switch hnext (not_le.mp hcapacity) (hdouble ▸ hcount) (hdouble ▸ hbytes)
      next =>
        have hroomy : l.length ≤ larger := by omega
        split
        next => exact Grown.refused
        next moved heq =>
          -- The array moves whole, from the allocator or from a source.
          have hwhole : ∃ cells : Cells α, moved = some cells ∧ cells.length = larger ∧
              l.map some <+: cells := by
            split at heq
            next =>
              obtain ⟨cells, htake, hcopy⟩ := Option.map_eq_some_iff.mp heq
              have hlength := take_eq_some htake hbytes
              obtain ⟨out, hout, houtlen, hprefix⟩ := @copyCells_copies α cells a.values l 0
                l.length List.nil_prefix h.held (Nat.zero_le _) le_rfl (by omega)
              rw [List.take_length] at hprefix
              exact ⟨out, hcopy.symm.trans hout, houtlen.trans hlength, hprefix⟩
            next =>
              obtain ⟨cells, hrealloc, rfl⟩ := Option.map_eq_some_iff.mp heq
              obtain ⟨hlength, hprefix⟩ := realloc_eq_some hrealloc hbytes
              have hwhole := h.length
              rw [List.take_of_length_le (by omega)] at hprefix
              exact ⟨cells, rfl, hlength, h.held.trans hprefix⟩
          obtain ⟨cells, rfl, hlength, hheld⟩ := hwhole
          apply Grown.had
          · exact Good.fresh hheld hlength hbytes (by omega) hcount
          · exact le_aheadRoom hcount

end Ahead

end MarkdownCore.Storage
