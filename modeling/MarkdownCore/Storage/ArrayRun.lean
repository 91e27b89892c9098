import MarkdownCore.Storage.AheadRun

/-!
# Arrays, and the zippers over them, as lists

Each operation on an array keeps its elements at the front of its cells and the copies ahead in
step with them (`Array.Good`), or refuses and leaves the array as it was. So after any operations
an array holds what the operations that had storage make of a list, and a zipper whose front is
an array holds what they make of a zipper of lists (`Parts.contents_of_run`).
-/

namespace MarkdownCore.Storage

variable {α : Type*}

/-! ### Operations on an array -/

/-- An array that holds a list. -/
structure Array.Good (width : Width) (a : Array α) (l : List α) : Prop where
  count_eq : a.count = l.length
  ahead : a.ahead.Good width l

namespace Array

/-- What an operation gives: an array with what it makes of the list, or the array as it was. -/
inductive Done (width : Width) (a : Array α) (l : List α) : Option (Bool × Array α) → Prop
  | had {done : Array α} (good : done.Good width l) : Done width a l (some (true, done))
  | refused : Done width a l (some (false, a))

variable {width : Width} {a : Array α} {l : List α}

lemma good_empty : (empty : Array α).Good width [] := ⟨rfl, Ahead.good_empty⟩

/-- Elements written from the end of a front on, before a tail that stands past them. -/
lemma store_between (h : a.Good width l) {values : Cells α}
    (front elements tail : List α) (count : ℕ) (hmoved : a.ahead.moved ≤ front.length)
    (hfront : front = l.take front.length) (hheld : front.map some <+: values)
    (htail : tail.map some <+: values.drop (front.length + elements.length))
    (hlength : values.length = a.ahead.values.length)
    (hcount : count = (front ++ elements ++ tail).length) (hroom : count ≤ a.ahead.room) :
    ∃ done, store { a with ahead := { a.ahead with values } } front.length elements count =
      some done ∧ done.Good width (front ++ elements ++ tail) := by
  have hcapacity := h.ahead.room_le
  have hcells := h.ahead.length
  have hlen : front.length + elements.length ≤ values.length := by
    simp only [List.length_append] at hcount
    omega
  obtain ⟨out, hout, houtlen, hprefix⟩ := writeCells_between hheld htail hlen
  refine ⟨⟨{ a.ahead with values := out }, count⟩, ?_, hcount, ?_⟩
  · rw [store, hout]
    rfl
  · apply h.ahead.rewrite hmoved
    · simp only [List.length_append]
      omega
    · rw [List.append_assoc, List.take_left, ← hfront]
    · exact hprefix
    · exact houtlen.trans hlength
    · exact hcount ▸ hroom

/-- Elements written past the last. -/
lemma Good.storeLast (h : a.Good width l) (elements : List α)
    (hroom : l.length + elements.length ≤ a.ahead.room) :
    ∃ done, a.store l.length elements (l.length + elements.length) = some done ∧
      done.Good width (l ++ elements) := by
  have hstore := store_between h l elements [] (l.length + elements.length) h.ahead.moved_le
    (by rw [List.take_length]) h.ahead.held List.nil_prefix rfl (by simp) hroom
  rw [List.append_nil] at hstore
  exact hstore

lemma Good.unsettle (h : a.Good width l) (first : ℕ) :
    Good width { a with ahead := a.ahead.unsettle first } l :=
  ⟨h.count_eq, h.ahead.unsettle first⟩

/-- Elements dropped off the end. -/
lemma Good.truncate (h : a.Good width l) {size : ℕ} (hsize : size ≤ l.length) :
    (a.truncate size).Good width (l.take size) := by
  refine ⟨by simp [Array.truncate, hsize], ?_⟩
  apply (h.ahead.unsettle size).rewrite (Ahead.unsettle_moved_le size)
  · simp [hsize]
  · rw [List.take_take, min_self]
  · exact prefix_of_take h.ahead.held size
  · rfl
  · exact (List.length_take_le' size l).trans h.ahead.le_room

/-- An element written in place. -/
lemma Good.write (h : a.Good width l) {index : ℕ} (hindex : index < l.length) (value : α) :
    ∃ done, a.write index value = some done ∧ done.Good width (l.set index value) := by
  have hfront : (l.take index).length = index := by simp [hindex.le]
  have hset : l.set index value = l.take index ++ [value] ++ l.drop (index + 1) := by
    rw [List.set_eq_take_append_cons_drop, if_pos hindex, List.append_assoc, List.singleton_append]
  have hstore := store_between (h.unsettle index) (l.take index) [value] (l.drop (index + 1))
    a.count
    (by rw [hfront]; exact Ahead.unsettle_moved_le index) (by rw [hfront])
    (prefix_of_take h.ahead.held index)
    (by rw [hfront]; exact drop_of_held h.ahead.held (index + 1)) rfl
    (by rw [← hset, List.length_set]; exact h.count_eq)
    (by rw [h.count_eq]; exact h.ahead.le_room)
  rw [hfront] at hstore
  rw [hset]
  exact hstore

/-- A list's tail moved within the cells, with what stands before a first element kept. -/
lemma Good.moveCells (h : a.Good width l) {first at' start : ℕ} (hfirst : first ≤ at')
    (hstart : start ≤ l.length) (hlen : at' + (l.length - start) ≤ a.ahead.values.length) :
    ∃ values, a.moveCells at' start (l.length - start) =
        some { a with ahead := { a.ahead with values } } ∧
      values.length = a.ahead.values.length ∧ (l.take first).map some <+: values ∧
      (l.drop start).map some <+: values.drop at' := by
  obtain ⟨out, hout, houtlen, htake, hdrop⟩ := copyCells_tail h.ahead.held hstart hlen
  refine ⟨out, ?_, houtlen, ?_, hdrop⟩
  · rw [Array.moveCells, hout]
    rfl
  · have hshort : (l.take first).map some <+: a.ahead.values.take at' := by
      refine List.prefix_take_iff.mpr ⟨prefix_of_take h.ahead.held first, ?_⟩
      rw [List.length_map]
      exact (List.length_take_le first l).trans hfirst
    rw [← htake] at hshort
    exact hshort.trans (List.take_prefix _ _)

lemma Good.shrink (h : a.Good width l) (storage : ℕ → Bool) :
    (a.shrink storage width).Good width l := by
  refine ⟨h.count_eq, ?_⟩
  rw [Array.shrink, h.count_eq]
  exact h.ahead.fit storage

section

variable [DecidableEq α] (storage : ℕ → Bool)

/-- An array that reserves has the room, or is as it was. -/
lemma Good.reserve (h : a.Good width l) (total : ℕ) :
    (∃ reserved, a.reserve storage width total = some (true, reserved) ∧
      reserved.Good width l ∧ total ≤ reserved.ahead.room) ∨
      a.reserve storage width total = some (false, a) := by
  rw [Array.reserve]
  split
  next hroom => exact Or.inl ⟨a, rfl, h, hroom⟩
  next hroom =>
    have hgrown := h.ahead.extend storage false (not_le.mp hroom)
    rw [h.count_eq]
    generalize a.ahead.extend storage width false l.length total = grown at hgrown ⊢
    cases hgrown with
    | @had grown good room =>
      refine Or.inl ⟨{ a with ahead := grown }, ?_, ⟨h.count_eq, good⟩, room⟩
      simp [room, ← h.count_eq]
    | refused =>
      refine Or.inr ?_
      simp [hroom, ← h.count_eq]

/-- An operation on an array that has room for it. -/
lemma Good.withRoom (h : a.Good width l) {total : ℕ} {f : Array α → Option (Array α)}
    {l' : List α}
    (hf : ∀ r : Array α, r.Good width l → total ≤ r.ahead.room →
      ∃ done, f r = some done ∧ done.Good width l') :
    Done width a l' (a.withRoom storage width total f) := by
  rw [Array.withRoom]
  rcases h.reserve storage total with ⟨reserved, heq, hgood, hroom⟩ | heq
  · obtain ⟨done, hdone, hgood'⟩ := hf reserved hgood hroom
    rw [heq, Option.bind_some, if_pos rfl, hdone]
    exact Done.had hgood'
  · rw [heq]
    exact Done.refused

/-- Elements appended. -/
lemma Good.append (h : a.Good width l) (elements : List α) :
    Done width a (l ++ elements) (a.append storage width elements) := by
  apply h.withRoom storage
  intro r hr hroom
  rw [hr.count_eq]
  rw [h.count_eq] at hroom
  exact hr.storeLast elements hroom

/-- An element pushed. -/
lemma Good.push (h : a.Good width l) (value : α) :
    Done width a (l ++ [value]) (a.push storage width value) := h.append storage [value]

/-- Elements written over a stretch, with what follows it moved to stand after them. -/
lemma Good.replace (h : a.Good width l) {first last : ℕ} (hfirst : first ≤ last)
    (hlast : last ≤ l.length) (elements : List α) :
    Done width a (l.take first ++ elements ++ l.drop last)
      (a.replace storage width first last elements) := by
  have hfront : (l.take first).length = first := by simp; omega
  have hlen : (l.take first ++ elements ++ l.drop last).length =
      first + elements.length + (a.count - last) := by
    simp [hfront, h.count_eq, Nat.add_assoc]
  rw [Array.replace]
  apply h.withRoom storage
  intro r hr hroom
  have hcells := hr.ahead.length
  have hcapacity := hr.ahead.room_le
  have hcount := h.count_eq
  have hr' := hr.unsettle first
  -- The tail stands where it will, moved there or there already.
  have htail : ∃ values : Cells α,
      (if a.count - last ≠ 0 ∧ elements.length ≠ last - first then
        Array.moveCells { r with ahead := r.ahead.unsettle first } (first + elements.length) last
          (a.count - last)
      else some { r with ahead := r.ahead.unsettle first }) =
        some { r with ahead := { r.ahead.unsettle first with values } } ∧
      values.length = r.ahead.values.length ∧ (l.take first).map some <+: values ∧
      (l.drop last).map some <+: values.drop (first + elements.length) := by
    by_cases hmoves : a.count - last ≠ 0 ∧ elements.length ≠ last - first
    · rw [if_pos hmoves, hcount]
      have hfits : first + elements.length + (l.length - last) ≤ r.ahead.values.length := by omega
      exact hr'.moveCells (Nat.le_add_right _ _) hlast hfits
    · rw [if_neg hmoves]
      refine ⟨r.ahead.values, rfl, rfl, prefix_of_take hr.ahead.held first, ?_⟩
      by_cases hrest : a.count - last = 0
      · rw [List.drop_of_length_le (by omega)]
        exact List.nil_prefix
      · have hsame : first + elements.length = last := by
          by_contra hne
          exact hmoves ⟨hrest, by omega⟩
        rw [hsame]
        exact drop_of_held hr.ahead.held last
  obtain ⟨values, heq, hvalues, hheld, hdrop⟩ := htail
  have hstore := store_between hr' (l.take first) elements (l.drop last)
    (first + elements.length + (a.count - last))
    (by rw [hfront]; exact Ahead.unsettle_moved_le first) (by rw [hfront]) hheld
    (by rw [hfront]; exact hdrop) hvalues hlen.symm hroom
  rw [hfront] at hstore
  simp only
  rw [heq]
  exact hstore

/-- An entry put at an index, the entries from there on after it. -/
lemma Good.frontInsert (h : a.Good width l) {index : ℕ} (hindex : index ≤ l.length) (entry : α) :
    Done width a (l.take index ++ [entry] ++ l.drop index)
      (a.frontInsert storage width index entry) := by
  have hfront : (l.take index).length = index := by simp [hindex]
  have hlen : (l.take index ++ [entry] ++ l.drop index).length = a.count + 1 := by
    simp [hfront, h.count_eq]
    omega
  rw [Array.frontInsert]
  apply h.withRoom storage
  intro r hr hroom
  have hcells := hr.ahead.length
  have hcapacity := hr.ahead.room_le
  have hcount := h.count_eq
  by_cases hbefore : index < r.count
  · -- The entries from the index on move one place on.
    have hr' := hr.unsettle index
    obtain ⟨values, heq, hvalues, hheld, hdrop⟩ :=
      hr'.moveCells (Nat.le_succ index) hindex (by simp only [Ahead.unsettle_values]; omega)
    rw [← hr.count_eq] at heq
    rw [if_pos hbefore, heq]
    have hstore := store_between hr' (l.take index) [entry] (l.drop index) (a.count + 1)
      (by rw [hfront]; exact Ahead.unsettle_moved_le index) (by rw [hfront]) hheld
      (by rw [hfront]; exact hdrop) hvalues hlen.symm hroom
    rw [hfront, hcount, ← hr.count_eq] at hstore
    exact hstore
  · -- The entry goes at the end.
    have hlast : index = l.length := by
      rw [hr.count_eq] at hbefore
      omega
    rw [if_neg hbefore, hlast, List.take_length, List.drop_length, List.append_nil,
      Option.bind_some, hr.count_eq]
    exact hr.storeLast [entry] (by rw [← hcount]; exact hroom)

end

/-- Entries erased, the others staying in order. -/
lemma Good.frontErase (h : a.Good width l) {index n : ℕ} (hlast : index + n ≤ l.length) :
    ∃ done, a.frontErase index n = some done ∧
      done.Good width (l.take index ++ l.drop (index + n)) := by
  have hcells := h.ahead.length
  have hcapacity := h.ahead.length_le
  have hroom := h.ahead.le_room
  have hfront : (l.take index).length = index := by simp; omega
  have hunsettled := h.unsettle index
  obtain ⟨values, heq, hvalues, hheld, hdrop⟩ := hunsettled.moveCells (le_refl index) hlast
    (by simp only [Ahead.unsettle_values]; omega)
  have hgone : a.count - index - n = l.length - (index + n) := by
    rw [h.count_eq]
    omega
  rw [Array.frontErase, hgone, heq]
  refine ⟨_, rfl, ?_, ?_⟩
  · simp [Array.truncate, h.count_eq]
    omega
  · apply Ahead.Good.unsettle
    apply hunsettled.ahead.rewrite (Ahead.unsettle_moved_le index)
    · simp
      omega
    · rw [List.take_append_of_le_length hfront.ge, List.take_take, min_self]
    · obtain ⟨rest, hrest⟩ := hdrop
      refine ⟨rest, ?_⟩
      rw [List.map_append, List.append_assoc, hrest]
      have htake := take_of_held hheld (n := index) hfront.ge
      rw [List.take_take, min_self] at htake
      rw [← htake, List.take_append_drop]
    · exact hvalues
    · simp
      omega

end Array

end MarkdownCore.Storage
