import MarkdownCore.Map.KeyTreeEdit

/-!
# The ordered key index's entries

The index is a sorted list of entries, one for a key (`Tree.Good`). A search finds the key's entry
and the number of those before it, a rank is a place of the list, and a walk visits what is left of
it from a key on, past the leaves that hold no entry.
-/

namespace MarkdownCore.KeyTree

open Fences (Item Cut Ordered held pieces)

variable {V : Type} {key : KeyEntry V} {leaves leaves' : List (Leaf V)} {levels : ℕ}
  {root : Node V levels} {id : ℕ} {before after : List (Item ℕ (List ℕ))}

/-- What holds of leaves and the keys between them, from left to right: the entries are sorted with
the keys, and the leaves are linked. -/
structure Fits (leaves : List (Leaf V)) (items : List (Item ℕ (List ℕ))) : Prop where
  ordered : Ordered (entriesOf leaves) sortKey items
  nodup : (pieces items).Nodup
  stored : ∀ b ∈ pieces items, b < leaves.length
  linked : ∀ b ∈ pieces items, ∀ leaf, leaves[b]? = some leaf →
    leaf.next = Links.next (pieces items) b

/-- What holds of a tree's nodes and leaves. -/
structure Stands (leaves : List (Leaf V)) (levels : ℕ) (root : Node V levels) : Prop extends
    Fits leaves (spine levels root) where
  sized : Sized leaves levels root

/-- The entries in order. -/
def Tree.entries (tree : Tree V) : List (KeyEntry V) :=
  match tree.root with
  | none => []
  | some root => held (entriesOf tree.leaves) (spine tree.levels root)

/-- A tree that holds its entries sorted, and counts them. -/
structure Tree.Good (tree : Tree V) : Prop where
  count : tree.count = tree.entries.length
  stands : ∀ root, tree.root = some root → Stands tree.leaves tree.levels root

/-! ### A key's place -/

/-- Where a key's entry is or would be. -/
structure Located (key : KeyEntry V) (leaves : List (Leaf V)) (levels : ℕ) (root : Node V levels)
    (id : ℕ) (leaf : Leaf V) (before after : List (Item ℕ (List ℕ)))
    (front back : List (KeyEntry V)) : Prop where
  path : Path key levels root id before after
  cut : Cut (sortKey key) before after
  stored : leaves[id]? = some leaf
  entries_eq : leaf.entries = front ++ back
  place : treePlace leaf.entries key = front.length
  front_lt : ∀ x ∈ front, sortKey x < sortKey key
  le_back : ∀ x ∈ back, sortKey key ≤ sortKey x

lemma Stands.located (h : Stands leaves levels root) (key : KeyEntry V) :
    ∃ id leaf before after front back,
      Located key leaves levels root id leaf before after front back := by
  obtain ⟨id, before, after, hpath, hcut⟩ := exists_path h.sized h.ordered key
  have hspine := hpath.spine_eq
  obtain ⟨leaf, hget, hentries⟩ := exists_leaf (h.stored id (by rw [hspine]; simp))
  have hsorted : leaf.entries.Pairwise fun a b => sortKey a < sortKey b := by
    have hheld := h.ordered.sorted
    rw [hspine, Fences.held_append, Fences.held_piece] at hheld
    rw [hentries]
    exact (List.pairwise_append.mp (List.pairwise_append.mp hheld).2.1).1
  obtain ⟨front, back, hsplit, hplace, hfront, hback⟩ := treePlace_spec hsorted key
  exact ⟨id, leaf, before, after, front, back, hpath, hcut, hget, hsplit, hplace, hfront, hback⟩

namespace Located

variable {leaf : Leaf V} {front back : List (KeyEntry V)}

lemma entriesOf_id (h : Located key leaves levels root id leaf before after front back) :
    entriesOf leaves id = front ++ back := (entriesOf_eq h.stored).trans h.entries_eq

lemma held_eq (h : Located key leaves levels root id leaf before after front back) :
    held (entriesOf leaves) (spine levels root) =
      (held (entriesOf leaves) before ++ front) ++ (back ++ held (entriesOf leaves) after) := by
  rw [h.path.spine_eq, Fences.held_append, Fences.held_piece, h.entriesOf_id]
  simp only [List.append_assoc]

/-- The entries before the place have lesser keys. -/
lemma lt_of_before (h : Located key leaves levels root id leaf before after front back)
    (hs : Stands leaves levels root) {x : KeyEntry V}
    (hx : x ∈ held (entriesOf leaves) before ++ front) : sortKey x < sortKey key := by
  have hordered := hs.ordered
  rw [h.path.spine_eq] at hordered
  rcases List.mem_append.mp hx with hx | hx
  · exact h.cut.lt_key hordered.left hx
  · exact h.front_lt x hx

/-- The entries from the place on have not. -/
lemma le_of_after (h : Located key leaves levels root id leaf before after front back)
    (hs : Stands leaves levels root) {x : KeyEntry V}
    (hx : x ∈ back ++ held (entriesOf leaves) after) : sortKey key ≤ sortKey x := by
  have hordered := hs.ordered
  rw [h.path.spine_eq, List.append_cons] at hordered
  rcases List.mem_append.mp hx with hx | hx
  · exact h.le_back x hx
  · exact (h.cut.key_lt hordered.right hx).le

/-- The key's entry is the one at the place, or there is none. -/
lemma cases (h : Located key leaves levels root id leaf before after front back)
    (hs : Stands leaves levels root) :
    (∃ e rest, back = e :: rest ∧ sortKey e = sortKey key ∧
        (leaf.entries[front.length]?.any fun entry => keySame entry key) = true) ∨
      (∀ x ∈ back ++ held (entriesOf leaves) after, sortKey key < sortKey x) ∧
        (leaf.entries[front.length]?.any fun entry => keySame entry key) = false := by
  have hsorted := hs.ordered.sorted
  rw [h.held_eq] at hsorted
  have hafter := (List.pairwise_append.mp hsorted).2.1
  rw [h.entries_eq]
  cases hback : back with
  | nil =>
    refine Or.inr ⟨fun x hx => ?_, ?_⟩
    · have hordered := hs.ordered
      rw [h.path.spine_eq, List.append_cons] at hordered
      exact h.cut.key_lt hordered.right hx
    · rw [List.append_nil, List.getElem?_eq_none le_rfl]
      rfl
  | cons e rest =>
    rw [getElem?_front, Option.any_some]
    by_cases hsame : sortKey e = sortKey key
    · exact Or.inl ⟨e, rest, rfl, hsame, (keySame_iff e key).mpr hsame⟩
    · refine Or.inr ⟨fun x hx => ?_, ?_⟩
      · have hle : sortKey key ≤ sortKey e := h.le_back e (by rw [hback]; exact List.mem_cons_self)
        have hlt : sortKey key < sortKey e := lt_of_le_of_ne hle (Ne.symm hsame)
        rw [hback, List.cons_append] at hafter
        rw [List.cons_append] at hx
        rcases List.mem_cons.mp hx with rfl | hx
        · exact hlt
        · exact lt_trans hlt ((List.pairwise_cons.mp hafter).1 x hx)
      · rw [← Bool.not_eq_true, keySame_iff]
        exact hsame

/-- No entry has a key whose place is before greater keys. -/
lemma absent (h : Located key leaves levels root id leaf before after front back)
    (hs : Stands leaves levels root)
    (hgt : ∀ x ∈ back ++ held (entriesOf leaves) after, sortKey key < sortKey x) :
    ∀ e ∈ held (entriesOf leaves) (spine levels root), e.key ≠ key.key := by
  intro e he heq
  rw [h.held_eq, List.mem_append] at he
  rcases he with he | he
  · exact absurd (sortKey_inj.mpr heq) (h.lt_of_before hs he).ne
  · exact absurd (sortKey_inj.mpr heq) (hgt e he).ne'

end Located

/-! ### Searches -/

lemma Located.rank {leaf : Leaf V} {front back : List (KeyEntry V)}
    (h : Located key leaves levels root id leaf before after front back)
    (hs : Stands leaves levels root) :
    (held (entriesOf leaves) (spine levels root)).countP
        (fun e => decide (sortKey e < sortKey key)) =
      (held (entriesOf leaves) before ++ front).length := by
  rw [h.held_eq, List.countP_append, List.countP_eq_length.mpr fun e he =>
    decide_eq_true (h.lt_of_before hs he), List.countP_eq_zero.mpr fun e he => by
      simpa using h.le_of_after hs he, Nat.add_zero]

/-- A search gives the key's entry, or that there is none, and the number of the entries before
it. -/
lemma Tree.Good.find_spec {tree : Tree V} (h : tree.Good) (key : KeyEntry V) :
    ∃ found, tree.find key =
        some (found, tree.entries.countP fun e => decide (sortKey e < sortKey key)) ∧
      (∀ place, found = some place →
        ∃ e ∈ tree.entries, tree.entryAt place = some e ∧ e.key = key.key) ∧
      (found = none → ∀ e ∈ tree.entries, e.key ≠ key.key) := by
  cases hroot : tree.root with
  | none =>
    refine ⟨none, ?_, fun place hplace => (by cases hplace), fun _ e he => ?_⟩
    · rw [Tree.find, hroot, Tree.entries, hroot]
      rfl
    · rw [Tree.entries, hroot] at he
      exact absurd he List.not_mem_nil
  | some root =>
    have hs := h.stands root hroot
    obtain ⟨id, leaf, before, after, front, back, hl⟩ := hs.located key
    have hentries : tree.entries = held (entriesOf tree.leaves) (spine tree.levels root) := by
      rw [Tree.entries, hroot]
    have hfind : tree.find key = some (if leaf.entries[front.length]?.any fun entry =>
        keySame entry key then some (id, front.length) else none,
          (held (entriesOf tree.leaves) before ++ front).length) := by
      rw [Tree.find, hroot]
      dsimp only
      rw [hl.path.descend_eq hs.sized, Option.bind_some, hl.stored, Option.map_some, hl.place,
        Nat.zero_add, List.length_append]
    rw [hentries, hl.rank hs]
    rcases hl.cases hs with ⟨e, rest, hback, hsame, hany⟩ | ⟨hgt, hany⟩
    · refine ⟨some (id, front.length), by rw [hfind, if_pos hany], ?_, fun hnone => by cases hnone⟩
      rintro place ⟨⟩
      refine ⟨e, ?_, ?_, sortKey_inj.mp hsame⟩
      · rw [hl.held_eq, hback]
        simp
      · rw [Tree.entryAt, hl.stored, Option.bind_some, hl.entries_eq, hback, getElem?_front]
    · refine ⟨none, by rw [hfind, hany]; rfl, fun place hplace => (by cases hplace),
        fun _ => hl.absent hs hgt⟩

/-- The entry of a rank. -/
lemma Tree.Good.at_spec {tree : Tree V} (h : tree.Good) {rank : ℕ}
    (hrank : rank < tree.entries.length) : tree.at' rank = tree.entries[rank]? := by
  cases hroot : tree.root with
  | none =>
    rw [Tree.entries, hroot] at hrank
    exact absurd hrank (Nat.not_lt_zero _)
  | some root =>
    have hs := h.stands root hroot
    have hentries : tree.entries = held (entriesOf tree.leaves) (spine tree.levels root) := by
      rw [Tree.entries, hroot]
    rw [hentries] at hrank ⊢
    obtain ⟨id, below, hplace, hget⟩ := placeAt_spec hs.sized hrank
    rw [← hget, Tree.at', hroot, Option.bind_some, hplace, Option.bind_some, Tree.entryAt,
      entriesOf]
    cases tree.leaves[id]? <;> rfl

/-! ### The walk -/

/-- A cursor's entries yet to come: those of its leaf from its index on and those of the leaves
after it. -/
def Rests (leaves : List (Leaf V)) (ids : List ℕ) (cursor : Cursor) (l : List (KeyEntry V)) :
    Prop :=
  cursor.leaf = none ∧ l = [] ∨
    ∃ id first last, cursor.leaf = some id ∧ ids = first ++ id :: last ∧
      cursor.index ≤ (entriesOf leaves id).length ∧
      l = (entriesOf leaves id).drop cursor.index ++ last.flatMap (entriesOf leaves)

/-- Leaves without more entries are passed. -/
lemma Fits.skip_spec {items : List (Item ℕ (List ℕ))} (h : Fits leaves items) {id : ℕ}
    {first last : List ℕ} (hids : pieces items = first ++ id :: last) {index : ℕ}
    (hindex : index ≤ (entriesOf leaves id).length) {fuel : ℕ} (hfuel : last.length + 2 ≤ fuel) :
    ∃ cursor, skip leaves fuel ⟨some id, index⟩ = some cursor ∧
      Rests leaves (pieces items) cursor
        ((entriesOf leaves id).drop index ++ last.flatMap (entriesOf leaves)) ∧
      ∀ b, cursor.leaf = some b → cursor.index < (entriesOf leaves b).length := by
  induction fuel generalizing id first last index with
  | zero => omega
  | succ fuel ih =>
    have hmem : id ∈ pieces items := by
      rw [hids]
      simp
    obtain ⟨leaf, hget, hentries⟩ := exists_leaf (h.stored id hmem)
    have hnext : leaf.next = last.head? := by
      have hnodup := h.nodup
      rw [hids, List.nodup_append] at hnodup
      rw [h.linked id hmem leaf hget, hids, Links.next_split]
      exact fun hin => hnodup.2.2 id hin id List.mem_cons_self rfl
    rw [skip]
    dsimp only
    rw [hget, Option.bind_some, hentries]
    by_cases hend : index = (entriesOf leaves id).length
    · rw [if_pos hend, hnext, hend, List.drop_length, List.nil_append]
      cases last with
      | nil =>
        have hfuel' : fuel = fuel - 1 + 1 := by simp at hfuel; omega
        refine ⟨⟨none, 0⟩, ?_, Or.inl ⟨rfl, rfl⟩, fun b hb => by cases hb⟩
        rw [hfuel', skip]
        rfl
      | cons next last =>
        have hids' : pieces items = (first ++ [id]) ++ next :: last := by
          rw [hids]
          simp
        simp only [List.length_cons] at hfuel
        obtain ⟨cursor, hskip, hrests, hlt⟩ := ih hids' (Nat.zero_le _) (by omega)
        exact ⟨cursor, hskip, hrests, hlt⟩
    · refine ⟨⟨some id, index⟩, if_neg hend, Or.inr ⟨id, first, last, rfl, hids, hindex, rfl⟩, ?_⟩
      rintro b ⟨⟩
      exact lt_of_le_of_ne hindex hend

lemma Fits.length_pieces {items : List (Item ℕ (List ℕ))} (h : Fits leaves items) :
    (pieces items).length ≤ leaves.length := by
  have hsub : pieces items ⊆ List.range leaves.length :=
    fun b hb => List.mem_range.mpr (h.stored b hb)
  have hle := (List.subperm_of_subset h.nodup hsub).length_le
  rwa [List.length_range] at hle

/-- A step gives the next entry. -/
lemma Fits.next_spec {tree : Tree V} {items : List (Item ℕ (List ℕ))} (h : Fits tree.leaves items)
    {cursor : Cursor} {l : List (KeyEntry V)} (hrests : Rests tree.leaves (pieces items) cursor l) :
    ∃ cursor', tree.next cursor = some (cursor', l.head?) ∧
      Rests tree.leaves (pieces items) cursor' l.tail := by
  obtain ⟨stopped, hskip, hstopped, hlt⟩ : ∃ stopped,
      skip tree.leaves (tree.leaves.length + 1) cursor = some stopped ∧
        Rests tree.leaves (pieces items) stopped l ∧
        ∀ b, stopped.leaf = some b → stopped.index < (entriesOf tree.leaves b).length := by
    rcases hrests with ⟨hleaf, rfl⟩ | ⟨id, first, last, hleaf, hids, hindex, rfl⟩
    · refine ⟨cursor, ?_, Or.inl ⟨hleaf, rfl⟩, fun b hb => ?_⟩
      · rw [skip, hleaf]
      · rw [hleaf] at hb
        cases hb
    · have hlength := h.length_pieces
      rw [hids, List.length_append, List.length_cons] at hlength
      obtain ⟨leaf, index⟩ := cursor
      cases hleaf
      exact h.skip_spec hids hindex (by omega)
  rw [Tree.next, hskip, Option.bind_some]
  rcases hstopped with ⟨hleaf, rfl⟩ | ⟨id, first, last, hleaf, hids, hindex, rfl⟩
  · refine ⟨stopped, ?_, Or.inl ⟨hleaf, rfl⟩⟩
    rw [hleaf]
    rfl
  · have hlt' := hlt id hleaf
    have hmem : id ∈ pieces items := by
      rw [hids]
      simp
    obtain ⟨leaf, hget, hentries⟩ := exists_leaf (h.stored id hmem)
    have hentry : tree.entryAt (id, stopped.index) =
        some (entriesOf tree.leaves id)[stopped.index] := by
      rw [Tree.entryAt, hget, Option.bind_some, hentries, List.getElem?_eq_getElem hlt']
    have hdrop := List.drop_eq_getElem_cons hlt'
    refine ⟨⟨some id, stopped.index + 1⟩, ?_, Or.inr ⟨id, first, last, rfl, hids, hlt', ?_⟩⟩
    · rw [hleaf]
      dsimp only
      rw [hentry, hdrop]
      rfl
    · rw [hdrop]
      rfl

/-- The calls of a walk give the entries yet to come, and then that there are no more. -/
lemma Fits.walk_spec {tree : Tree V} {items : List (Item ℕ (List ℕ))} (h : Fits tree.leaves items)
    {cursor : Cursor} {l : List (KeyEntry V)} (hrests : Rests tree.leaves (pieces items) cursor l)
    (calls : ℕ) : tree.walk calls cursor = some ((List.range calls).map fun n => l[n]?) := by
  induction calls generalizing cursor l with
  | zero => rfl
  | succ calls ih =>
    obtain ⟨cursor', hnext, hrests'⟩ := h.next_spec hrests
    rw [Tree.walk, hnext, Option.bind_some, ih hrests', Option.map_some, List.range_succ_eq_map,
      List.map_cons, List.map_map]
    refine congrArg some (congrArg₂ List.cons List.head?_eq_getElem? ?_)
    refine List.map_congr_left fun n _ => ?_
    rw [Function.comp_apply, List.getElem?_tail]

/-- A walk from where a key is sought visits the entries that are not before it. -/
lemma Tree.Good.seek_spec {tree : Tree V} (h : tree.Good) (key : KeyEntry V) :
    ∃ cursor first last, tree.seek key = some cursor ∧ tree.entries = first ++ last ∧
      (∀ e ∈ first, sortKey e < sortKey key) ∧ (∀ e ∈ last, sortKey key ≤ sortKey e) ∧
      ∀ calls, tree.walk calls cursor = some ((List.range calls).map fun n => last[n]?) := by
  cases hroot : tree.root with
  | none =>
    refine ⟨⟨none, 0⟩, [], [], ?_, ?_, by simp, by simp, fun calls => ?_⟩
    · rw [Tree.seek, hroot]
    · rw [Tree.entries, hroot]
      rfl
    · have hempty : Fits tree.leaves [] :=
        ⟨List.Pairwise.nil, List.nodup_nil, by simp, by simp⟩
      exact hempty.walk_spec (Or.inl ⟨rfl, rfl⟩) calls
  | some root =>
    have hs := h.stands root hroot
    obtain ⟨id, leaf, before, after, front, back, hl⟩ := hs.located key
    have hentries : tree.entries = held (entriesOf tree.leaves) (spine tree.levels root) := by
      rw [Tree.entries, hroot]
    refine ⟨⟨some id, front.length⟩, _, _, ?_, hentries.trans hl.held_eq,
      fun e he => hl.lt_of_before hs he, fun e he => hl.le_of_after hs he, fun calls => ?_⟩
    · rw [Tree.seek, hroot]
      dsimp only
      rw [hl.path.descend_eq hs.sized, Option.bind_some, hl.stored, Option.map_some, hl.place]
    · refine hs.toFits.walk_spec (Or.inr ⟨id, pieces before, pieces after, rfl, ?_, ?_, ?_⟩) calls
      · rw [hl.path.spine_eq, Fences.pieces_append, Fences.pieces_piece]
      · rw [hl.entriesOf_id, List.length_append]
        exact Nat.le_add_right _ _
      · rw [hl.entriesOf_id, Fences.held_eq_pieces]
        dsimp only
        rw [List.drop_left]

end MarkdownCore.KeyTree
