import MarkdownCore.Map.KeyTreeList

/-!
# The ordered key index's entries changed

A removal takes the key's entry out of the list, an insertion puts one in at the key's place, and a
write changes one. An insertion that has no storage changes nothing.
-/

namespace MarkdownCore.KeyTree

open Fences (Item Cut Ordered held pieces)

variable {V : Type} {key : KeyEntry V} {leaves leaves' : List (Leaf V)} {levels : ℕ}
  {root : Node V levels} {id : ℕ} {before after : List (Item ℕ (List ℕ))}

/-! ### Leaves changed -/

lemma entriesOf_set {leaf leaf' : Leaf V} (h : leaves[id]? = some leaf) (b : ℕ) :
    entriesOf (leaves.set id leaf') b = if b = id then leaf'.entries else entriesOf leaves b := by
  obtain ⟨hlt, -⟩ := List.getElem?_eq_some_iff.mp h
  rw [entriesOf, List.getElem?_set]
  by_cases heq : id = b
  · rw [if_pos heq, if_pos heq.symm, if_pos hlt]
    rfl
  · rw [if_neg heq, if_neg (Ne.symm heq)]
    rfl

/-- A leaf's entries change, and the next leaf does not. -/
lemma Fits.set {items : List (Item ℕ (List ℕ))} (h : Fits leaves items) {leaf : Leaf V}
    (hget : leaves[id]? = some leaf) (entries : List (KeyEntry V))
    (hordered : Ordered (entriesOf (leaves.set id { leaf with entries })) sortKey items) :
    Fits (leaves.set id { leaf with entries }) items := by
  refine ⟨hordered, h.nodup, fun b hb => ?_, fun b hb other hother => ?_⟩
  · rw [List.length_set]
    exact h.stored b hb
  · rw [List.getElem?_set] at hother
    split at hother
    next heq =>
      subst heq
      split at hother
      next hlt =>
        cases hother
        exact h.linked id hb leaf hget
      next => cases hother
    next => exact h.linked b hb other hother

/-- The leaves besides the one of a key's place. -/
lemma Located.others {leaf leaf' : Leaf V} {front back : List (KeyEntry V)}
    (h : Located key leaves levels root id leaf before after front back)
    (hs : Stands leaves levels root) {b : ℕ} (hb : b ∈ pieces before ++ pieces after) :
    entriesOf (leaves.set id leaf') b = entriesOf leaves b := by
  have hnodup := hs.nodup
  rw [h.path.spine_eq, Fences.pieces_append, Fences.pieces_piece] at hnodup
  rw [entriesOf_set h.stored, if_neg]
  rintro rfl
  rcases List.mem_append.mp hb with hb | hb
  · exact (List.nodup_append.mp hnodup).2.2 b hb b List.mem_cons_self rfl
  · exact (List.nodup_cons.mp (List.nodup_append.mp hnodup).2.1).1 hb

/-! ### Removal -/

lemma eraseIdx_front {β : Type*} (front : List β) (item : β) (back : List β) :
    (front ++ item :: back).eraseIdx front.length = front ++ back := by
  rw [List.eraseIdx_append_of_length_le le_rfl, Nat.sub_self]
  rfl

/-- A removal takes the key's entry out, when there is one. -/
lemma Tree.Good.remove_spec {tree : Tree V} (h : tree.Good) (key : KeyEntry V) :
    ∃ tree', tree.remove key = some tree' ∧ tree'.Good ∧
      (tree' = tree ∧ (∀ e ∈ tree.entries, e.key ≠ key.key) ∨
        ∃ first e last, e.key = key.key ∧ tree.entries = first ++ e :: last ∧
          tree'.entries = first ++ last) := by
  cases hroot : tree.root with
  | none =>
    refine ⟨tree, by rw [Tree.remove, hroot], h, Or.inl ⟨rfl, fun e he => ?_⟩⟩
    rw [Tree.entries, hroot] at he
    exact absurd he List.not_mem_nil
  | some root =>
    have hs := h.stands root hroot
    obtain ⟨id, leaf, before, after, front, back, hl⟩ := hs.located key
    have hentries : tree.entries = held (entriesOf tree.leaves) (spine tree.levels root) := by
      rw [Tree.entries, hroot]
    have hremove : tree.remove key =
        if leaf.entries[front.length]?.any fun entry => keySame entry key then
          (lessen key tree.levels root).map fun root =>
            ⟨tree.levels, some root, tree.count - 1,
              tree.leaves.set id { leaf with entries := leaf.entries.eraseIdx front.length }⟩
        else some tree := by
      rw [Tree.remove, hroot]
      dsimp only
      rw [hl.path.descend_eq hs.sized, Option.bind_some, hl.stored, Option.bind_some, hl.place]
    rcases hl.cases hs with ⟨e, rest, hback, hsame, hany⟩ | ⟨hgt, hany⟩
    · have herase : leaf.entries.eraseIdx front.length = front ++ rest := by
        rw [hl.entries_eq, hback, eraseIdx_front]
      set leaves' := tree.leaves.set id { leaf with entries := front ++ rest } with hleaves'
      have hid : entriesOf leaves' id = front ++ rest := by
        rw [hleaves', entriesOf_set hl.stored, if_pos rfl]
      have hothers : ∀ b ∈ pieces before ++ pieces after,
          entriesOf leaves' b = entriesOf tree.leaves b := fun b hb => hl.others hs hb
      obtain ⟨root', hlessen, hsized, hspine⟩ := lessen_spec hl.path hs.sized hothers (by
        rw [hid, hl.entriesOf_id, hback, List.length_append, List.length_append, List.length_cons]
        rfl)
      have hordered : Ordered (entriesOf leaves') sortKey (spine tree.levels root') := by
        have hold := hs.ordered
        rw [hl.path.spine_eq] at hold
        rw [hspine, hl.path.spine_eq]
        refine hold.drop ?_ hothers
        rw [hid, hl.entriesOf_id, hback]
        exact (List.Sublist.refl front).append (List.sublist_cons_self e rest)
      have hstands : Stands leaves' tree.levels root' := by
        refine ⟨?_, hsized⟩
        rw [hspine] at hordered ⊢
        exact hs.toFits.set hl.stored _ hordered
      have hleft : held (entriesOf leaves') (spine tree.levels root') =
          (held (entriesOf tree.leaves) before ++ front) ++
            (rest ++ held (entriesOf tree.leaves) after) := by
        rw [hspine, hl.path.spine_eq, Fences.held_append, Fences.held_piece, hid,
          Fences.held_congr fun b hb => hothers b (List.mem_append_left _ hb),
          Fences.held_congr fun b hb => hothers b (List.mem_append_right _ hb)]
        simp only [List.append_assoc]
      have hheld : tree.entries = (held (entriesOf tree.leaves) before ++ front) ++
          e :: (rest ++ held (entriesOf tree.leaves) after) := by
        rw [hentries, hl.held_eq, hback, List.cons_append]
      refine ⟨⟨tree.levels, some root', tree.count - 1, leaves'⟩, ?_, ⟨?_, ?_⟩,
        Or.inr ⟨_, e, _, sortKey_inj.mp hsame, hheld, hleft⟩⟩
      · rw [hremove, if_pos hany, hlessen, Option.map_some, herase]
      · rw [Tree.entries]
        dsimp only
        rw [hleft, h.count, hheld]
        simp only [List.length_append, List.length_cons]
        omega
      · rintro other ⟨⟩
        exact hstands
    · refine ⟨tree, by rw [hremove, hany]; rfl, h, Or.inl ⟨rfl, ?_⟩⟩
      rw [hentries]
      exact hl.absent hs hgt

/-! ### Insertion -/

lemma sortKey_made (key : KeyEntry V) : sortKey (made key) = sortKey key := rfl

/-- A leaf that is split: the leaves are linked as before, the new one after the one split. -/
lemma Fits.part (h : Fits leaves (before ++ .piece id :: after)) {leaf : Leaf V}
    (hget : leaves[id]? = some leaf) {front back : List (KeyEntry V)} {k : List ℕ}
    (hordered : Ordered (entriesOf (leaves.set id ⟨front, some leaves.length⟩ ++
      [⟨back, leaf.next⟩])) sortKey
        (before ++ .piece id :: .fence k :: .piece leaves.length :: after)) :
    Fits (leaves.set id ⟨front, some leaves.length⟩ ++ [⟨back, leaf.next⟩])
      (before ++ .piece id :: .fence k :: .piece leaves.length :: after) := by
  have hnodup := h.nodup
  have hstored := h.stored
  have hlinked := h.linked
  simp only [Fences.pieces_append, Fences.pieces_piece] at hnodup hstored hlinked
  have hnew : leaves.length ∉ pieces before ++ id :: pieces after :=
    fun hin => absurd (hstored _ hin) (lt_irrefl _)
  have hinsert : ((pieces before ++ [id]) ++ leaves.length :: pieces after).Nodup := by
    rw [List.nodup_middle]
    refine List.nodup_cons.mpr ⟨?_, ?_⟩
    · simpa using hnew
    · simpa using hnodup
  have hlength : (leaves.set id ⟨front, some leaves.length⟩).length = leaves.length :=
    List.length_set
  refine ⟨hordered, ?_, ?_, ?_⟩
  · simpa using hinsert
  · intro b hb
    simp only [Fences.pieces_append, Fences.pieces_piece, Fences.pieces_fence] at hb
    rw [List.length_append, hlength, List.length_singleton]
    rcases List.mem_append.mp hb with hb | hb
    · exact Nat.lt_succ_of_lt (hstored b (List.mem_append_left _ hb))
    · rcases List.mem_cons.mp hb with rfl | hb
      · exact Nat.lt_succ_of_lt (hstored b (by simp))
      · rcases List.mem_cons.mp hb with rfl | hb
        · exact Nat.lt_succ_self _
        · exact Nat.lt_succ_of_lt (hstored b (by simp [hb]))
  · intro b hb other hother
    simp only [Fences.pieces_append, Fences.pieces_piece, Fences.pieces_fence] at hb ⊢
    have hids : pieces before ++ id :: leaves.length :: pieces after =
        (pieces before ++ [id]) ++ leaves.length :: pieces after := by simp
    by_cases hb' : b = leaves.length
    · subst hb'
      rw [List.getElem?_append_right hlength.le, hlength, Nat.sub_self] at hother
      cases hother
      rw [hids, Links.next_split, hlinked id (by simp) leaf hget, Links.next_split]
      · exact fun hin => (List.nodup_append.mp hnodup).2.2 id hin id List.mem_cons_self rfl
      · intro hin
        rcases List.mem_append.mp hin with hin | hin
        · exact hnew (List.mem_append_left _ hin)
        · rw [List.mem_singleton.mp hin] at hnew
          exact hnew (List.mem_append_right _ List.mem_cons_self)
    · have hold : b ∈ (pieces before ++ [id]) ++ pieces after := by
        rw [hids] at hb
        simp only [List.mem_append, List.mem_cons] at hb ⊢
        tauto
      have hlt : b < leaves.length := hstored b (by simpa using hold)
      rw [List.getElem?_append_left (hlt.trans_eq hlength.symm), List.getElem?_set] at hother
      rw [hids, Links.next_insert hinsert hold]
      by_cases hid : id = b
      · subst hid
        rw [if_pos rfl, if_pos hlt] at hother
        cases hother
        rw [if_pos (by simp)]
      · rw [if_neg hid] at hother
        rw [if_neg (by simpa using hid), hlinked b (by simpa using hold) other hother]
        simp

/-- A root that was split is a place of a new one, with what its split made after it. -/
lemma rooted_spec {raised : Node V levels × Option (Slot V (Node V levels))}
    (hfits : Fits leaves (raisedSpine levels raised)) (hsized : Sized leaves levels raised.1)
    (hmade : MadeSized leaves levels raised.2) (count : ℕ) :
    ∃ tree root, rooted levels raised count leaves = some tree ∧ tree.count = count + 1 ∧
      tree.leaves = leaves ∧ tree.root = some root ∧ Stands leaves tree.levels root ∧
      spine tree.levels root = raisedSpine levels raised := by
  obtain ⟨root, made⟩ := raised
  cases made with
  | none =>
    have hspine : raisedSpine levels (root, none) = spine levels root := List.append_nil _
    rw [hspine] at hfits
    exact ⟨⟨levels, some root, count + 1, leaves⟩, root, rfl, rfl, rfl, rfl, ⟨hfits, hsized⟩,
      hspine.symm⟩
  | some made =>
    have hstored : ∀ b ∈ pieces (spine levels root), b < leaves.length := by
      intro b hb
      refine hfits.stored b ?_
      rw [raisedSpine, Fences.pieces_append]
      exact List.mem_append_left _ hb
    set first : Slot V (Node V levels) :=
      ⟨root, (held (entriesOf leaves) (spine levels root)).length, ⟨0, [], 0, none, rfl⟩⟩
    have hspine : spine (levels + 1) [first, made] = raisedSpine levels (root, some made) := rfl
    refine ⟨⟨levels + 1, some [first, made], count + 1, leaves⟩, [first, made], ?_, rfl, rfl, rfl,
      ⟨hfits, ?_⟩, hspine⟩
    · rw [rooted]
      dsimp only
      rw [treeSize_eq hsized hstored]
      rfl
    · refine ⟨List.cons_ne_nil _ _, (by decide : 2 ≤ fanout), fun slot hslot => ?_⟩
      rcases List.mem_cons.mp hslot with rfl | hslot
      · exact ⟨rfl, hsized⟩
      · rw [List.mem_singleton.mp hslot]
        exact hmade made rfl

lemma Path.room (h : Path key levels root id before after) (hsized : Sized leaves levels root) :
    (entriesOf leaves id).length ≤ fanout := by
  induction h with
  | leaf => exact hsized
  | inner hslots hchild h ih => exact ih (hsized.2.2 _ (by rw [hslots]; simp)).2

/-- What an entry put in its leaf leaves: the leaf, or the two it was split in, hold the entry at
its place, and are linked as the leaf was. -/
structure PutAt (key : KeyEntry V) (leaves leaves' : List (Leaf V)) (id : ℕ)
    (before after : List (Item ℕ (List ℕ))) (front back : List (KeyEntry V))
    (slot : Option (Slot V (Node V 0))) (place : ℕ × ℕ) : Prop where
  others : ∀ b ∈ pieces before ++ pieces after, entriesOf leaves' b = entriesOf leaves b
  room : (entriesOf leaves' id).length ≤ fanout
  sized : MadeSized leaves' 0 slot
  fits : Fits leaves' (before ++ raisedSpine 0 (id, slot) ++ after)
  held_eq : held (entriesOf leaves') (raisedSpine 0 (id, slot)) = front ++ made key :: back
  entry : (leaves'[place.1]?.bind fun leaf => leaf.entries[place.2]?) = some (made key)

section Put

variable {leaf : Leaf V} {front back : List (KeyEntry V)}

/-- An entry put in a leaf that has room. -/
lemma Located.put (hl : Located key leaves levels root id leaf before after front back)
    (hs : Stands leaves levels root) (hgt : ∀ x ∈ back, sortKey key < sortKey x)
    (hroom : leaf.entries.length < fanout) :
    PutAt key leaves (leaves.set id { leaf with entries := front ++ made key :: back }) id before
      after front back none (id, front.length) := by
  have hid : entriesOf (leaves.set id { leaf with entries := front ++ made key :: back }) id =
      front ++ made key :: back := by rw [entriesOf_set hl.stored, if_pos rfl]
  have hfits := hs.toFits
  rw [hl.path.spine_eq] at hfits
  have hordered := hfits.ordered.put hl.cut hl.entriesOf_id hid (sortKey_made key) hl.front_lt hgt
    fun b hb => hl.others hs hb
  have hspine : before ++ raisedSpine 0 (id, (none : Option (Slot V (Node V 0)))) ++ after =
      before ++ .piece id :: after := by
    rw [raisedSpine, List.append_assoc]
    rfl
  refine ⟨fun b hb => hl.others hs hb, ?_, fun slot h => (by cases h), ?_, ?_, ?_⟩
  · rw [hl.entries_eq, List.length_append] at hroom
    rw [hid, List.length_append, List.length_cons]
    omega
  · rw [hspine]
    exact hfits.set hl.stored _ hordered
  · change entriesOf _ id ++ _ = _
    rw [hid]
    exact List.append_nil _
  · obtain ⟨hlt, -⟩ := List.getElem?_eq_some_iff.mp hl.stored
    dsimp only
    rw [List.getElem?_set, if_pos rfl, if_pos hlt, Option.bind_some, getElem?_front]

/-- An entry put in a full leaf, which is split. -/
lemma Located.part (hl : Located key leaves levels root id leaf before after front back)
    (hs : Stands leaves levels root) (hgt : ∀ x ∈ back, sortKey key < sortKey x)
    {init rest : List (KeyEntry V)} {last first : KeyEntry V}
    (hparts : (init ++ [last]) ++ first :: rest = front ++ made key :: back)
    (hlength : (init ++ [last]).length = half) (hlength' : (first :: rest).length = half + 1) :
    PutAt key leaves (leaves.set id ⟨init ++ [last], some leaves.length⟩ ++
        [⟨first :: rest, leaf.next⟩]) id before after front back
      (some ⟨leaves.length, (first :: rest).length, first⟩)
      (if front.length < half then (id, front.length)
        else (leaves.length, front.length - half)) := by
  set leaves' := leaves.set id ⟨init ++ [last], some leaves.length⟩ ++
    [⟨first :: rest, leaf.next⟩] with hleaves'
  have hset : (leaves.set id ⟨init ++ [last], some leaves.length⟩).length = leaves.length :=
    List.length_set
  have hget : ∀ b < leaves.length,
      leaves'[b]? = (leaves.set id ⟨init ++ [last], some leaves.length⟩)[b]? :=
    fun b hb => List.getElem?_append_left (hb.trans_eq hset.symm)
  have hnew : leaves'[leaves.length]? = some ⟨first :: rest, leaf.next⟩ := by
    rw [hleaves', List.getElem?_append_right hset.le, hset, Nat.sub_self]
    rfl
  obtain ⟨hlt, -⟩ := List.getElem?_eq_some_iff.mp hl.stored
  have hold : leaves'[id]? = some ⟨init ++ [last], some leaves.length⟩ := by
    rw [hget id hlt, List.getElem?_set, if_pos rfl, if_pos hlt]
  have hid : entriesOf leaves' id = init ++ [last] := entriesOf_eq hold
  have hright : entriesOf leaves' leaves.length = first :: rest := entriesOf_eq hnew
  have hfits := hs.toFits
  rw [hl.path.spine_eq] at hfits
  have hothers : ∀ b ∈ pieces before ++ pieces after, entriesOf leaves' b = entriesOf leaves b := by
    intro b hb
    have hstored : b < leaves.length := hfits.stored b (by
      rw [Fences.pieces_append, Fences.pieces_piece]
      rcases List.mem_append.mp hb with hb | hb
      · exact List.mem_append_left _ hb
      · exact List.mem_append_right _ (List.mem_cons_of_mem _ hb))
    rw [entriesOf, hget b hstored]
    exact hl.others hs hb
  have hordered : Ordered (entriesOf leaves') sortKey
      (before ++ .piece id :: .fence (sortKey first) :: .piece leaves.length :: after) := by
    -- the leaf first holds one entry too many, and is then parted
    have hwhole : entriesOf (leaves.set id ⟨front ++ made key :: back, leaf.next⟩) id =
        front ++ made key :: back := by rw [entriesOf_set hl.stored, if_pos rfl]
    have hput := hfits.ordered.put hl.cut hl.entriesOf_id hwhole (sortKey_made key) hl.front_lt
      hgt fun b hb => hl.others hs hb
    refine hput.part (hwhole.trans hparts.symm) hid hright fun b hb => ?_
    rw [hothers b hb]
    exact (hl.others hs hb).symm
  have hspine : before ++ raisedSpine 0 (id,
      some (⟨leaves.length, (first :: rest).length, first⟩ : Slot V (Node V 0))) ++ after =
        before ++ .piece id :: .fence (sortKey first) :: .piece leaves.length :: after := by
    rw [List.append_assoc]
    rfl
  have hfanout : half + 1 ≤ fanout := by decide
  refine ⟨hothers, ?_, ?_, ?_, ?_, ?_⟩
  · rw [hid]
    omega
  · rintro slot ⟨⟩
    refine ⟨?_, ?_⟩
    · change _ = (entriesOf leaves' leaves.length ++ _).length
      rw [hright]
      exact (congrArg List.length (List.append_nil _)).symm
    · change (entriesOf leaves' leaves.length).length ≤ fanout
      rw [hright]
      omega
  · rw [hspine]
    exact hfits.part hl.stored hordered
  · change entriesOf leaves' id ++ (entriesOf leaves' leaves.length ++ []) = _
    rw [hid, hright, List.append_nil, hparts]
  · have hentry : ((init ++ [last]) ++ first :: rest)[front.length]? = some (made key) := by
      rw [hparts, getElem?_front]
    split
    next hless =>
      rw [List.getElem?_append_left (hless.trans_eq hlength.symm)] at hentry
      rw [hold, Option.bind_some, hentry]
    next hmore =>
      rw [List.getElem?_append_right (by omega), hlength] at hentry
      rw [hnew, Option.bind_some, hentry]

lemma Located.putEntry_spec (hl : Located key leaves levels root id leaf before after front back)
    (hs : Stands leaves levels root) (hgt : ∀ x ∈ back, sortKey key < sortKey x) {splits : ℕ}
    (hsplits : splits = 0 ↔ leaf.entries.length < fanout) :
    ∃ leaves' slot place,
      putEntry leaves id leaf front.length splits key = some (leaves', slot, place) ∧
        PutAt key leaves leaves' id before after front back slot place := by
  rw [putEntry]
  by_cases hzero : splits = 0
  · refine ⟨_, none, (id, front.length), ?_, hl.put hs hgt (hsplits.mp hzero)⟩
    rw [if_pos hzero, hl.entries_eq, insertIdx_append]
  · have hfull : (front ++ back).length = fanout := by
      have hroom := hl.path.room hs.sized
      rw [hl.entriesOf_id] at hroom
      rw [hsplits, hl.entries_eq] at hzero
      omega
    obtain ⟨last, first, rest, init, hsplit, hparts, hlength, hlength'⟩ :=
      splitAt_spec hfull (made key)
    refine ⟨_, _, _, ?_, hl.part hs hgt hparts hlength hlength'⟩
    rw [if_neg hzero, hl.entries_eq, hsplit]
    rfl

end Put

/-- What an insertion answers: the entry there was, none where storage is refused, or the entry it
made. -/
inductive Entered (granted : ℕ → Bool) (key : KeyEntry V) (tree : Tree V) :
    Tree V × Option (ℕ × ℕ) × Bool → Prop
  | held {place : ℕ × ℕ} {e : KeyEntry V} (he : e ∈ tree.entries) (hkey : e.key = key.key)
    (hplace : tree.entryAt place = some e) : Entered granted key tree (tree, some place, false)
  | refused (hnone : ∀ e ∈ tree.entries, e.key ≠ key.key) {n : ℕ} (hn : granted n = false) :
    Entered granted key tree (tree, none, false)
  | made {tree' : Tree V} {place : ℕ × ℕ} {first last : List (KeyEntry V)}
    (hentries : tree.entries = first ++ last)
    (hentries' : tree'.entries = first ++ made key :: last)
    (hplace : tree'.entryAt place = some (made key)) :
    Entered granted key tree (tree', some place, true)

lemma Stands.insertIn_spec (hs : Stands leaves levels root) {tree : Tree V} {count : ℕ}
    (hentries : tree.entries = held (entriesOf leaves) (spine levels root))
    (hcount : count = tree.entries.length) (granted : ℕ → Bool) (key : KeyEntry V) :
    (∃ place e, e ∈ tree.entries ∧ e.key = key.key ∧
        (⟨levels, some root, count, leaves⟩ : Tree V).entryAt place = some e ∧
        insertIn levels root count leaves granted key =
          some (⟨levels, some root, count, leaves⟩, some place, false)) ∨
      (∀ e ∈ tree.entries, e.key ≠ key.key) ∧
        ((∃ n, granted n = false) ∧ tree.entries ≠ [] ∧
            insertIn levels root count leaves granted key =
              some (⟨levels, some root, count, leaves⟩, none, false) ∨
          ∃ tree' place first last, insertIn levels root count leaves granted key =
              some (tree', some place, true) ∧
            tree'.Good ∧ tree.entries = first ++ last ∧
            tree'.entries = first ++ made key :: last ∧
            tree'.entryAt place = some (made key)) := by
  obtain ⟨id, leaf, before, after, front, back, hl⟩ := hs.located key
  rw [hentries]
  rcases hl.cases hs with ⟨e, rest, hback, hsame, hany⟩ | ⟨hgt, hany⟩
  · refine Or.inl ⟨(id, front.length), e, ?_, sortKey_inj.mp hsame, ?_, ?_⟩
    · rw [hl.held_eq, hback]
      simp
    · rw [Tree.entryAt, hl.stored, Option.bind_some, hl.entries_eq, hback, getElem?_front]
    · rw [insertIn, hl.path.descend_eq hs.sized, Option.bind_some, hl.stored, Option.bind_some,
        hl.place, if_pos hany]
  · have hback : ∀ x ∈ back, sortKey key < sortKey x :=
      fun x hx => hgt x (List.mem_append_left _ hx)
    obtain ⟨splits, hsplits, hpos⟩ := hl.path.exists_splits
    have hroom := hl.path.room hs.sized
    rw [hl.entriesOf_id, ← hl.entries_eq] at hroom
    set splits' := if leaf.entries.length = fanout then splits else 0 with hsplits'
    have hfound : (if leaf.entries.length = fanout then splitsOf key levels root else some 0) =
        some splits' := by
      rw [hsplits', hsplits]
      split <;> rfl
    have hzero : splits' = 0 ↔ leaf.entries.length < fanout := by
      rw [hsplits']
      split <;> omega
    obtain ⟨leaves', slot, place, hput, hat⟩ := hl.putEntry_spec hs hback hzero
    obtain ⟨raised, -, hraise, hsized, hmade, hspine, -⟩ :=
      raise_spec hl.path hs.sized hat.others hat.fits.stored hat.room hat.sized (by
        rw [hat.held_eq, hl.entriesOf_id, List.length_append, List.length_append,
          List.length_cons]
        rfl)
    obtain ⟨tree', root', hrooted, hcount', hleaves', hroot', hstands', hspine'⟩ :=
      rooted_spec (hspine ▸ hat.fits) hsized hmade count
    have hinsert : insertIn levels root count leaves granted key =
        if (List.range (splits' + if levels < splits' then 1 else 0)).all granted then
          some (tree', some place, true)
        else some (⟨levels, some root, count, leaves⟩, none, false) := by
      rw [insertIn, hl.path.descend_eq hs.sized, Option.bind_some, hl.stored, Option.bind_some,
        hl.place]
      dsimp only
      rw [hany, if_neg Bool.false_ne_true, hfound, Option.bind_some, hput, Option.bind_some,
        hraise, Option.bind_some, hrooted]
      rfl
    have hentries' : tree'.entries = (held (entriesOf leaves) before ++ front) ++
        made key :: (back ++ held (entriesOf leaves) after) := by
      rw [Tree.entries, hroot']
      dsimp only
      rw [hleaves', hspine', hspine, Fences.held_append, Fences.held_append, hat.held_eq,
        Fences.held_congr fun b hb => hat.others b (List.mem_append_left _ hb),
        Fences.held_congr fun b hb => hat.others b (List.mem_append_right _ hb)]
      simp only [List.append_assoc, List.cons_append]
    refine Or.inr ⟨hl.absent hs hgt, ?_⟩
    by_cases hall : (List.range (splits' + if levels < splits' then 1 else 0)).all granted = true
    · refine Or.inr ⟨tree', place, held (entriesOf leaves) before ++ front,
        back ++ held (entriesOf leaves) after, by rw [hinsert, if_pos hall], ⟨?_, ?_⟩, hl.held_eq,
        hentries', ?_⟩
      · rw [hcount', hcount, hentries, hl.held_eq, hentries']
        simp only [List.length_append, List.length_cons]
        omega
      · intro other hother
        rw [hroot'] at hother
        cases hother
        rw [hleaves']
        exact hstands'
      · rw [Tree.entryAt, hleaves']
        exact hat.entry
    · refine Or.inl ⟨?_, ?_, by rw [hinsert, if_neg hall]⟩
      · rw [List.all_eq_true] at hall
        obtain ⟨n, hn⟩ := not_forall.mp hall
        exact ⟨n, by simpa using (Classical.not_imp.mp hn).2⟩
      · -- a leaf that has room needs no storage
        intro hnil
        have hempty : leaf.entries = [] := by
          rw [hl.held_eq] at hnil
          simp only [List.append_eq_nil_iff] at hnil
          rw [hl.entries_eq, hnil.1.2, hnil.2.1]
          rfl
        have hsplits0 : splits' = 0 := by
          rw [hzero, hempty]
          exact (by decide : 0 < fanout)
        exact hall (by rw [hsplits0]; rfl)

lemma good_empty : (Tree.empty : Tree V).Good := ⟨rfl, fun root hroot => by cases hroot⟩

lemma Tree.Good.entry_spec {tree : Tree V} (h : tree.Good) (granted : ℕ → Bool)
    (key : KeyEntry V) :
    ∃ answer, tree.entry granted key = some answer ∧ answer.1.Good ∧
      Entered granted key tree answer := by
  cases hroot : tree.root with
  | none =>
    have hentries : tree.entries = [] := by rw [Tree.entries, hroot]
    cases hgranted : granted 0 with
    | false =>
      refine ⟨(tree, none, false), ?_, h, .refused (fun e he => ?_) hgranted⟩
      · rw [Tree.entry, hroot]
        dsimp only
        rw [hgranted]
        rfl
      · rw [hentries] at he
        exact absurd he List.not_mem_nil
    | true =>
      set id : Node V 0 := tree.leaves.length with hid
      have hlast : (tree.leaves ++ [⟨[], none⟩])[tree.leaves.length]? =
          some (⟨[], none⟩ : Leaf V) := by
        rw [List.getElem?_append_right le_rfl, Nat.sub_self]
        rfl
      have hnil : entriesOf (tree.leaves ++ [⟨[], none⟩]) tree.leaves.length =
          ([] : List (KeyEntry V)) := entriesOf_eq hlast
      have hspine : spine 0 id = [.piece tree.leaves.length] := rfl
      have hstands : Stands (tree.leaves ++ [⟨[], none⟩]) 0 id := by
        refine ⟨⟨?_, ?_, ?_, ?_⟩, ?_⟩
        · rw [hspine, Ordered, Fences.marks_piece, hnil]
          exact List.Pairwise.nil
        · rw [hspine]
          exact List.nodup_singleton _
        · intro b hb
          rw [hspine, Fences.pieces_piece, Fences.pieces_nil, List.mem_singleton] at hb
          rw [hb, List.length_append, List.length_singleton]
          exact Nat.lt_succ_self _
        · intro b hb leaf hleaf
          rw [hspine, Fences.pieces_piece, Fences.pieces_nil, List.mem_singleton] at hb
          rw [hb, hlast] at hleaf
          cases hleaf
          rw [hb, hspine, Fences.pieces_piece, Links.next, if_pos rfl]
          rfl
        · change (entriesOf _ tree.leaves.length).length ≤ fanout
          rw [hnil]
          exact Nat.zero_le _
      have hheld : tree.entries =
          held (entriesOf (tree.leaves ++ [⟨[], none⟩])) (spine 0 id) := by
        rw [hentries, hspine, Fences.held_piece, hnil]
        rfl
      have hentry : tree.entry granted key = insertIn 0 id tree.count
          (tree.leaves ++ [⟨[], none⟩]) (fun n => granted (n + 1)) key := by
        rw [Tree.entry, hroot]
        dsimp only
        rw [hgranted]
        rfl
      rw [hentry]
      rcases hstands.insertIn_spec hheld h.count (fun n => granted (n + 1)) key with
        ⟨place, e, he, -⟩ |
          ⟨-, ⟨-, hne, -⟩ | ⟨tree', place, first, last, hinsert, hgood, h₁, h₂, h₃⟩⟩
      · rw [hentries] at he
        exact absurd he List.not_mem_nil
      · exact absurd hentries hne
      · exact ⟨_, hinsert, hgood, .made h₁ h₂ h₃⟩
  | some root =>
    have hs := h.stands root hroot
    have hentries : tree.entries = held (entriesOf tree.leaves) (spine tree.levels root) := by
      rw [Tree.entries, hroot]
    have hsame : (⟨tree.levels, some root, tree.count, tree.leaves⟩ : Tree V) = tree := by
      rw [← hroot]
    have hentry : tree.entry granted key =
        insertIn tree.levels root tree.count tree.leaves granted key := by
      rw [Tree.entry, hroot]
    rw [hentry]
    rcases hs.insertIn_spec hentries h.count granted key with
      ⟨place, e, he, hkey, hplace, hinsert⟩ |
        ⟨hnone, ⟨⟨n, hn⟩, -, hinsert⟩ | ⟨tree', place, first, last, hinsert, hgood, h₁, h₂, h₃⟩⟩
    · rw [hsame] at hplace hinsert
      exact ⟨_, hinsert, h, .held he hkey hplace⟩
    · rw [hsame] at hinsert
      exact ⟨_, hinsert, h, .refused hnone hn⟩
    · exact ⟨_, hinsert, hgood, .made h₁ h₂ h₃⟩

/-! ### A caller's write -/

/-- A write through the entry a search finds changes that entry alone. -/
lemma Tree.Good.put_spec {tree : Tree V} (h : tree.Good) (key : KeyEntry V) (extra : ℕ)
    (value : Option V) :
    ∃ tree', tree.put key extra value = some tree' ∧ tree'.Good ∧
      (tree' = tree ∧ (∀ e ∈ tree.entries, e.key ≠ key.key) ∨
        ∃ first e last, e.key = key.key ∧ tree.entries = first ++ e :: last ∧
          tree'.entries = first ++ { e with extra, value } :: last) := by
  cases hroot : tree.root with
  | none =>
    refine ⟨tree, ?_, h, Or.inl ⟨rfl, fun e he => ?_⟩⟩
    · rw [Tree.put, Tree.find, hroot]
      rfl
    · rw [Tree.entries, hroot] at he
      exact absurd he List.not_mem_nil
  | some root =>
    have hs := h.stands root hroot
    obtain ⟨id, leaf, before, after, front, back, hl⟩ := hs.located key
    have hentries : tree.entries = held (entriesOf tree.leaves) (spine tree.levels root) := by
      rw [Tree.entries, hroot]
    have hput : tree.put key extra value =
        (if leaf.entries[front.length]?.any fun entry => keySame entry key then
          some (id, front.length) else none).elim (some tree) fun place =>
            tree.write place extra value := by
      rw [Tree.put, Tree.find, hroot]
      dsimp only
      rw [hl.path.descend_eq hs.sized, Option.bind_some, hl.stored, Option.map_some, hl.place,
        Option.bind_some]
    rcases hl.cases hs with ⟨e, rest, hback, hsame, hany⟩ | ⟨hgt, hany⟩
    · set leaves' := tree.leaves.set id
        { leaf with entries := front ++ { e with extra, value } :: rest } with hleaves'
      have hid : entriesOf leaves' id = front ++ { e with extra, value } :: rest := by
        rw [hleaves', entriesOf_set hl.stored, if_pos rfl]
      have hold : entriesOf tree.leaves id = front ++ e :: rest := by
        rw [hl.entriesOf_id, hback]
      have hothers : ∀ b ∈ pieces before ++ pieces after,
          entriesOf leaves' b = entriesOf tree.leaves b := fun b hb => hl.others hs hb
      have hcases : ∀ b ∈ pieces (spine tree.levels root),
          b = id ∨ b ∈ pieces before ++ pieces after := by
        intro b hb
        rw [hl.path.spine_eq, Fences.pieces_append, Fences.pieces_piece, List.mem_append,
          List.mem_cons] at hb
        rw [List.mem_append]
        tauto
      have hkeys : ∀ b ∈ pieces (spine tree.levels root),
          (entriesOf leaves' b).map sortKey = (entriesOf tree.leaves b).map sortKey := by
        intro b hb
        rcases hcases b hb with rfl | hb
        · rw [hid, hold, List.map_append, List.map_append]
          rfl
        · rw [hothers b hb]
      have hordered : Ordered (entriesOf leaves') sortKey (spine tree.levels root) := by
        rw [Ordered, Fences.marks_congr_key hkeys]
        exact hs.ordered
      have hstands : Stands leaves' tree.levels root := by
        refine ⟨hs.toFits.set hl.stored _ hordered, hs.sized.congr fun b hb => ?_⟩
        have hlength := congrArg List.length (hkeys b hb)
        rwa [List.length_map, List.length_map] at hlength
      have hleft : held (entriesOf leaves') (spine tree.levels root) =
          (held (entriesOf tree.leaves) before ++ front) ++
            { e with extra, value } :: (rest ++ held (entriesOf tree.leaves) after) := by
        rw [hl.path.spine_eq, Fences.held_append, Fences.held_piece, hid,
          Fences.held_congr fun b hb => hothers b (List.mem_append_left _ hb),
          Fences.held_congr fun b hb => hothers b (List.mem_append_right _ hb)]
        simp only [List.append_assoc, List.cons_append]
      have hheld : tree.entries = (held (entriesOf tree.leaves) before ++ front) ++
          e :: (rest ++ held (entriesOf tree.leaves) after) := by
        rw [hentries, hl.held_eq, hback, List.cons_append]
      have hentries' : (⟨tree.levels, tree.root, tree.count, leaves'⟩ : Tree V).entries =
          held (entriesOf leaves') (spine tree.levels root) := by
        rw [Tree.entries]
        dsimp only
        rw [hroot]
      refine ⟨⟨tree.levels, tree.root, tree.count, leaves'⟩, ?_, ⟨?_, ?_⟩,
        Or.inr ⟨_, e, _, sortKey_inj.mp hsame, hheld, hentries'.trans hleft⟩⟩
      · rw [hput, if_pos hany, Option.elim_some, Tree.write, hl.stored, Option.bind_some,
          hl.entries_eq, hback, getElem?_front, Option.map_some, set_front]
      · rw [hentries', hleft, h.count, hheld]
        simp only [List.length_append, List.length_cons]
      · intro other hother
        rw [hroot] at hother
        cases hother
        exact hstands
    · refine ⟨tree, ?_, h, Or.inl ⟨rfl, ?_⟩⟩
      · rw [hput, hany]
        rfl
      · rw [hentries]
        exact hl.absent hs hgt

end MarkdownCore.KeyTree
