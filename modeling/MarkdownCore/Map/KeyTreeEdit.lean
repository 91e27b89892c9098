import MarkdownCore.Map.KeyTreeRun

/-!
# The ordered key index's changes

An entry taken or put changes one leaf, and the nodes on the way to it: read from left to right
they are what they were, but for the leaf a split made (`raise_spec`). A node that is split is
parted between two places, with the second's key for a fence, which was there before.
-/

namespace MarkdownCore.KeyTree

open Fences (Item Cut Ordered held pieces)

variable {V : Type} {key : KeyEntry V} {leaves leaves' : List (Leaf V)} {levels : ℕ}
  {node : Node V levels} {id : ℕ} {before after : List (Item ℕ (List ℕ))}

/-! ### Splits -/

lemma insertIdx_append {β : Type*} (front back : List β) (item : β) :
    (front ++ back).insertIdx front.length item = front ++ item :: back := by
  induction front with
  | nil => rfl
  | cons first front ih =>
    rw [List.cons_append, List.length_cons, List.insertIdx_succ_cons, ih]
    rfl

/-- A split parts the row with the item in it at its half. -/
lemma splitAt_eq {β : Type} (front back : List β) (item : β) :
    splitAt (front ++ back) front.length item =
      ((front ++ item :: back).take half, (front ++ item :: back).drop half) := by
  have hhalf : half = 8 := rfl
  rw [splitAt]
  by_cases hlt : front.length < half
  · have hrest : half - front.length = half - 1 - front.length + 1 := by omega
    simp only [if_pos hlt]
    rw [List.take_append, List.drop_append, List.take_append, List.drop_append,
      List.take_of_length_le (show front.length ≤ half - 1 by omega),
      List.drop_of_length_le (show front.length ≤ half - 1 by omega),
      List.take_of_length_le hlt.le, List.drop_of_length_le hlt.le, insertIdx_append, hrest,
      List.take_succ_cons, List.drop_succ_cons]
  · have hle : half ≤ front.length := not_lt.mp hlt
    have hplace : front.length - half = (front.drop half).length := by rw [List.length_drop]
    simp only [if_neg hlt]
    rw [List.take_append_of_le_length hle, List.take_append_of_le_length hle,
      List.drop_append_of_le_length hle, List.drop_append_of_le_length hle, hplace,
      insertIdx_append]

/-- What a split of a full row keeps and what it parts from it. -/
lemma splitAt_spec {β : Type} {front back : List β} (h : (front ++ back).length = fanout)
    (item : β) :
    ∃ last first rest init, splitAt (front ++ back) front.length item =
        (init ++ [last], first :: rest) ∧
      (init ++ [last]) ++ first :: rest = front ++ item :: back ∧
      (init ++ [last]).length = half ∧ (first :: rest).length = half + 1 := by
  have hlength : (front ++ item :: back).length = fanout + 1 := by
    rw [← h, List.length_append, List.length_append, List.length_cons, Nat.add_assoc]
  have hfanout : fanout = 16 := rfl
  have hhalf : half = 8 := rfl
  have htake : ((front ++ item :: back).take half).length = half := by
    rw [List.length_take]
    omega
  have hdrop : ((front ++ item :: back).drop half).length = half + 1 := by
    rw [List.length_drop]
    omega
  have heq := splitAt_eq front back item
  have hall := List.take_append_drop half (front ++ item :: back)
  rcases List.eq_nil_or_concat ((front ++ item :: back).take half) with hnil | ⟨init, last, hinit⟩
  · rw [hnil] at htake
    exact absurd htake (by simp [hhalf])
  · rw [List.concat_eq_append] at hinit
    cases hrest : (front ++ item :: back).drop half with
    | nil =>
      rw [hrest] at hdrop
      exact absurd hdrop (by simp)
    | cons first rest =>
      rw [hinit, hrest] at heq hall
      exact ⟨last, first, rest, init, heq, hall, hinit ▸ htake, hrest ▸ hdrop⟩

/-! ### A level of the path -/

/-- A level takes what the level below left, and what its split made after it: all of it is there
then, in one node or in two. -/
lemma putChild_spec {α : Type} {sizeOf : α → Option ℕ} {front back : List (Slot V α)}
    {slot : Slot V α} {below : α} {made : Option (Slot V α)} {size : ℕ}
    (hroom : (front ++ slot :: back).length ≤ fanout)
    (hnone : made = none → size = slot.size + 1) (hsome : made ≠ none → sizeOf below = some size) :
    ∃ slots made', putChild sizeOf (front ++ slot :: back) front.length slot below made =
        some (slots, made') ∧ slots ≠ [] ∧ slots.length ≤ fanout ∧
      (made'.isSome = true ↔ made.isSome = true ∧ (front ++ slot :: back).length = fanout) ∧
      (made' = none ∧ slots = front ++ ⟨below, size, slot.key⟩ :: (made.toList ++ back) ∨
        ∃ first rest,
          made' = some ⟨first :: rest, ((first :: rest).map Slot.size).sum, first.key⟩ ∧
          (first :: rest).length ≤ fanout ∧
          slots ++ first :: rest = front ++ ⟨below, size, slot.key⟩ :: (made.toList ++ back)) := by
  have hlength : (front ++ slot :: back).length = front.length + 1 + back.length := by
    rw [List.length_append, List.length_cons]
    omega
  cases made with
  | none =>
    rw [hnone rfl]
    refine ⟨_, none, by rw [putChild, set_front]; rfl, by simp, ?_, by simp, Or.inl ⟨rfl, rfl⟩⟩
    simpa using hroom
  | some made =>
    have hput : front ++ (⟨below, size, slot.key⟩ : Slot V α) :: back =
        (front ++ [⟨below, size, slot.key⟩]) ++ back := by simp
    have hplace : front.length + 1 = (front ++ [(⟨below, size, slot.key⟩ : Slot V α)]).length := by
      rw [List.length_append, List.length_singleton]
    have hall : (front ++ [(⟨below, size, slot.key⟩ : Slot V α)]) ++ made :: back =
        front ++ ⟨below, size, slot.key⟩ :: ((some made).toList ++ back) := by simp
    rw [putChild, hsome (by simp), Option.bind_some, set_front, hput, hplace]
    have hcount : ((front ++ [(⟨below, size, slot.key⟩ : Slot V α)]) ++ back).length =
        (front ++ slot :: back).length := by
      rw [hlength, List.length_append, List.length_append, List.length_singleton]
    by_cases hlt : (front ++ slot :: back).length < fanout
    · rw [if_pos (hcount ▸ hlt), insertIdx_append, hall]
      refine ⟨_, none, rfl, by simp, ?_,
        iff_of_false (by simp) fun hfull => hlt.ne hfull.2, Or.inl ⟨rfl, rfl⟩⟩
      rw [← hall, List.length_append, List.length_cons, ← Nat.add_assoc, ← List.length_append,
        hcount]
      exact hlt
    · have hfull : (front ++ slot :: back).length = fanout := by omega
      obtain ⟨last, first, rest, init, heq, hsplit, htake, hdrop⟩ :=
        splitAt_spec (hcount.trans hfull) made
      have hhalf : half + 1 ≤ fanout := by decide
      rw [if_neg (hcount ▸ hlt), heq]
      refine ⟨init ++ [last], _, rfl, by simp, by omega, by simp [hfull], Or.inr ?_⟩
      exact ⟨first, rest, rfl, by omega, hsplit.trans hall⟩

/-! ### Leaves changed -/

@[simp] lemma pieces_beforeSlot {α : Type} {spineOf : α → List (Item ℕ (List ℕ))}
    (front : List (Slot V α)) (slot : Slot V α) :
    pieces (beforeSlot spineOf front slot) = pieces (slotItems spineOf front) := by
  cases front with
  | nil => rfl
  | cons first front => simp [beforeSlot]

lemma pieces_slotItems_tail {α : Type} {spineOf : α → List (Item ℕ (List ℕ))}
    (slots : List (Slot V α)) :
    pieces (slotItems spineOf slots).tail = pieces (slotItems spineOf slots) := by
  cases slots <;> rfl

lemma pieces_subset {α : Type} {spineOf : α → List (Item ℕ (List ℕ))} {slots : List (Slot V α)}
    {slot : Slot V α} (h : slot ∈ slots) :
    pieces (spineOf slot.child) ⊆ pieces (slotItems spineOf slots) := by
  obtain ⟨front, back, rfl⟩ := List.append_of_mem h
  intro b hb
  simp [hb]

/-- A node whose leaves keep as many entries keeps its sizes. -/
lemma Sized.congr (h : Sized leaves levels node)
    (hsame : ∀ b ∈ pieces (spine levels node),
      (entriesOf leaves' b).length = (entriesOf leaves b).length) :
    Sized leaves' levels node := by
  induction levels with
  | zero =>
    rw [Sized] at h ⊢
    rw [hsame node.id List.mem_cons_self]
    exact h
  | succ levels ih =>
    obtain ⟨hne, hroom, hall⟩ := h
    rw [spine, pieces_slotItems_tail] at hsame
    refine ⟨hne, hroom, fun slot hslot => ?_⟩
    have hbelow : ∀ b ∈ pieces (spine levels slot.child),
        (entriesOf leaves' b).length = (entriesOf leaves b).length :=
      fun b hb => hsame b (pieces_subset hslot hb)
    obtain ⟨hsize, hsized⟩ := hall slot hslot
    exact ⟨hsize.trans (Fences.length_held_congr hbelow).symm, ih hsized hbelow⟩

lemma treeSize_eq (h : Sized leaves levels node)
    (hstored : ∀ b ∈ pieces (spine levels node), b < leaves.length) :
    treeSize leaves levels node = some (held (entriesOf leaves) (spine levels node)).length := by
  cases levels with
  | zero =>
    obtain ⟨leaf, hget, hentries⟩ := exists_leaf (hstored node.id List.mem_cons_self)
    rw [treeSize, hget, spine]
    simp [hentries]
  | succ levels =>
    obtain ⟨-, -, hall⟩ := h
    rw [treeSize, spine, held_tail, sum_sizes fun slot hslot => (hall slot hslot).1]

/-- The places of a level but for the path's keep their sizes. -/
lemma Sized.others {inner : Node V (levels + 1)} {front back : List (Slot V (Node V levels))}
    {slot : Slot V (Node V levels)} (h : Sized leaves (levels + 1) inner)
    (hslots : inner.slots = front ++ slot :: back)
    (hothers : ∀ b ∈ pieces (slotItems (spine levels) front) ++
      pieces (slotItems (spine levels) back), entriesOf leaves' b = entriesOf leaves b) :
    ∀ other ∈ front ++ back,
      other.size = (held (entriesOf leaves') (spine levels other.child)).length ∧
        Sized leaves' levels other.child := by
  obtain ⟨-, -, hall⟩ := h
  intro other hother
  have hbelow : ∀ b ∈ pieces (spine levels other.child),
      entriesOf leaves' b = entriesOf leaves b := by
    intro b hb
    rcases List.mem_append.mp hother with hother | hother
    · exact hothers b (List.mem_append_left _ (pieces_subset hother hb))
    · exact hothers b (List.mem_append_right _ (pieces_subset hother hb))
  obtain ⟨hsize, hsized⟩ := hall other (by
    rw [hslots]
    rcases List.mem_append.mp hother with hother | hother
    · exact List.mem_append_left _ hother
    · exact List.mem_append_right _ (List.mem_cons_of_mem _ hother))
  exact ⟨hsize.trans (congrArg List.length (Fences.held_congr hbelow)).symm,
    hsized.congr fun b hb => congrArg List.length (hbelow b hb)⟩

/-- A removal's way up: each size on the path is one less. -/
lemma lessen_spec (h : Path key levels node id before after) (hsized : Sized leaves levels node)
    (hothers : ∀ b ∈ pieces before ++ pieces after, entriesOf leaves' b = entriesOf leaves b)
    (hcount : (entriesOf leaves' id).length + 1 = (entriesOf leaves id).length) :
    ∃ node', lessen key levels node = some node' ∧ Sized leaves' levels node' ∧
      spine levels node' = spine levels node := by
  induction h with
  | leaf node =>
    refine ⟨node, rfl, ?_, rfl⟩
    rw [Sized] at hsized ⊢
    omega
  | @inner levels inner front back slot id before after hslots hchild h ih =>
    have hall := hsized
    obtain ⟨-, hroom, hslot⟩ := hall
    obtain ⟨hsize, hbelow⟩ := hslot slot (by rw [hslots]; simp)
    simp only [Fences.pieces_append, pieces_beforeSlot, List.mem_append] at hothers
    have hin : ∀ b ∈ pieces before ++ pieces after, entriesOf leaves' b = entriesOf leaves b := by
      intro b hb
      rcases List.mem_append.mp hb with hb | hb
      · exact hothers b (Or.inl (Or.inr hb))
      · exact hothers b (Or.inr (Or.inl hb))
    obtain ⟨child, hlessen, hsized', hspine⟩ := ih hbelow hin hcount
    have hkept := hsized.others hslots fun b hb => by
      rcases List.mem_append.mp hb with hb | hb
      · exact hothers b (Or.inl (Or.inl hb))
      · exact hothers b (Or.inr (Or.inr hb))
    have hless : slot.size - 1 = (held (entriesOf leaves') (spine levels child)).length := by
      rw [hsize, hspine, h.spine_eq, Fences.held_append, Fences.held_append, Fences.held_piece,
        Fences.held_piece, Fences.held_congr fun b hb => hin b (List.mem_append_left _ hb),
        Fences.held_congr fun b hb => hin b (List.mem_append_right _ hb), List.length_append,
        List.length_append, List.length_append, List.length_append]
      omega
    have hget : inner.slots[front.length]? = some slot := hslots ▸ getElem?_front front slot back
    refine ⟨front ++ ⟨child, slot.size - 1, slot.key⟩ :: back, ?_, ⟨?_, ?_, ?_⟩, ?_⟩
    · rw [lessen, hchild, hget, Option.bind_some, hlessen, hslots]
      exact congrArg some (set_front front slot _ back)
    · exact List.append_ne_nil_of_right_ne_nil _ (List.cons_ne_nil _ _)
    · rw [hslots] at hroom
      simpa [Node.slots] using hroom
    · intro other hother
      change other ∈ front ++ _ :: back at hother
      rw [List.mem_append, List.mem_cons] at hother
      rcases hother with hother | rfl | hother
      · exact hkept other (List.mem_append_left _ hother)
      · exact ⟨hless, hsized'⟩
      · exact hkept other (List.mem_append_right _ hother)
    · change (slotItems (spine levels) (front ++ _ :: back)).tail =
        (slotItems (spine levels) inner.slots).tail
      rw [hslots, tail_slotItems, tail_slotItems, hspine]
      rfl

/-! ### An insertion's way up -/

/-- What a node and what its split made, if it was split, are from left to right. -/
def raisedSpine (levels : ℕ) (raised : Node V levels × Option (Slot V (Node V levels))) :
    List (Item ℕ (List ℕ)) :=
  spine levels raised.1 ++ slotItems (spine levels) raised.2.toList

/-- The made slot counts the entries below it and its node is sized. -/
def MadeSized (leaves : List (Leaf V)) (levels : ℕ) (made : Option (Slot V (Node V levels))) :
    Prop :=
  ∀ slot, made = some slot →
    slot.size = (held (entriesOf leaves) (spine levels slot.child)).length ∧
      Sized leaves levels slot.child

/-- A level whose places are sized is sized, and so is what its split makes; all the places are
there, in order. -/
lemma putChild_sized {front back : List (Slot V (Node V levels))} {slot : Slot V (Node V levels)}
    {below : Node V levels} {made : Option (Slot V (Node V levels))}
    (hroom : (front ++ slot :: back).length ≤ fanout)
    (hothers : ∀ other ∈ front ++ back,
      other.size = (held (entriesOf leaves) (spine levels other.child)).length ∧
        Sized leaves levels other.child)
    (hbelow : Sized leaves levels below) (hmade : MadeSized leaves levels made)
    (hstored : ∀ b ∈ pieces (spine levels below), b < leaves.length)
    (hnone : made = none →
      (held (entriesOf leaves) (spine levels below)).length = slot.size + 1) :
    ∃ raised : Node V (levels + 1) × Option (Slot V (Node V (levels + 1))),
      putChild (treeSize leaves levels) (front ++ slot :: back) front.length slot below made =
        some raised ∧ Sized leaves (levels + 1) raised.1 ∧
      MadeSized leaves (levels + 1) raised.2 ∧
      (raised.2.isSome = true ↔ made.isSome = true ∧ (front ++ slot :: back).length = fanout) ∧
      raisedSpine (levels + 1) raised =
        beforeSlot (spine levels) front slot ++ raisedSpine levels (below, made) ++
          slotItems (spine levels) back := by
  obtain ⟨slots, made', hput, hne, hlength, hsplit, hcases⟩ :=
    @putChild_spec V _ (treeSize leaves levels) front back slot below made _ hroom hnone
      fun _ => treeSize_eq hbelow hstored
  set placed : Slot V (Node V levels) :=
    ⟨below, (held (entriesOf leaves) (spine levels below)).length, slot.key⟩ with hplaced
  set all := front ++ placed :: (made.toList ++ back) with hall
  have hspine : (slotItems (spine levels) all).tail =
      beforeSlot (spine levels) front slot ++ raisedSpine levels (below, made) ++
        slotItems (spine levels) back := by
    rw [hall, tail_slotItems, slotItems_append, raisedSpine, List.append_assoc, List.append_assoc]
    rfl
  have hsized : ∀ other ∈ all,
      other.size = (held (entriesOf leaves) (spine levels other.child)).length ∧
        Sized leaves levels other.child := by
    intro other hother
    rw [hall, List.mem_append, List.mem_cons, List.mem_append, Option.mem_toList] at hother
    rcases hother with hother | rfl | hother | hother
    · exact hothers other (List.mem_append_left _ hother)
    · exact ⟨rfl, hbelow⟩
    · exact hmade other hother
    · exact hothers other (List.mem_append_right _ hother)
  refine ⟨(slots, made'), hput, ?_⟩
  rcases hcases with ⟨rfl, rfl⟩ | ⟨first, rest, rfl, hlength', hparts⟩
  · refine ⟨⟨hne, hlength, hsized⟩, ?_, hsplit, ?_⟩
    · intro slot h
      cases h
    · rw [← hspine, raisedSpine]
      exact List.append_nil _
  · have hkept : ∀ other ∈ slots, other ∈ all := fun other hother => by
      rw [← hparts]
      exact List.mem_append_left _ hother
    have hmoved : ∀ other ∈ first :: rest, other ∈ all := fun other hother => by
      rw [← hparts]
      exact List.mem_append_right _ hother
    have hsum := sum_sizes fun other hother => (hsized other (hmoved other hother)).1
    refine ⟨⟨hne, hlength, fun other hother => hsized other (hkept other hother)⟩, ?_, hsplit, ?_⟩
    · intro slot h
      cases h
      refine ⟨hsum.trans (congrArg List.length (held_tail leaves (first :: rest)).symm), ?_⟩
      exact ⟨List.cons_ne_nil _ _, hlength', fun other hother =>
        hsized other (hmoved other hother)⟩
    · have hmoved' : slotItems (spine (levels + 1))
          [⟨first :: rest, ((first :: rest).map Slot.size).sum, first.key⟩] =
            slotItems (spine levels) (first :: rest) := by
        rw [slotItems_cons, slotItems_nil, List.append_nil]
        rfl
      rw [← hspine, ← hparts, slotItems_append, ← hmoved']
      cases slots with
      | nil => exact absurd rfl hne
      | cons other slots => rfl

lemma Path.exists_splits (h : Path key levels node id before after) :
    ∃ splits, splitsOf key levels node = some splits ∧ 0 < splits := by
  induction h with
  | leaf => exact ⟨1, rfl, Nat.one_pos⟩
  | @inner levels inner front back slot id before after hslots hchild h ih =>
    obtain ⟨splits, hsplits, hpos⟩ := ih
    have hget : inner.slots[front.length]? = some slot := hslots ▸ getElem?_front front slot back
    refine ⟨if splits = levels + 1 ∧ inner.slots.length = fanout then levels + 2 else splits,
      ?_, by split <;> omega⟩
    rw [splitsOf, hchild, hget, Option.bind_some, hsplits, Option.map_some]

/-- An insertion's way up: what the leaf became, and what its split made after it, is in the
leaf's place. -/
lemma raise_spec (h : Path key levels node id before after) (hsized : Sized leaves levels node)
    {made : Option (Slot V (Node V 0))}
    (hothers : ∀ b ∈ pieces before ++ pieces after, entriesOf leaves' b = entriesOf leaves b)
    (hstored : ∀ b ∈ pieces (before ++ raisedSpine 0 (id, made) ++ after), b < leaves'.length)
    (hleaf : (entriesOf leaves' id).length ≤ fanout) (hmade : MadeSized leaves' 0 made)
    (hcount : (held (entriesOf leaves') (raisedSpine 0 (id, made))).length =
      (entriesOf leaves id).length + 1) :
    ∃ raised splits, raise leaves' key made levels node = some raised ∧
      Sized leaves' levels raised.1 ∧ MadeSized leaves' levels raised.2 ∧
      raisedSpine levels raised = before ++ raisedSpine 0 (id, made) ++ after ∧
      splitsOf key levels node = some splits ∧ splits ≤ levels + 1 ∧
      (raised.2.isSome = true ↔ made.isSome = true ∧ splits = levels + 1) := by
  induction h with
  | leaf node =>
    refine ⟨(node, made), 1, rfl, hleaf, hmade, ?_, rfl, le_rfl, by simp⟩
    rw [List.nil_append, List.append_nil]
    rfl
  | @inner levels inner front back slot id before after hslots hchild h ih =>
    have hall := hsized
    obtain ⟨-, hroom, hslot⟩ := hall
    obtain ⟨hsize, hbelow⟩ := hslot slot (by rw [hslots]; simp)
    simp only [Fences.pieces_append, pieces_beforeSlot, List.mem_append] at hothers hstored
    have hin : ∀ b ∈ pieces before ++ pieces after, entriesOf leaves' b = entriesOf leaves b := by
      intro b hb
      rcases List.mem_append.mp hb with hb | hb
      · exact hothers b (Or.inl (Or.inr hb))
      · exact hothers b (Or.inr (Or.inl hb))
    have hkept := hsized.others hslots fun b hb => by
      rcases List.mem_append.mp hb with hb | hb
      · exact hothers b (Or.inl (Or.inl hb))
      · exact hothers b (Or.inr (Or.inr hb))
    have hin' : ∀ b ∈ pieces (before ++ raisedSpine 0 (id, made) ++ after),
        b < leaves'.length := by
      intro b hb
      rw [Fences.pieces_append, Fences.pieces_append, List.mem_append, List.mem_append] at hb
      rcases hb with (hb | hb) | hb
      · exact hstored b (Or.inl (Or.inl (Or.inr hb)))
      · exact hstored b (Or.inl (Or.inr hb))
      · exact hstored b (Or.inr (Or.inl hb))
    obtain ⟨⟨below, made'⟩, splits, hraise, hsized', hmade', hspine, hsplits, hle, hiff⟩ :=
      ih hbelow hin hin' hleaf hcount
    have hstored' : ∀ b ∈ pieces (spine levels below), b < leaves'.length := by
      intro b hb
      refine hin' b ?_
      rw [← hspine, raisedSpine, Fences.pieces_append]
      exact List.mem_append_left _ hb
    have hmore : made' = none →
        (held (entriesOf leaves') (spine levels below)).length = slot.size + 1 := by
      rintro rfl
      have hbelow' : spine levels below = before ++ raisedSpine 0 (id, made) ++ after := by
        rw [← hspine, raisedSpine]
        exact (List.append_nil _).symm
      rw [hbelow', hsize, h.spine_eq, Fences.held_append, Fences.held_append, Fences.held_append,
        Fences.held_piece, Fences.held_congr fun b hb => hin b (List.mem_append_left _ hb),
        Fences.held_congr fun b hb => hin b (List.mem_append_right _ hb), List.length_append,
        List.length_append, hcount, List.length_append, List.length_append]
      omega
    obtain ⟨raised, hput, hsized'', hmade'', hsplit, hspine'⟩ :=
      putChild_sized (hslots ▸ hroom) hkept hsized' hmade' hstored' hmore
    have hget : inner.slots[front.length]? = some slot := hslots ▸ getElem?_front front slot back
    rw [← hslots] at hsplit
    refine ⟨raised, if splits = levels + 1 ∧ inner.slots.length = fanout then levels + 2
      else splits, ?_, hsized'', hmade'', ?_, ?_, ?_, ?_⟩
    · rw [raise, hchild, hget, Option.bind_some, hraise, hslots]
      exact hput
    · rw [hspine', hspine]
      simp only [List.append_assoc]
    · rw [splitsOf, hchild, hget, Option.bind_some, hsplits, Option.map_some]
    · split <;> omega
    · rw [hsplit, hiff, and_assoc]
      refine and_congr_right fun _ => ?_
      split
      next hfull => exact iff_of_true hfull rfl
      next hfull => exact iff_of_false hfull (by omega)

end MarkdownCore.KeyTree
