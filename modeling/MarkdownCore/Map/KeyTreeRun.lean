import MarkdownCore.Library.Fences
import MarkdownCore.Library.Links
import MarkdownCore.Map.KeyTree
import MarkdownCore.Order.LabelsRun

/-!
# The ordered key index's searches

Read from left to right, a node is its leaves with the first keys of the places between them: a
fenced list of the entries (`spine`). The way to a key's leaf is the one `Path` takes, and the
fences on both sides of the leaf are on both sides of the key.
-/

namespace MarkdownCore.KeyTree

open Bisect (bisect bisect_of_lt bisect_takeWhile Divided)
open Fences (Item Cut Ordered held pieces)
open MarkdownCore.Order (numbers labelBefore_eq keyTieOrder_zero_iff)

variable {V : Type} {key : KeyEntry V}

/-! ### Keys -/

/-- What entries are sorted by: lists of numbers are in the order of the bytes, a shorter one first
on a common prefix. -/
def sortKey (entry : KeyEntry V) : List ℕ := numbers entry.key

lemma keyBefore_iff (a b : KeyEntry V) : keyBefore a b = true ↔ sortKey a < sortKey b := by
  rw [keyBefore, labelBefore_eq, decide_eq_true_eq]
  rfl

lemma sortKey_inj {a b : KeyEntry V} : sortKey a = sortKey b ↔ a.key = b.key :=
  Order.numbers_injective.eq_iff

lemma keySame_iff (a b : KeyEntry V) : keySame a b = true ↔ sortKey a = sortKey b := by
  rw [keySame, Bool.and_eq_true, beq_iff_eq, beq_iff_eq, sortKey_inj, a.head_eq, b.head_eq]
  constructor
  · exact fun ⟨hhead, htie⟩ => (keyTieOrder_zero_iff hhead).mp htie
  · intro heq
    rw [heq]
    exact ⟨rfl, (keyTieOrder_zero_iff rfl).mpr rfl⟩

/-! ### A leaf -/

/-- The entries of a leaf in storage. -/
def entriesOf (leaves : List (Leaf V)) (id : ℕ) : List (KeyEntry V) :=
  ((leaves[id]?).map Leaf.entries).getD []

lemma entriesOf_eq {leaves : List (Leaf V)} {id : ℕ} {leaf : Leaf V} (h : leaves[id]? = some leaf) :
    entriesOf leaves id = leaf.entries := by
  rw [entriesOf, h]
  rfl

lemma exists_leaf {leaves : List (Leaf V)} {id : ℕ} (h : id < leaves.length) :
    ∃ leaf, leaves[id]? = some leaf ∧ leaf.entries = entriesOf leaves id :=
  ⟨leaves[id], List.getElem?_eq_getElem h, (entriesOf_eq (List.getElem?_eq_getElem h)).symm⟩

/-- The entries of a list before a key, and the others. -/
lemma treePlace_spec {entries : List (KeyEntry V)}
    (h : entries.Pairwise fun a b => sortKey a < sortKey b) (key : KeyEntry V) :
    ∃ front back, entries = front ++ back ∧ treePlace entries key = front.length ∧
      (∀ x ∈ front, sortKey x < sortKey key) ∧ ∀ x ∈ back, sortKey key ≤ sortKey x := by
  have hdivided : Divided (fun entry => keyBefore entry key) entries := by
    refine h.imp fun {a b} hlt hb => ?_
    rw [keyBefore_iff] at hb ⊢
    exact lt_trans hlt hb
  refine ⟨entries.takeWhile fun entry => keyBefore entry key,
    entries.dropWhile fun entry => keyBefore entry key, List.takeWhile_append_dropWhile.symm,
    bisect_takeWhile hdivided, fun x hx => ?_, fun x hx => ?_⟩
  · exact (keyBefore_iff x key).mp (@List.mem_takeWhile_imp _ _ entries x hx)
  · rw [← not_lt, ← keyBefore_iff, hdivided.of_mem_dropWhile hx]
    exact Bool.false_ne_true

/-! ### Places -/

section Places

variable {α : Type} {spineOf : α → List (Item ℕ (List ℕ))}

lemma getElem?_front {β : Type*} (front : List β) (item : β) (back : List β) :
    (front ++ item :: back)[front.length]? = some item := by
  rw [List.getElem?_append_right le_rfl, Nat.sub_self]
  rfl

lemma set_front {β : Type*} (front : List β) (item other : β) (back : List β) :
    (front ++ item :: back).set front.length other = front ++ other :: back := by
  rw [List.set_append_right _ _ le_rfl, Nat.sub_self]
  rfl

/-- A place's first key and what is below it. -/
def slotSpine (spineOf : α → List (Item ℕ (List ℕ))) (slot : Slot V α) :
    List (Item ℕ (List ℕ)) := .fence (sortKey slot.key) :: spineOf slot.child

/-- What is at places, each with its first key. -/
def slotItems (spineOf : α → List (Item ℕ (List ℕ))) (slots : List (Slot V α)) :
    List (Item ℕ (List ℕ)) := slots.flatMap (slotSpine spineOf)

@[simp] lemma slotItems_nil : slotItems spineOf ([] : List (Slot V α)) = [] := rfl

@[simp] lemma slotItems_cons (slot : Slot V α) (slots : List (Slot V α)) :
    slotItems spineOf (slot :: slots) =
      .fence (sortKey slot.key) :: (spineOf slot.child ++ slotItems spineOf slots) := rfl

@[simp] lemma slotItems_append (slots slots' : List (Slot V α)) :
    slotItems spineOf (slots ++ slots') = slotItems spineOf slots ++ slotItems spineOf slots' :=
  List.flatMap_append

/-- What is before a place's child: the first place's key is never read. -/
def beforeSlot (spineOf : α → List (Item ℕ (List ℕ))) (front : List (Slot V α))
    (slot : Slot V α) : List (Item ℕ (List ℕ)) :=
  (slotItems spineOf front ++ [Item.fence (sortKey slot.key)]).tail

lemma tail_slotItems (front : List (Slot V α)) (slot : Slot V α) (back : List (Slot V α)) :
    (slotItems spineOf (front ++ slot :: back)).tail =
      beforeSlot spineOf front slot ++ (spineOf slot.child ++ slotItems spineOf back) := by
  rw [slotItems_append, slotItems_cons, List.append_cons, beforeSlot,
    List.tail_append_of_ne_nil (List.append_ne_nil_of_right_ne_nil _ (List.cons_ne_nil _ _))]

@[simp] lemma held_tail (leaves : List (Leaf V)) (slots : List (Slot V α)) :
    held (entriesOf leaves) (slotItems spineOf slots).tail =
      held (entriesOf leaves) (slotItems spineOf slots) := by
  cases slots <;> rfl

@[simp] lemma held_beforeSlot (leaves : List (Leaf V)) (front : List (Slot V α))
    (slot : Slot V α) :
    held (entriesOf leaves) (beforeSlot spineOf front slot) =
      held (entriesOf leaves) (slotItems spineOf front) := by
  cases front with
  | nil => rfl
  | cons first front => simp [beforeSlot]

/-- The places' keys are in order, but for the first place's. -/
lemma sorted_of_ordered {leaves : List (Leaf V)} {slots : List (Slot V α)}
    (h : Ordered (entriesOf leaves) sortKey (slotItems spineOf slots).tail) :
    slots.tail.Pairwise fun a b => sortKey a.key < sortKey b.key := by
  cases slots with
  | nil => exact List.Pairwise.nil
  | cons first slots =>
    have hrest : Ordered (entriesOf leaves) sortKey (slotItems spineOf slots) :=
      Ordered.right (l := spineOf first.child) h
    clear h
    rw [List.tail_cons]
    induction slots with
    | nil => exact List.Pairwise.nil
    | cons slot slots ih =>
      have hafter : Ordered (entriesOf leaves) sortKey (slotItems spineOf slots) := by
        rw [slotItems_cons, ← List.cons_append] at hrest
        exact hrest.right
      refine List.pairwise_cons.mpr ⟨fun other hother => ?_, ih hafter⟩
      rw [Ordered, slotItems_cons, Fences.marks_fence] at hrest
      refine Fences.fenceMark_lt.mp ((List.pairwise_cons.mp hrest).1 _ ?_)
      obtain ⟨front, back, rfl⟩ := List.append_of_mem hother
      simp

/-- The child of a key's place: the last whose first key is not past it. -/
lemma treeChild_spec {slots : List (Slot V α)} (hne : slots ≠ [])
    (h : slots.tail.Pairwise fun a b => sortKey a.key < sortKey b.key) (key : KeyEntry V) :
    ∃ front slot back, slots = front ++ slot :: back ∧ treeChild slots key = front.length ∧
      (front = [] ∨ sortKey slot.key ≤ sortKey key) ∧
        ∀ other ∈ back, sortKey key < sortKey other.key := by
  cases slots with
  | nil => exact absurd rfl hne
  | cons first slots =>
    rw [List.tail_cons] at h
    set p : Slot V α → Bool := fun slot => !keyBefore key slot.key with hp
    have hiff : ∀ slot : Slot V α, p slot = true ↔ sortKey slot.key ≤ sortKey key := by
      intro slot
      rw [hp, Bool.not_eq_true', ← Bool.not_eq_true, keyBefore_iff, not_lt]
    have hsplit := List.takeWhile_append_dropWhile (p := p) (l := slots)
    have hdivided : Divided p slots := by
      refine h.imp fun {a b} hlt hb => ?_
      rw [hiff] at hb ⊢
      exact hlt.le.trans hb
    have hdrop : ∀ other ∈ slots.dropWhile p, sortKey key < sortKey other.key := by
      intro other hother
      rw [← not_le, ← hiff, hdivided.of_mem_dropWhile hother]
      exact Bool.false_ne_true
    have hchild : treeChild (first :: slots) key = (slots.takeWhile p).length := by
      have hle : (slots.takeWhile p).length ≤ slots.length := (List.takeWhile_prefix p).length_le
      have hbisect : bisect (fun middle => (first :: slots)[middle]?.any p)
          (first :: slots).length 1 (first :: slots).length =
            (slots.takeWhile p).length + 1 := by
        refine bisect_of_lt (by omega) (by omega) (by simpa using hle) fun k hlow hhigh => ?_
        obtain ⟨i, rfl⟩ : ∃ i, k = i + 1 := ⟨k - 1, by omega⟩
        have hlt : i < slots.length := by simpa using hhigh
        rw [List.getElem?_cons_succ, List.getElem?_eq_getElem hlt, Option.any_some,
          Nat.add_lt_add_iff_right]
        exact hdivided.getElem_iff hlt
      rw [treeChild, hbisect, Nat.add_sub_cancel]
    set taken := slots.takeWhile p with htaken
    have hlast : first :: slots = (first :: taken) ++ slots.dropWhile p := by
      rw [List.cons_append, hsplit]
    rcases List.eq_nil_or_concat taken with hnil | ⟨front, slot, hconcat⟩
    · refine ⟨[], first, slots.dropWhile p, ?_, ?_, Or.inl rfl, hdrop⟩
      · rw [hlast, hnil]
        rfl
      · rw [hchild, hnil]
    · rw [List.concat_eq_append] at hconcat
      refine ⟨first :: front, slot, slots.dropWhile p, ?_, ?_, Or.inr ?_, hdrop⟩
      · rw [hlast, hconcat]
        simp
      · rw [hchild, hconcat]
        simp
      · refine (hiff slot).mp (List.mem_takeWhile_imp (l := slots) ?_)
        rw [← htaken, hconcat]
        simp

end Places

/-! ### Nodes -/

/-- A node from left to right. -/
def spine : (levels : ℕ) → Node V levels → List (Item ℕ (List ℕ))
  | 0, node => [.piece node.id]
  | levels + 1, inner => (slotItems (spine levels) inner.slots).tail

/-- An inner node has places, no more than the fanout, each with the number of the entries below
it; no leaf has more entries than the fanout. -/
def Sized (leaves : List (Leaf V)) : (levels : ℕ) → Node V levels → Prop
  | 0, node => (entriesOf leaves node.id).length ≤ fanout
  | levels + 1, inner =>
    inner.slots ≠ [] ∧ inner.slots.length ≤ fanout ∧ ∀ slot ∈ inner.slots,
      slot.size = (held (entriesOf leaves) (spine levels slot.child)).length ∧
        Sized leaves levels slot.child

/-- The way from a node to the leaf of a key's place, with what is before the leaf and after it. -/
inductive Path (key : KeyEntry V) :
    (levels : ℕ) → Node V levels → ℕ → List (Item ℕ (List ℕ)) → List (Item ℕ (List ℕ)) → Prop
  | leaf (node : Node V 0) : Path key 0 node node.id [] []
  | inner {levels : ℕ} {inner : Node V (levels + 1)} {front back : List (Slot V (Node V levels))}
    {slot : Slot V (Node V levels)} {id : ℕ} {before after : List (Item ℕ (List ℕ))}
    (hslots : inner.slots = front ++ slot :: back)
    (hchild : treeChild inner.slots key = front.length)
    (h : Path key levels slot.child id before after) :
    Path key (levels + 1) inner id (beforeSlot (spine levels) front slot ++ before)
      (after ++ slotItems (spine levels) back)

variable {leaves : List (Leaf V)} {levels : ℕ} {node : Node V levels} {id : ℕ}
  {before after : List (Item ℕ (List ℕ))}

lemma Path.spine_eq (h : Path key levels node id before after) :
    spine levels node = before ++ .piece id :: after := by
  induction h with
  | leaf => rfl
  | inner hslots hchild h ih => rw [spine, hslots, tail_slotItems, ih]; simp

lemma cut_fences {α : Type} {spineOf : α → List (Item ℕ (List ℕ))} {front back : List (Slot V α)}
    {slot : Slot V α} (hcut : Cut (sortKey key) before after)
    (hslot : front = [] ∨ sortKey slot.key ≤ sortKey key)
    (hback : ∀ other ∈ back, sortKey key < sortKey other.key) :
    Cut (sortKey key) (beforeSlot spineOf front slot ++ before)
      (after ++ slotItems spineOf back) := by
  constructor
  · rcases hcut.before with rfl | ⟨first, f, rfl, hle⟩
    · cases front with
      | nil => exact Or.inl rfl
      | cons other front =>
        refine Or.inr ⟨(slotItems spineOf (other :: front)).tail, sortKey slot.key, ?_,
          hslot.resolve_left (List.cons_ne_nil _ _)⟩
        rw [List.append_nil, beforeSlot, slotItems_cons]
        rfl
    · exact Or.inr ⟨beforeSlot spineOf front slot ++ first, f, (List.append_assoc _ _ _).symm, hle⟩
  · rcases hcut.after with rfl | ⟨f, rest, rfl, hlt⟩
    · cases back with
      | nil => exact Or.inl rfl
      | cons other back =>
        exact Or.inr ⟨sortKey other.key, _, rfl, hback other List.mem_cons_self⟩
    · exact Or.inr ⟨f, rest ++ slotItems spineOf back, rfl, hlt⟩

/-- Every node has a way to the leaf of a key's place. -/
lemma exists_path (hsized : Sized leaves levels node)
    (hordered : Ordered (entriesOf leaves) sortKey (spine levels node)) (key : KeyEntry V) :
    ∃ id before after, Path key levels node id before after ∧ Cut (sortKey key) before after := by
  induction levels with
  | zero => exact ⟨node.id, [], [], .leaf node, ⟨Or.inl rfl, Or.inl rfl⟩⟩
  | succ levels ih =>
    obtain ⟨hne, -, hslots⟩ := hsized
    obtain ⟨front, slot, back, hsplit, hchild, hslot, hback⟩ :=
      treeChild_spec hne (sorted_of_ordered hordered) key
    rw [spine, hsplit, tail_slotItems] at hordered
    have hbelow : Ordered (entriesOf leaves) sortKey (spine levels slot.child) :=
      hordered.right.left
    obtain ⟨id, before, after, hpath, hcut⟩ :=
      ih (hslots slot (by rw [hsplit]; simp)).2 hbelow
    exact ⟨id, _, _, .inner hsplit hchild hpath, cut_fences hcut hslot hback⟩

/-- The sizes of places count the entries below them. -/
lemma sum_sizes {α : Type} {spineOf : α → List (Item ℕ (List ℕ))} {slots : List (Slot V α)}
    (h : ∀ slot ∈ slots, slot.size = (held (entriesOf leaves) (spineOf slot.child)).length) :
    (slots.map Slot.size).sum = (held (entriesOf leaves) (slotItems spineOf slots)).length := by
  induction slots with
  | nil => rfl
  | cons slot slots ih =>
    rw [List.map_cons, List.sum_cons, h slot List.mem_cons_self,
      ih fun other hother => h other (List.mem_cons_of_mem _ hother)]
    simp

/-- The search ends at the leaf, with the number of the entries before it. -/
lemma Path.descend_eq (h : Path key levels node id before after) (hsized : Sized leaves levels node)
    (count : ℕ) :
    descend key levels node count =
      some (id, count + (held (entriesOf leaves) before).length) := by
  induction h generalizing count with
  | leaf => rfl
  | @inner levels inner front back slot id before after hslots hchild h ih =>
    obtain ⟨-, -, hall⟩ := hsized
    have hslot := hall slot (by rw [hslots]; simp)
    have hfront := sum_sizes fun other hother =>
      (hall other (by rw [hslots]; exact List.mem_append_left _ hother)).1
    have hget : inner.slots[front.length]? = some slot := hslots ▸ getElem?_front front slot back
    have htake : inner.slots.take front.length = front := by
      rw [hslots]
      exact List.take_left
    rw [descend, hchild, hget, Option.bind_some, ih hslot.2, htake, hfront]
    simp [Nat.add_assoc]

/-! ### Ranks -/

/-- The place whose entries a rank is among, and the rank among them. -/
lemma childAt_spec {α : Type} {spineOf : α → List (Item ℕ (List ℕ))} {slots : List (Slot V α)}
    (h : ∀ slot ∈ slots, slot.size = (held (entriesOf leaves) (spineOf slot.child)).length)
    {rank : ℕ} (hrank : rank < (held (entriesOf leaves) (slotItems spineOf slots)).length) :
    ∃ slot ∈ slots, ∃ below, childAt slots rank = some (slot.child, below) ∧
      below < (held (entriesOf leaves) (spineOf slot.child)).length ∧
      (held (entriesOf leaves) (slotItems spineOf slots))[rank]? =
        (held (entriesOf leaves) (spineOf slot.child))[below]? := by
  induction slots generalizing rank with
  | nil => exact absurd hrank (Nat.not_lt_zero _)
  | cons slot slots ih =>
    have hsize := h slot List.mem_cons_self
    rw [slotItems_cons, Fences.held_fence, Fences.held_append] at hrank ⊢
    rw [childAt]
    split
    next hle =>
      rw [List.length_append] at hrank
      obtain ⟨other, hother, below, heq, hlt, hget⟩ :=
        @ih (fun other hother => h other (List.mem_cons_of_mem _ hother)) (rank - slot.size)
          (by omega)
      refine ⟨other, List.mem_cons_of_mem _ hother, below, heq, hlt, ?_⟩
      rw [List.getElem?_append_right (hsize ▸ hle), ← hsize, hget]
    next hgt =>
      have hlt : rank < (held (entriesOf leaves) (spineOf slot.child)).length :=
        hsize ▸ not_le.mp hgt
      exact ⟨slot, List.mem_cons_self, rank, rfl, hlt, List.getElem?_append_left hlt⟩

/-- The entry of a rank is the one with as many before it. -/
lemma placeAt_spec (hsized : Sized leaves levels node) {rank : ℕ}
    (hrank : rank < (held (entriesOf leaves) (spine levels node)).length) :
    ∃ id below, placeAt levels node rank = some (id, below) ∧
      (entriesOf leaves id)[below]? = (held (entriesOf leaves) (spine levels node))[rank]? := by
  induction levels generalizing rank with
  | zero => exact ⟨node.id, rank, rfl, by simp [spine]⟩
  | succ levels ih =>
    obtain ⟨-, -, hall⟩ := hsized
    rw [spine, held_tail] at hrank ⊢
    obtain ⟨slot, hslot, below, hchild, hlt, hget⟩ :=
      childAt_spec (fun slot hslot => (hall slot hslot).1) hrank
    obtain ⟨id, place, hplace, hentry⟩ := ih (hall slot hslot).2 hlt
    refine ⟨id, place, ?_, hentry.trans hget.symm⟩
    rw [placeAt, hchild, Option.bind_some, hplace]

end MarkdownCore.KeyTree
