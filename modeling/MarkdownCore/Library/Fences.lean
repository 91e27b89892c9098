import Mathlib.Data.List.Nodup
import Mathlib.Data.Prod.Lex

/-!
# Fenced lists

A sorted list is held in pieces, with a fence between two pieces: the entries before a fence have
lesser keys, those past it have not. A fence needs no entry with its key, so entries may go and a
piece may hold none. The entries and the fences together are sorted (`Ordered`), a fence just
before the entry of its key. A key's place is in the piece whose fences are on both sides of it
(`Cut`): no other piece is looked at to find, put or drop the key's entry.
-/

namespace Fences

/-- A piece of the list, or a fence. -/
inductive Item (α κ : Type*)
  | piece (a : α)
  | fence (k : κ)

variable {α κ ε : Type*}

/-- The piece an item is. -/
def Item.pieces : Item α κ → List α
  | .piece a => [a]
  | .fence _ => []

/-- The pieces in order. -/
def pieces (l : List (Item α κ)) : List α := l.flatMap Item.pieces

@[simp] lemma pieces_nil : pieces ([] : List (Item α κ)) = [] := rfl

@[simp] lemma pieces_append (l l' : List (Item α κ)) : pieces (l ++ l') = pieces l ++ pieces l' :=
  List.flatMap_append

@[simp] lemma pieces_piece (a : α) (l : List (Item α κ)) :
    pieces (.piece a :: l) = a :: pieces l := rfl

@[simp] lemma pieces_fence (k : κ) (l : List (Item α κ)) : pieces (.fence k :: l) = pieces l := rfl

section Entries

variable (entries : α → List ε)

/-- The entries an item holds. -/
def Item.held : Item α κ → List ε
  | .piece a => entries a
  | .fence _ => []

/-- The list that is held. -/
def held (l : List (Item α κ)) : List ε := l.flatMap (Item.held entries)

@[simp] lemma held_nil : held entries ([] : List (Item α κ)) = [] := rfl

@[simp] lemma held_append (l l' : List (Item α κ)) :
    held entries (l ++ l') = held entries l ++ held entries l' := List.flatMap_append

@[simp] lemma held_piece (a : α) (l : List (Item α κ)) :
    held entries (.piece a :: l) = entries a ++ held entries l := rfl

@[simp] lemma held_fence (k : κ) (l : List (Item α κ)) :
    held entries (.fence k :: l) = held entries l := rfl

variable {entries}

/-- What is held is what the pieces hold. -/
lemma held_congr {entries' : α → List ε} {l : List (Item α κ)}
    (h : ∀ a ∈ pieces l, entries' a = entries a) : held entries' l = held entries l := by
  induction l with
  | nil => rfl
  | cons item l ih =>
    cases item with
    | piece a =>
      rw [pieces_piece] at h
      rw [held_piece, held_piece, h a List.mem_cons_self,
        ih fun b hb => h b (List.mem_cons_of_mem a hb)]
    | fence k => exact ih h

lemma length_held_congr {entries' : α → List ε} {l : List (Item α κ)}
    (h : ∀ a ∈ pieces l, (entries' a).length = (entries a).length) :
    (held entries' l).length = (held entries l).length := by
  induction l with
  | nil => rfl
  | cons item l ih =>
    cases item with
    | piece a =>
      rw [pieces_piece] at h
      rw [held_piece, held_piece, List.length_append, List.length_append,
        h a List.mem_cons_self, ih fun b hb => h b (List.mem_cons_of_mem a hb)]
    | fence k => exact ih h

lemma held_eq_pieces (l : List (Item α κ)) : held entries l = (pieces l).flatMap entries := by
  induction l with
  | nil => rfl
  | cons item l ih =>
    cases item with
    | piece a => rw [held_piece, pieces_piece, List.flatMap_cons, ih]
    | fence k => exact ih

end Entries

/-! ### Order -/

section Order

variable (entries : α → List ε) (key : ε → κ)

/-- What orders a fence among the entries. -/
def fenceMark (k : κ) : κ ×ₗ Bool := toLex (k, false)

/-- What orders an entry among the fences. -/
def entryMark (k : κ) : κ ×ₗ Bool := toLex (k, true)

/-- The marks of an item. -/
def Item.marks : Item α κ → List (κ ×ₗ Bool)
  | .piece a => (entries a).map fun e => entryMark (key e)
  | .fence k => [fenceMark k]

/-- The marks in order. -/
def marks (l : List (Item α κ)) : List (κ ×ₗ Bool) := l.flatMap (Item.marks entries key)

@[simp] lemma marks_nil : marks entries key ([] : List (Item α κ)) = [] := rfl

@[simp] lemma marks_append (l l' : List (Item α κ)) :
    marks entries key (l ++ l') = marks entries key l ++ marks entries key l' :=
  List.flatMap_append

@[simp] lemma marks_piece (a : α) (l : List (Item α κ)) :
    marks entries key (.piece a :: l) =
      ((entries a).map fun e => entryMark (key e)) ++ marks entries key l := rfl

@[simp] lemma marks_fence (k : κ) (l : List (Item α κ)) :
    marks entries key (.fence k :: l) = fenceMark k :: marks entries key l := rfl

variable {entries key}

lemma marks_congr {entries' : α → List ε} {l : List (Item α κ)}
    (h : ∀ a ∈ pieces l, entries' a = entries a) :
    marks entries' key l = marks entries key l := by
  induction l with
  | nil => rfl
  | cons item l ih =>
    cases item with
    | piece a =>
      rw [pieces_piece] at h
      rw [marks_piece, marks_piece, h a List.mem_cons_self,
        ih fun b hb => h b (List.mem_cons_of_mem a hb)]
    | fence k => rw [marks_fence, marks_fence, ih h]

/-- Entries changed, with their keys left, are in the same order. -/
lemma marks_congr_key {entries' : α → List ε} {l : List (Item α κ)}
    (h : ∀ a ∈ pieces l, (entries' a).map key = (entries a).map key) :
    marks entries' key l = marks entries key l := by
  induction l with
  | nil => rfl
  | cons item l ih =>
    cases item with
    | piece a =>
      rw [pieces_piece] at h
      have ha := congrArg (List.map entryMark) (h a List.mem_cons_self)
      rw [List.map_map, List.map_map] at ha
      rw [marks_piece, marks_piece, ih fun b hb => h b (List.mem_cons_of_mem a hb)]
      exact congrArg (· ++ _) ha
    | fence k => rw [marks_fence, marks_fence, ih h]

lemma held_marks (l : List (Item α κ)) :
    List.Sublist ((held entries l).map fun e => entryMark (key e)) (marks entries key l) := by
  induction l with
  | nil => exact List.Sublist.refl _
  | cons item l ih =>
    cases item with
    | piece a =>
      rw [held_piece, List.map_append, marks_piece]
      exact (List.Sublist.refl _).append ih
    | fence k => exact ih.cons _

variable [LinearOrder κ]

@[simp] lemma fenceMark_lt {k k' : κ} : fenceMark k < fenceMark k' ↔ k < k' := by
  simp [fenceMark, Prod.Lex.toLex_lt_toLex]

@[simp] lemma entryMark_lt {k k' : κ} : entryMark k < entryMark k' ↔ k < k' := by
  simp [entryMark, Prod.Lex.toLex_lt_toLex]

@[simp] lemma fenceMark_lt_entryMark {k k' : κ} : fenceMark k < entryMark k' ↔ k ≤ k' := by
  simp [fenceMark, entryMark, Prod.Lex.toLex_lt_toLex, le_iff_lt_or_eq]

@[simp] lemma entryMark_lt_fenceMark {k k' : κ} : entryMark k < fenceMark k' ↔ k < k' := by
  simp [fenceMark, entryMark, Prod.Lex.toLex_lt_toLex]

variable (entries key) in
/-- The fences and the entries are in order. -/
def Ordered (l : List (Item α κ)) : Prop := (marks entries key l).Pairwise (· < ·)

lemma Ordered.left {l l' : List (Item α κ)} (h : Ordered entries key (l ++ l')) :
    Ordered entries key l := by
  rw [Ordered, marks_append] at h
  exact (List.pairwise_append.mp h).1

lemma Ordered.right {l l' : List (Item α κ)} (h : Ordered entries key (l ++ l')) :
    Ordered entries key l' := by
  rw [Ordered, marks_append] at h
  exact (List.pairwise_append.mp h).2.1

/-- The list held is sorted, and no two of its entries have one key. -/
lemma Ordered.sorted {l : List (Item α κ)} (h : Ordered entries key l) :
    (held entries l).Pairwise fun a b => key a < key b := by
  have hmarks := List.Pairwise.sublist (held_marks l) h
  rw [List.pairwise_map] at hmarks
  exact hmarks.imp fun hlt => entryMark_lt.mp hlt

/-- The fences around a key's place: the nearest before it is not past the key, and the nearest
after it is. -/
structure Cut (k : κ) (before after : List (Item α κ)) : Prop where
  before : before = [] ∨ ∃ first f, before = first ++ [.fence f] ∧ f ≤ k
  after : after = [] ∨ ∃ f rest, after = .fence f :: rest ∧ k < f

namespace Cut

variable {k : κ} {before after : List (Item α κ)} {a b : α}

lemma lt_mark (hcut : Cut k before after) (h : Ordered entries key before) :
    ∀ m ∈ marks entries key before, m < entryMark k := by
  intro m hm
  rcases hcut.before with rfl | ⟨first, f, rfl, hle⟩
  · simp at hm
  · rw [Ordered, marks_append, marks_fence, marks_nil] at h
    rw [marks_append, marks_fence, marks_nil, List.mem_append, List.mem_singleton] at hm
    have hf : fenceMark f < entryMark k := fenceMark_lt_entryMark.mpr hle
    rcases hm with hm | rfl
    · exact lt_trans ((List.pairwise_append.mp h).2.2 m hm _ (List.mem_singleton_self _)) hf
    · exact hf

lemma mark_lt (hcut : Cut k before after) (h : Ordered entries key after) :
    ∀ m ∈ marks entries key after, entryMark k < m := by
  intro m hm
  rcases hcut.after with rfl | ⟨f, rest, rfl, hlt⟩
  · simp at hm
  · rw [Ordered, marks_fence] at h
    rw [marks_fence, List.mem_cons] at hm
    have hf : entryMark k < fenceMark f := entryMark_lt_fenceMark.mpr hlt
    rcases hm with rfl | hm
    · exact hf
    · exact lt_trans hf ((List.pairwise_cons.mp h).1 m hm)

/-- The entries before the piece have lesser keys. -/
lemma lt_key (hcut : Cut k before after) (h : Ordered entries key before) {e : ε}
    (he : e ∈ held entries before) : key e < k := by
  have hmark := hcut.lt_mark h _ ((held_marks before).subset (List.mem_map_of_mem he))
  exact entryMark_lt.mp hmark

/-- The entries past the piece have greater keys. -/
lemma key_lt (hcut : Cut k before after) (h : Ordered entries key after) {e : ε}
    (he : e ∈ held entries after) : k < key e := by
  have hmark := hcut.mark_lt h _ ((held_marks after).subset (List.mem_map_of_mem he))
  exact entryMark_lt.mp hmark

end Cut

variable {k : κ} {before after : List (Item α κ)} {a b : α}

/-- An entry put at the key's place in the piece. -/
lemma Ordered.put {entries' : α → List ε} (h : Ordered entries key (before ++ .piece a :: after))
    (hcut : Cut k before after) {front back : List ε} {e : ε} (hold : entries a = front ++ back)
    (hnew : entries' a = front ++ e :: back) (hkey : key e = k)
    (hfront : ∀ x ∈ front, key x < k) (hback : ∀ x ∈ back, k < key x)
    (hothers : ∀ b ∈ pieces before ++ pieces after, entries' b = entries b) :
    Ordered entries' key (before ++ .piece a :: after) := by
  have hbefore := h.left
  have hafter : Ordered entries key after := by
    rw [List.append_cons] at h
    exact h.right
  rw [Ordered, marks_append, marks_piece] at h ⊢
  rw [marks_congr fun b hb => hothers b (List.mem_append_left _ hb),
    marks_congr fun b hb => hothers b (List.mem_append_right _ hb), hnew, List.map_append,
    List.map_cons, hkey, List.append_assoc, List.cons_append, ← List.append_assoc]
  rw [hold, List.map_append, List.append_assoc, ← List.append_assoc] at h
  obtain ⟨hl, hr, hlr⟩ := List.pairwise_append.mp h
  have hlt : ∀ m ∈ marks entries key before ++ front.map fun e => entryMark (key e),
      m < entryMark k := by
    intro m hm
    rcases List.mem_append.mp hm with hm | hm
    · exact hcut.lt_mark hbefore m hm
    · obtain ⟨x, hx, rfl⟩ := List.mem_map.mp hm
      exact entryMark_lt.mpr (hfront x hx)
  have hgt : ∀ m ∈ (back.map fun e => entryMark (key e)) ++ marks entries key after,
      entryMark k < m := by
    intro m hm
    rcases List.mem_append.mp hm with hm | hm
    · obtain ⟨x, hx, rfl⟩ := List.mem_map.mp hm
      exact entryMark_lt.mpr (hback x hx)
    · exact hcut.mark_lt hafter m hm
  refine List.pairwise_append.mpr ⟨hl, List.pairwise_cons.mpr ⟨hgt, hr⟩, ?_⟩
  intro m hm n hn
  rcases List.mem_cons.mp hn with rfl | hn
  · exact hlt m hm
  · exact hlr m hm n hn

/-- A piece parted in two, with a fence of the second's first key between them. -/
lemma Ordered.part {entries' : α → List ε} (h : Ordered entries key (before ++ .piece a :: after))
    {front back : List ε} {x y : ε} (hold : entries a = (front ++ [x]) ++ y :: back)
    (hfront : entries' a = front ++ [x]) (hback : entries' b = y :: back)
    (hothers : ∀ c ∈ pieces before ++ pieces after, entries' c = entries c) :
    Ordered entries' key (before ++ .piece a :: .fence (key y) :: .piece b :: after) := by
  rw [Ordered, marks_append, marks_piece] at h
  rw [hold, List.map_append, List.append_assoc, List.map_cons, ← List.append_assoc] at h
  obtain ⟨hl, hr, hlr⟩ := List.pairwise_append.mp h
  have hxy : entryMark (key x) < fenceMark (key y) := by
    refine entryMark_lt_fenceMark.mpr (entryMark_lt.mp (hlr _ ?_ _ List.mem_cons_self))
    exact List.mem_append_right _ (List.mem_map_of_mem (by simp))
  rw [Ordered, marks_append, marks_piece, marks_fence, marks_piece,
    marks_congr fun c hc => hothers c (List.mem_append_left _ hc),
    marks_congr fun c hc => hothers c (List.mem_append_right _ hc), hfront, hback,
    ← List.append_assoc]
  refine List.pairwise_append.mpr ⟨hl, ?_, ?_⟩
  · refine List.pairwise_cons.mpr ⟨?_, hr⟩
    intro m hm
    have hy : fenceMark (key y) < entryMark (key y) := fenceMark_lt_entryMark.mpr le_rfl
    rcases List.mem_cons.mp hm with rfl | hm
    · exact hy
    · exact lt_trans hy ((List.pairwise_cons.mp hr).1 m hm)
  · intro m hm n hn
    rcases List.mem_cons.mp hn with rfl | hn
    · -- every mark before the second piece is the first piece's last entry's or before it
      rw [List.map_append, ← List.append_assoc] at hm hl
      rcases List.mem_append.mp hm with hm | hm
      · exact lt_trans ((List.pairwise_append.mp hl).2.2 m hm _ (by simp)) hxy
      · rw [List.map_cons, List.map_nil, List.mem_singleton] at hm
        rw [hm]
        exact hxy
    · exact hlr m hm n hn

/-- An entry dropped from a piece. -/
lemma Ordered.drop {entries' : α → List ε} (h : Ordered entries key (before ++ .piece a :: after))
    (hnew : List.Sublist (entries' a) (entries a))
    (hothers : ∀ b ∈ pieces before ++ pieces after, entries' b = entries b) :
    Ordered entries' key (before ++ .piece a :: after) := by
  rw [Ordered, marks_append, marks_piece] at h ⊢
  rw [marks_congr fun b hb => hothers b (List.mem_append_left _ hb),
    marks_congr fun b hb => hothers b (List.mem_append_right _ hb)]
  refine h.sublist ((List.Sublist.refl _).append ?_)
  exact (hnew.map _).append (List.Sublist.refl _)

end Order

end Fences
