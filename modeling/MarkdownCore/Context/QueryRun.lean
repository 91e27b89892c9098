import MarkdownCore.Context.Query
import Mathlib.Data.List.Pairwise

/-!
# Holders found by climbing are those a walk finds

The links tell whether the ranges nest (`readHoldings_nested`), and where they do, climbing them
lists the nodes that hold a byte as the walk does (`queryHolders_eq`). A count of columns from the
nearer mark is the count from the line's start (`queryUnitsAll_eq`).
-/

namespace MarkdownCore.Context

open MarkdownCore.Text (columns)

variable {α : Type*}

/-! ### Links -/

/-- Whether one range begins in another and ends past it. -/
def Cross (a b : Holding α) : Prop := a.start < b.start ∧ b.start < a.stop ∧ a.stop < b.stop

lemma startAt_eq {hs : List (Holding α)} {i : ℕ} {h : Holding α} (hi : hs[i]? = some h) :
    startAt hs i = h.start := by rw [startAt, hi]; rfl

lemma stopAt_eq {hs : List (Holding α)} {i : ℕ} {h : Holding α} (hi : hs[i]? = some h) :
    stopAt hs i = h.stop := by rw [stopAt, hi]; rfl

/-- Holdings in order. -/
def Sorted (hs : List (Holding α)) : Prop := hs.Pairwise fun a b => holdingOrder a b ≤ 0

lemma holdingOrder_le {a b : Holding α} (h : holdingOrder a b ≤ 0) :
    a.start < b.start ∨ a.start = b.start ∧ b.stop ≤ a.stop := by
  rw [holdingOrder] at h
  split at h
  next hne =>
    split at h
    next hlt => exact .inl hlt
    next => exact absurd h (by decide)
  next heq =>
    have heq := not_not.mp heq
    split at h
    next hne =>
      split at h
      next hgt => exact .inr ⟨heq, hgt.le⟩
      next => exact absurd h (by decide)
    next hstop => exact .inr ⟨heq, (not_not.mp hstop).ge⟩

lemma Sorted.ordered {hs : List (Holding α)} (h : Sorted hs) :
    Laminar.Ordered (startAt hs) (stopAt hs) hs.length := by
  intro i j hij hj
  have hi : i < hs.length := hij.trans hj
  rw [startAt_eq (List.getElem?_eq_getElem hi), startAt_eq (List.getElem?_eq_getElem hj),
    stopAt_eq (List.getElem?_eq_getElem hi), stopAt_eq (List.getElem?_eq_getElem hj)]
  exact holdingOrder_le (List.pairwise_iff_getElem.mp h i j hi hj hij)

/-- The ranges nest just when no two of them cross. -/
lemma Sorted.nested_iff {hs : List (Holding α)} (h : Sorted hs) :
    Laminar.Nested (startAt hs) (stopAt hs) hs.length ↔
      ∀ a ∈ hs, ∀ b ∈ hs, ¬ Cross a b := by
  have hordered := h.ordered
  constructor
  · rintro hnested a ha b hb ⟨hstart, hin, hout⟩
    obtain ⟨i, hi⟩ := List.mem_iff_getElem?.mp ha
    obtain ⟨j, hj⟩ := List.mem_iff_getElem?.mp hb
    have hil := (List.getElem?_eq_some_iff.mp hi).choose
    have hjl := (List.getElem?_eq_some_iff.mp hj).choose
    have hij : i < j := by
      by_contra hge
      have hle := hordered.start_le (not_lt.mp hge) hil
      rw [startAt_eq hi, startAt_eq hj] at hle
      omega
    have hstop := hnested i j hij hjl (by rw [startAt_eq hj, stopAt_eq hi]; exact hin)
    rw [stopAt_eq hi, stopAt_eq hj] at hstop
    omega
  · intro hcross i j hij hj hin
    have hi : i < hs.length := hij.trans hj
    have hgi := List.getElem?_eq_getElem hi
    have hgj := List.getElem?_eq_getElem hj
    by_contra hout
    have hor := hordered i j hij hj
    refine hcross _ (List.getElem_mem hi) _ (List.getElem_mem hj) ⟨?_, ?_, ?_⟩
    · rw [← startAt_eq hgi, ← startAt_eq hgj]
      omega
    · rw [← startAt_eq hgj, ← stopAt_eq hgi]
      exact hin
    · rw [← stopAt_eq hgi, ← stopAt_eq hgj]
      omega

/-- The links of the first holdings. -/
structure Linking (hs : List (Holding α)) (i : ℕ) (links : Links) : Prop where
  length : links.enclosing.length = i
  opened : links.opened = if i = 0 then none else some (i - 1)
  nested : links.nested = true ↔ Laminar.Nested (startAt hs) (stopAt hs) i
  linked : links.nested = true →
    Laminar.Linked (startAt hs) (stopAt hs) (enclosingAt links.enclosing) i

lemma enclosingAt_append {enclosing : List (Option ℕ)} {o : Option ℕ} {k : ℕ} :
    enclosingAt (enclosing ++ [o]) k =
      if k = enclosing.length then o else enclosingAt enclosing k := by
  rw [enclosingAt, enclosingAt]
  split
  next heq => simp [heq]
  next hne =>
    rcases Nat.lt_or_gt_of_ne hne with hlt | hgt
    · rw [List.getElem?_append_left hlt]
    · rw [List.getElem?_eq_none (by simp; omega), List.getElem?_eq_none (by omega)]

lemma Linking.step {hs : List (Holding α)} {i : ℕ} {links : Links} (h : Linking hs i links)
    (hsorted : Sorted hs) (hi : i < hs.length) : Linking hs (i + 1) (linkOne hs links i) := by
  have hordered := hsorted.ordered.mono (Nat.succ_le_of_lt hi)
  refine ⟨?_, rfl, ?_, ?_⟩
  · rw [linkOne, List.length_append, h.length]
    rfl
  · by_cases hnested : links.nested = true
    · have hlast := Laminar.link_spec hordered (h.linked hnested) (le_refl i)
      rw [← h.opened] at hlast
      rw [← Laminar.crosses_iff hordered (h.nested.mp hnested) hlast, linkOne, hnested,
        Bool.true_and, Bool.not_eq_true', Option.any_eq_false]
      simp
    · -- what crossed before still does
      have hnot : ¬ Laminar.Nested (startAt hs) (stopAt hs) (i + 1) := by
        intro hmore
        exact hnested (h.nested.mpr fun a b hab hb => hmore a b hab (by omega))
      rw [linkOne, Bool.eq_false_iff.mpr hnested]
      simpa using hnot
  · intro hnested k hk
    have hbefore : links.nested = true := by
      rw [linkOne] at hnested
      exact (Bool.and_eq_true_iff.mp hnested).1
    rw [linkOne, enclosingAt_append, h.length]
    split
    next heq =>
      have hlast := Laminar.link_spec hordered (h.linked hbefore) (le_refl i)
      rw [← h.opened] at hlast
      rw [heq]
      exact hlast
    next hne => exact h.linked hbefore k (by omega)

lemma link_linking {hs : List (Holding α)} (hsorted : Sorted hs) :
    Linking hs hs.length (link hs) := by
  have hrun : ∀ i ≤ hs.length,
      Linking hs i ((List.range i).foldl (linkOne hs) ⟨[], none, true⟩) := by
    intro i
    induction i with
    | zero =>
      intro _
      refine ⟨rfl, rfl, ?_, fun _ k hk => absurd hk (Nat.not_lt_zero k)⟩
      exact ⟨fun _ a b hab hb => absurd hb (Nat.not_lt_zero b), fun _ => rfl⟩
    | succ i ih =>
      intro hi
      rw [List.range_succ, List.foldl_append]
      exact (ih (by omega)).step hsorted hi
  exact hrun hs.length (le_refl _)

/-! ### The holdings of a walk -/

lemma holdingOrder_le_iff {a b : Holding α} : holdingOrder a b ≤ 0 ↔
    a.start < b.start ∨ a.start = b.start ∧ (b.stop < a.stop ∨ a.stop = b.stop ∧
      a.order ≤ b.order) := by
  rw [holdingOrder]
  split_ifs <;> simp <;> omega

lemma sorted_insertionSort (hs : List (Holding α)) :
    Sorted (hs.insertionSort fun a b => holdingOrder a b ≤ 0) := by
  have htotal : Std.Total fun a b : Holding α => holdingOrder a b ≤ 0 := by
    constructor
    intro a b
    rw [holdingOrder_le_iff, holdingOrder_le_iff]
    omega
  have htrans : IsTrans (Holding α) fun a b => holdingOrder a b ≤ 0 := by
    constructor
    intro a b c
    rw [holdingOrder_le_iff, holdingOrder_le_iff, holdingOrder_le_iff]
    omega
  exact List.pairwise_insertionSort _ hs

/-- The ranges of one node hold no byte in common. -/
def Apart (item : WalkItem α) : Prop :=
  item.ranges.Pairwise fun a b => ∀ x, ¬ (a.1 ≤ x ∧ x < a.2 ∧ b.1 ≤ x ∧ x < b.2)

/-- Whether a holding holds a byte. -/
def holds (offset : ℕ) (h : Holding α) : Bool := h.start ≤ offset ∧ offset < h.stop

/-- The holdings of one item that hold a byte: one, or none. -/
def itemHoldings (item : WalkItem α) (order : ℕ) : List (Holding α) :=
  match item.node with
  | none => []
  | some node => (item.ranges.filter fun range => range.1 < range.2).map fun range =>
      ⟨node, range.1, range.2, item.last, order⟩

lemma order_itemHoldings {item : WalkItem α} {order : ℕ} {h : Holding α}
    (hh : h ∈ itemHoldings item order) : h.order = order := by
  rw [itemHoldings] at hh
  split at hh
  · exact absurd hh (by simp)
  · obtain ⟨range, -, rfl⟩ := List.mem_map.mp hh
    rfl

/-- A node holds a byte by one of its ranges. -/
lemma filter_ranges {ranges : List (ℕ × ℕ)} {offset : ℕ}
    (h : ranges.Pairwise fun a b => ∀ x, ¬ (a.1 ≤ x ∧ x < a.2 ∧ b.1 ≤ x ∧ x < b.2)) :
    (((ranges.filter fun range => range.1 < range.2).filter fun range =>
        range.1 ≤ offset ∧ offset < range.2).length) =
      if ranges.any fun range => range.1 ≤ offset ∧ offset < range.2 then 1 else 0 := by
  induction ranges with
  | nil => rfl
  | cons range ranges ih =>
    obtain ⟨hone, hrest⟩ := List.pairwise_cons.mp h
    have hlen := ih hrest
    by_cases hin : range.1 ≤ offset ∧ offset < range.2
    · have hnone : (ranges.any fun range => range.1 ≤ offset ∧ offset < range.2) = false := by
        rw [List.any_eq_false]
        intro b hb hbin
        have hbin := of_decide_eq_true hbin
        exact hone b hb offset ⟨hin.1, hin.2, hbin.1, hbin.2⟩
      rw [hnone] at hlen
      have hlt : range.1 < range.2 := by omega
      simp only [List.filter_cons, hlt, hin, decide_true, if_true, List.length_cons,
        List.any_cons, Bool.true_or, and_self]
      simpa using hlen
    · rw [List.any_cons, decide_eq_false hin, Bool.false_or, ← hlen, List.filter_cons]
      split
      next => rw [List.filter_cons, if_neg (by simpa using hin)]
      next => rfl

lemma filter_itemHoldings {item : WalkItem α} {order offset : ℕ} (h : Apart item) :
    ((itemHoldings item order).filter (holds offset)).map Holding.node =
        (if item.ranges.any fun range => range.1 ≤ offset ∧ offset < range.2 then item.node
          else none).toList ∧
      ((itemHoldings item order).filter (holds offset)).length ≤ 1 := by
  rw [itemHoldings]
  cases hnode : item.node with
  | none => simp
  | some node =>
    dsimp only
    have hlen := @filter_ranges item.ranges offset h
    rw [List.filter_map]
    have hcomp : (holds offset ∘ fun range : ℕ × ℕ =>
        (⟨node, range.1, range.2, item.last, order⟩ : Holding α)) =
          fun range => decide (range.1 ≤ offset ∧ offset < range.2) := rfl
    rw [hcomp, List.map_map, List.length_map]
    set found := (item.ranges.filter fun range => range.1 < range.2).filter fun range =>
      range.1 ≤ offset ∧ offset < range.2 with hfound
    have hmap : found.map (Holding.node ∘ fun range : ℕ × ℕ =>
        (⟨node, range.1, range.2, item.last, order⟩ : Holding α)) =
          List.replicate found.length node := List.map_const' ..
    rw [hmap, hlen]
    split
    · exact ⟨rfl, le_refl 1⟩
    · exact ⟨rfl, Nat.zero_le 1⟩

/-- The walk's holdings that hold a byte are the nodes the walk finds, in walk order. -/
lemma walkHoldings_spec {items : List (WalkItem α)} (h : ∀ item ∈ items, Apart item)
    (offset : ℕ) :
    ((walkHoldings items).filter (holds offset)).map Holding.node = treeHolders items offset ∧
      ((walkHoldings items).filter (holds offset)).Pairwise fun a b => a.order < b.order := by
  have hrun : ∀ (items : List (WalkItem α)) (first : ℕ), (∀ item ∈ items, Apart item) →
      (((items.zipIdx first).flatMap fun item => itemHoldings item.1 item.2).filter
          (holds offset)).map Holding.node = treeHolders items offset ∧
        (((items.zipIdx first).flatMap fun item => itemHoldings item.1 item.2).filter
          (holds offset)).Pairwise (fun a b => a.order < b.order) ∧
        ∀ a ∈ (items.zipIdx first).flatMap fun item => itemHoldings item.1 item.2,
          first ≤ a.order := by
    intro items
    induction items with
    | nil => simp [treeHolders]
    | cons item items ih =>
      intro first hdisjoint
      obtain ⟨hitem, hitems⟩ := List.forall_mem_cons.mp hdisjoint
      obtain ⟨hnodes, hsorted, horders⟩ := ih (first + 1) hitems
      obtain ⟨hnode, hone⟩ := @filter_itemHoldings _ item first offset hitem
      rw [List.zipIdx_cons, List.flatMap_cons, List.filter_append]
      refine ⟨?_, ?_, ?_⟩
      · rw [List.map_append, hnode, hnodes, treeHolders, treeHolders, List.filterMap_cons]
        cases (if item.ranges.any fun range => range.1 ≤ offset ∧ offset < range.2 then item.node
          else none) <;> rfl
      · rw [List.pairwise_append]
        refine ⟨?_, hsorted, ?_⟩
        · cases hl : (itemHoldings item first).filter (holds offset) with
          | nil => exact List.Pairwise.nil
          | cons a rest =>
            rw [hl, List.length_cons] at hone
            rw [List.length_eq_zero_iff.mp (by omega : rest.length = 0)]
            exact List.pairwise_singleton _ _
        · intro a ha b hb
          have := order_itemHoldings (List.mem_filter.mp ha).1
          have := horders b (List.mem_filter.mp hb).1
          omega
      · intro a ha
        rcases List.mem_append.mp ha with ha | ha
        · rw [order_itemHoldings ha]
        · have := horders a ha
          omega
  obtain ⟨hnodes, hsorted, -⟩ := hrun items 0 h
  exact ⟨hnodes, hsorted⟩

/-! ### Holders -/

lemma insertHeld_perm (found : Holding α) (held : List (Holding α)) :
    (insertHeld found held).Perm (found :: held) := by
  induction held with
  | nil => exact List.Perm.refl _
  | cons next rest ih =>
    rw [insertHeld]
    split
    · exact (ih.cons next).trans (List.Perm.swap found next rest)
    · exact List.Perm.refl _

lemma insertHeld_sorted {found : Holding α} {held : List (Holding α)}
    (h : held.Pairwise fun a b => a.order ≤ b.order) :
    (insertHeld found held).Pairwise fun a b => a.order ≤ b.order := by
  induction held with
  | nil => exact List.pairwise_singleton _ _
  | cons next rest ih =>
    obtain ⟨hnext, hrest⟩ := List.pairwise_cons.mp h
    rw [insertHeld]
    split
    next hgt =>
      refine List.pairwise_cons.mpr ⟨?_, ih hrest⟩
      intro a ha
      rcases List.mem_cons.mp ((insertHeld_perm found rest).mem_iff.mp ha) with rfl | ha
      · exact hgt.le
      · exact hnext a ha
    next hle =>
      refine List.pairwise_cons.mpr ⟨?_, h⟩
      intro a ha
      rcases List.mem_cons.mp ha with rfl | ha
      · exact not_lt.mp hle
      · exact (not_lt.mp hle).trans (hnext a ha)

/-- The holdings found up a chain, in walk order. -/
lemma foldl_insertHeld (hs : List (Holding α)) (up : List ℕ) :
    ∀ held : List (Holding α), held.Pairwise (fun a b => a.order ≤ b.order) →
      (up.foldl (fun held i =>
        match hs[i]? with
        | none => held
        | some found => insertHeld found held) held).Pairwise (fun a b => a.order ≤ b.order) ∧
      (up.foldl (fun held i =>
        match hs[i]? with
        | none => held
        | some found => insertHeld found held) held).Perm (up.filterMap (hs[·]?) ++ held) := by
  induction up with
  | nil => exact fun held h => ⟨h, List.Perm.refl _⟩
  | cons i up ih =>
    intro held h
    rw [List.foldl_cons]
    cases hi : hs[i]? with
    | none =>
      rw [List.filterMap_cons_none hi]
      exact ih held h
    | some found =>
      rw [List.filterMap_cons_some hi]
      obtain ⟨hsorted, hperm⟩ := ih (insertHeld found held) (insertHeld_sorted h)
      refine ⟨hsorted, hperm.trans ?_⟩
      exact ((insertHeld_perm found held).append_left _).trans List.perm_middle

/-- The holdings that hold a byte, by their indexes. -/
lemma filterMap_holds (hs : List (Holding α)) (offset : ℕ) :
    ((List.range hs.length).filter fun i =>
        startAt hs i ≤ offset ∧ offset < stopAt hs i).filterMap (hs[·]?) =
      hs.filter (holds offset) := by
  have htake : ∀ n ≤ hs.length, ((List.range n).filter fun i =>
      startAt hs i ≤ offset ∧ offset < stopAt hs i).filterMap (hs[·]?) =
        (hs.take n).filter (holds offset) := by
    intro n
    induction n with
    | zero => simp
    | succ n ih =>
      intro hn
      have hget := List.getElem?_eq_getElem hn
      rw [List.range_succ, List.filter_append, List.filterMap_append, ih (by omega),
        List.take_add_one, List.filter_append, hget]
      congr 1
      by_cases hin : hs[n].start ≤ offset ∧ offset < hs[n].stop
      · simp [startAt_eq hget, stopAt_eq hget, holds, hin, hget]
      · simp [startAt_eq hget, stopAt_eq hget, holds, hin]
  rw [htake hs.length (le_refl _), List.take_length]

/-- The search finds how many holdings start at or before a byte. -/
lemma low_spec {hs : List (Holding α)} (hordered : Laminar.Ordered (startAt hs) (stopAt hs)
    hs.length) (offset : ℕ) :
    Bisect.bisect (fun i => startAt hs i ≤ offset) hs.length 0 hs.length ≤ hs.length ∧
      ∀ i < hs.length, startAt hs i ≤ offset ↔
        i < Bisect.bisect (fun i => startAt hs i ≤ offset) hs.length 0 hs.length := by
  have hcongr : Bisect.bisect (fun i => startAt hs i ≤ offset) hs.length 0 hs.length =
      Bisect.bisect (fun i => i < hs.length ∧ startAt hs i ≤ offset) hs.length 0 hs.length := by
    apply Bisect.bisect_congr
    intro k hk
    simp [hk]
  have hfalls : Bisect.Falls fun i => decide (i < hs.length ∧ startAt hs i ≤ offset) := by
    intro i j hij hj
    obtain ⟨hlt, hle⟩ := of_decide_eq_true hj
    exact decide_eq_true ⟨by omega, (hordered.start_le hij hlt).trans hle⟩
  rw [hcongr]
  refine ⟨(Bisect.bisect_bounds _ (Nat.zero_le _)).2, fun i hi => ⟨fun hle => ?_, fun hlt => ?_⟩⟩
  · by_contra hge
    have hnot := @Bisect.bisect_not_below (fun i => decide (i < hs.length ∧ startAt hs i ≤ offset))
      hs.length 0 hs.length (le_refl _) (lt_of_le_of_lt (not_lt.mp hge) hi)
    have htrue := hfalls (not_lt.mp hge) (decide_eq_true ⟨hi, hle⟩)
    exact Bool.false_ne_true (hnot.symm.trans htrue)
  · exact (of_decide_eq_true (Bisect.bisect_below hfalls (Nat.zero_le i) hlt)).2

/-- Climbing finds the holdings that hold a byte. -/
lemma chain_perm {hs : List (Holding α)} (hsorted : Sorted hs) {enclosing : List (Option ℕ)}
    (hnested : Laminar.Nested (startAt hs) (stopAt hs) hs.length)
    (hlinked : Laminar.Linked (startAt hs) (stopAt hs) (enclosingAt enclosing) hs.length)
    {offset low : ℕ} (hlow : low ≤ hs.length)
    (hstarts : ∀ i < hs.length, startAt hs i ≤ offset ↔ i < low) :
    (Laminar.chain (enclosingAt enclosing) (hs.length + 1)
      (Laminar.climb (stopAt hs) (enclosingAt enclosing) offset (hs.length + 1)
        (if low = 0 then none else some (low - 1)))).Perm
      ((List.range hs.length).filter fun i => startAt hs i ≤ offset ∧ offset < stopAt hs i) := by
  have hordered := hsorted.ordered
  have hlast : Laminar.LastPast (stopAt hs) low offset
      (Laminar.climb (stopAt hs) (enclosingAt enclosing) offset (hs.length + 1)
        (if low = 0 then none else some (low - 1))) := by
    cases low with
    | zero => exact fun k hk => absurd hk (Nat.not_lt_zero k)
    | succ low =>
      have hstart := (hstarts low (by omega)).mpr (Nat.lt_succ_self low)
      exact Laminar.climb_spec hordered hlinked (by omega) (by omega) hstart
  generalize Laminar.climb (stopAt hs) (enclosingAt enclosing) offset (hs.length + 1)
    (if low = 0 then none else some (low - 1)) = found at hlast ⊢
  have hmem : ∀ l, l ∈ Laminar.chain (enclosingAt enclosing) (hs.length + 1) found ↔
      l < low ∧ offset < stopAt hs l := by
    intro l
    cases found with
    | none =>
      constructor
      · intro hl
        exact absurd hl (by simp [Laminar.chain])
      · rintro ⟨hl, hstop⟩
        have := hlast l hl
        omega
    | some i =>
      obtain ⟨hi, hstop, hafter⟩ := hlast
      have hstart := (hstarts i (by omega)).mpr hi
      obtain ⟨hchain, -⟩ := Laminar.mem_chain_iff hordered hnested hlinked
        (by omega : i < hs.length) (by omega : i < hs.length + 1) hstart hstop
      rw [hchain]
      constructor
      · rintro ⟨hle, hlt⟩
        exact ⟨by omega, hlt⟩
      · rintro ⟨hlt, hpast⟩
        refine ⟨?_, hpast⟩
        by_contra hgt
        have := hafter l (by omega) hlt
        omega
  have hnodup : (Laminar.chain (enclosingAt enclosing) (hs.length + 1) found).Nodup := by
    cases found with
    | none => exact List.nodup_nil
    | some i =>
      obtain ⟨hi, hstop, -⟩ := hlast
      obtain ⟨-, hsorted'⟩ := Laminar.mem_chain_iff hordered hnested hlinked
        (by omega : i < hs.length) (by omega : i < hs.length + 1)
        ((hstarts i (by omega)).mpr hi) hstop
      exact hsorted'.imp fun hgt => hgt.ne'
  rw [List.perm_ext_iff_of_nodup hnodup (List.nodup_range.filter _)]
  intro l
  rw [hmem, List.mem_filter, List.mem_range, decide_eq_true_eq]
  constructor
  · rintro ⟨hl, hstop⟩
    exact ⟨by omega, (hstarts l (by omega)).mpr hl, hstop⟩
  · rintro ⟨hl, hstart, hstop⟩
    exact ⟨(hstarts l hl).mp hstart, hstop⟩

/-- The holders of a byte, found by climbing, are those the walk finds. -/
theorem queryHolders_eq {items : List (WalkItem α)} (h : ∀ item ∈ items, Apart item)
    {query : Holdings α} (hquery : readHoldings items true = some query) (offset : ℕ) :
    queryHolders query items offset true = some (treeHolders items offset) := by
  rw [readHoldings, if_neg (by simp)] at hquery
  obtain rfl := Option.some.inj hquery
  set hs := (walkHoldings items).insertionSort fun a b => holdingOrder a b ≤ 0 with hhs
  have hsorted : Sorted hs := sorted_insertionSort _
  have hlinking := link_linking hsorted
  rw [queryHolders]
  dsimp only
  split
  next => rfl
  next hnested =>
    have hnested : (link hs).nested = true := by simpa using hnested
    obtain ⟨hlow, hstarts⟩ := low_spec hsorted.ordered offset
    generalize Bisect.bisect (fun i => startAt hs i ≤ offset) hs.length 0 hs.length = low
      at hlow hstarts ⊢
    have hchain := chain_perm hsorted (hlinking.nested.mp hnested) (hlinking.linked hnested) hlow
      hstarts
    generalize Laminar.chain (enclosingAt (link hs).enclosing) (hs.length + 1)
      (Laminar.climb (stopAt hs) (enclosingAt (link hs).enclosing) offset (hs.length + 1)
        (if low = 0 then none else some (low - 1))) = up at hchain ⊢
    obtain ⟨hheldsorted, hheldperm⟩ := foldl_insertHeld hs up [] List.Pairwise.nil
    rw [List.append_nil] at hheldperm
    obtain ⟨hnodes, hwalksorted⟩ := walkHoldings_spec h offset
    have hfound : (hs.filter (holds offset)).Perm ((walkHoldings items).filter (holds offset)) :=
      (List.perm_insertionSort _ _).filter _
    have hperm := hheldperm.trans ((hchain.filterMap _).trans
      ((List.Perm.of_eq (filterMap_holds hs offset)).trans hfound))
    have heq := hperm.eq_of_pairwise ?_ hheldsorted (hwalksorted.imp fun hlt => hlt.le)
    · split
      next hnil =>
        subst hnil
        rw [← hnodes, ← heq]
        rfl
      next =>
        rw [← hnodes, ← heq]
        rfl
    · -- two of the walk's holdings have one place in it only if they are one
      intro a b ha hb hab hba
      have ha' := hperm.mem_iff.mp ha
      by_contra hne
      have hsymm : Std.Symm fun a b : Holding α => a.order ≠ b.order := ⟨fun _ _ h => h.symm⟩
      have hapart : ((walkHoldings items).filter (holds offset)).Pairwise fun a b =>
          a.order ≠ b.order := hwalksorted.imp fun hlt => hlt.ne
      exact hapart.forall ha' hb hne (le_antisymm hab hba)

/-- The ranges are said to nest just when no two of them cross. -/
theorem readHoldings_nested {items : List (WalkItem α)} {query : Holdings α}
    (hquery : readHoldings items true = some query) :
    query.nested = true ↔ ∀ a ∈ walkHoldings items, ∀ b ∈ walkHoldings items, ¬ Cross a b := by
  rw [readHoldings, if_neg (by simp)] at hquery
  obtain rfl := Option.some.inj hquery
  have hsorted := sorted_insertionSort (walkHoldings items)
  have hlinking := link_linking hsorted
  rw [hlinking.nested, hsorted.nested_iff]
  simp only [List.mem_insertionSort]

/-! ### Columns -/

/-- The query's lines begin at the text's start, or the locus answers for the bytes before them:
its line is one before them, begins at or before the byte, and begins where it does for another
byte of the line. -/
structure Located (query : Source) : Prop where
  first : query.locus = none → query.lines.starts.getD 0 0 = 0
  before : ∀ line, query.locus = some line → ∀ offset < query.lines.starts.getD 0 0,
    (line offset).1 < query.lines.base ∧ (line offset).2 ≤ offset
  same : ∀ line, query.locus = some line → ∀ a < query.lines.starts.getD 0 0,
    ∀ b < query.lines.starts.getD 0 0, (line a).1 = (line b).1 → (line a).2 = (line b).2

lemma lastStart_le {starts : List ℕ} {offset : ℕ} :
    ∀ {fuel lo hi : ℕ}, starts.getD lo 0 ≤ offset →
      starts.getD (lastStart starts offset fuel lo hi) 0 ≤ offset := by
  intro fuel
  induction fuel with
  | zero => exact fun h => h
  | succ fuel ih =>
    intro lo hi h
    rw [lastStart]
    dsimp only
    split
    · split
      next hle => exact ih hle
      next => exact ih h
    · exact h

/-- A line begins at or before each of its bytes. -/
lemma Located.start_le {query : Source} (h : Located query) (offset : ℕ) :
    (queryLine query offset).2 ≤ offset := by
  rw [queryLine]
  cases hlocus : query.locus with
  | none =>
    have hfirst := h.first hlocus
    exact lastStart_le (by omega)
  | some line =>
    dsimp only
    split
    next hlt => exact (h.before line hlocus offset hlt).2
    next hge => exact lastStart_le (not_lt.mp hge)

/-- A line begins where it does for each of its bytes. -/
lemma Located.start_eq {query : Source} (h : Located query) {a b : ℕ}
    (hline : (queryLine query a).1 = (queryLine query b).1) :
    (queryLine query a).2 = (queryLine query b).2 := by
  have htable : ∀ {a b : ℕ}, (tableLine query.lines a).1 = (tableLine query.lines b).1 →
      (tableLine query.lines a).2 = (tableLine query.lines b).2 := by
    intro a b hline
    have heq := Nat.add_left_cancel hline
    simp only [tableLine]
    rw [heq]
  rw [queryLine, queryLine] at hline ⊢
  cases hlocus : query.locus with
  | none =>
    rw [hlocus] at hline
    exact htable hline
  | some line =>
    rw [hlocus] at hline
    dsimp only at hline ⊢
    have hbase : ∀ c, query.lines.base ≤ (tableLine query.lines c).1 :=
      fun c => Nat.le_add_right _ _
    by_cases ha : a < query.lines.starts.getD 0 0
    · by_cases hb : b < query.lines.starts.getD 0 0
      · rw [if_pos ha, if_pos hb] at hline ⊢
        exact h.same line hlocus a ha b hb hline
      · rw [if_pos ha, if_neg hb] at hline
        have := (h.before line hlocus a ha).1
        have := hbase b
        omega
    · by_cases hb : b < query.lines.starts.getD 0 0
      · rw [if_neg ha, if_pos hb] at hline
        have := (h.before line hlocus b hb).1
        have := hbase a
        omega
      · rw [if_neg ha, if_neg hb] at hline ⊢
        exact htable hline

/-- A mark keeps a true count: the units from its line's start to its byte. -/
def MarkTrue (query : Source) (mark : ColumnMark) : Prop :=
  mark.set = true → mark.line = (queryLine query mark.offset).1 ∧
    mark.units = columns query.source (queryLine query mark.offset).2 mark.offset .utf16

lemma columns_add {source : List UInt8} {a b c : ℕ} (hab : a ≤ b) (hbc : b ≤ c) :
    columns source a c .utf16 = columns source a b .utf16 + columns source b c .utf16 := by
  obtain ⟨d, rfl⟩ := Nat.exists_eq_add_of_le hab
  obtain ⟨e, rfl⟩ := Nat.exists_eq_add_of_le hbc
  rw [columns, columns, columns, Nat.add_assoc, Nat.add_sub_cancel_left, Nat.add_sub_cancel_left,
    ← Nat.add_assoc, Nat.add_sub_cancel_left, List.take_add, List.drop_drop, List.map_append,
    List.sum_append]

/-- A count from a mark looked at is the count from the line's start. -/
lemma nearer_spec {query : Source} (h : Located query) {mark : ColumnMark} {offset : ℕ}
    (hmark : MarkTrue query mark) {count : ℕ × ℕ} (hle : count.1 ≤ offset)
    (hcount : (queryLine query offset).2 ≤ count.1 ∧
      count.2 = columns query.source (queryLine query offset).2 count.1 .utf16) :
    (nearer (queryLine query offset).1 offset count mark).1 ≤ offset ∧
      (queryLine query offset).2 ≤ (nearer (queryLine query offset).1 offset count mark).1 ∧
      (nearer (queryLine query offset).1 offset count mark).2 =
        columns query.source (queryLine query offset).2
          (nearer (queryLine query offset).1 offset count mark).1 .utf16 := by
  rw [nearer]
  split
  next hgo =>
    obtain ⟨hset, hline, hoffset, hpast⟩ := hgo
    obtain ⟨hmarkline, hunits⟩ := hmark hset
    have hstart := h.start_eq (hmarkline.symm.trans hline)
    refine ⟨hoffset, hcount.1.trans hpast, ?_⟩
    rw [hunits, hstart]
  next => exact ⟨hle, hcount.1, hcount.2⟩

/-- A count of columns is the count from the line's start, and leaves marks true. -/
lemma queryUnits_spec {query : Source} (h : Located query) {marks : Fin 2 → ColumnMark}
    (hmarks : ∀ i, MarkTrue query (marks i)) (offset : ℕ) (which : Fin 2) :
    (queryUnits query marks offset which).units =
        columns query.source (queryLine query offset).2 offset .utf16 ∧
      (queryUnits query marks offset which).line = (queryLine query offset).1 + 1 ∧
      ∀ i, MarkTrue query ((queryUnits query marks offset which).marks i) := by
  have hstart : (queryLine query offset).2 ≤ (queryLine query offset).2 ∧
      0 = columns query.source (queryLine query offset).2 (queryLine query offset).2 .utf16 := by
    refine ⟨le_refl _, ?_⟩
    rw [columns, Nat.sub_self, List.take_zero]
    rfl
  obtain ⟨h₁, h₂, h₃⟩ := @nearer_spec query h (marks 0) offset (hmarks 0)
    ((queryLine query offset).2, 0) (h.start_le offset) hstart
  obtain ⟨h₄, h₅, h₆⟩ := nearer_spec h (hmarks 1) h₁ ⟨h₂, h₃⟩
  have hunits : (queryUnits query marks offset which).units =
      columns query.source (queryLine query offset).2 offset .utf16 := by
    rw [columns_add h₅ h₄, ← h₆]
    rfl
  refine ⟨hunits, rfl, fun i => ?_⟩
  by_cases hi : i = which
  · subst hi
    intro _
    have hkept : (queryUnits query marks offset i).marks i =
        ⟨(queryLine query offset).1, offset, (queryUnits query marks offset i).units, true⟩ :=
      Function.update_self ..
    rw [hkept]
    exact ⟨rfl, hunits⟩
  · simp only [queryUnits, Function.update_of_ne hi]
    exact hmarks i

/-- Counts asked for in any order are those from the lines' starts. -/
theorem queryUnitsAll_eq {query : Source} (h : Located query) (asked : List (ℕ × Fin 2)) :
    ∀ {marks : Fin 2 → ColumnMark}, (∀ i, MarkTrue query (marks i)) →
      queryUnitsAll query marks asked = asked.map fun ask =>
        ((queryLine query ask.1).1 + 1,
          columns query.source (queryLine query ask.1).2 ask.1 .utf16) := by
  induction asked with
  | nil => exact fun _ => rfl
  | cons ask asked ih =>
    intro marks hmarks
    obtain ⟨offset, which⟩ := ask
    obtain ⟨hunits, hline, hnext⟩ := queryUnits_spec h hmarks offset which
    rw [queryUnitsAll, List.map_cons, ih hnext, hunits, hline]

/-! ### What a query reads is what a walk and a count read -/

/-- Marks not set. -/
def noMarks : Fin 2 → ColumnMark := fun _ => ⟨0, 0, 0, false⟩

/-- **Holders found by climbing are those a linear walk finds.** The ranges of a walk's nodes are
said to nest just when no two of them cross. The nodes found to hold a byte are, in walk order,
those one of whose ranges holds it. And whatever columns are asked for, in whatever order, the
marks give the count from the line's start. -/
theorem holders_and_columns {items : List (WalkItem α)} (h : ∀ item ∈ items, Apart item) :
    (∃ query, readHoldings items true = some query ∧
      (query.nested = true ↔
        ∀ a ∈ walkHoldings items, ∀ b ∈ walkHoldings items, ¬ Cross a b) ∧
      ∀ offset, queryHolders query items offset true = some (treeHolders items offset)) ∧
    ∀ query : Source, Located query → ∀ asked : List (ℕ × Fin 2),
      queryUnitsAll query noMarks asked = asked.map fun ask =>
        ((queryLine query ask.1).1 + 1,
          columns query.source (queryLine query ask.1).2 ask.1 .utf16) := by
  refine ⟨?_, fun query hlocated asked => ?_⟩
  · obtain ⟨query, hquery⟩ : ∃ query, readHoldings items true = some query := by
      rw [readHoldings, if_neg (by simp)]
      exact ⟨_, rfl⟩
    exact ⟨query, hquery, readHoldings_nested hquery, fun offset => queryHolders_eq h hquery offset⟩
  · exact queryUnitsAll_eq hlocated asked fun _ hset => absurd hset (by simp [noMarks])

/-- A node with a gap in its ranges, and one in the gap. -/
def gapped : List (WalkItem ℕ) := [⟨some 1, [(0, 3), (6, 9)], 9⟩, ⟨some 2, [(3, 6)], 6⟩]

theorem holders_and_columns_gapped :
    ∃ query, readHoldings gapped true = some query ∧
      queryHolders query gapped 4 true = some [2] := by
  obtain ⟨⟨query, hquery, -, hholders⟩, -⟩ := @holders_and_columns _ gapped (by
    intro item hitem
    rcases List.mem_cons.mp hitem with rfl | hitem
    · exact List.pairwise_pair.mpr (by intro x; simp only; omega)
    · rw [List.mem_singleton.mp hitem]
      exact List.pairwise_singleton _ _)
  exact ⟨query, hquery, hholders 4⟩

end MarkdownCore.Context
