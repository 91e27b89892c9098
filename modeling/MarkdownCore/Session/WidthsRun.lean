import MarkdownCore.Session.Widths
import Mathlib.Algebra.Order.BigOperators.Group.List
import Mathlib.Data.List.Range

/-!
# Mended widths are widths made anew

Widths made for a block's children, `Made`, hold each chunk's width and the tree over them. An
edit that changes some children, or all from one on, mends them into the widths made anew
(`Made.mend`), and where the children lie in a text the searches over the widths are scans of the
children (`Made.startAt_eq`, `Made.childAt_eq`).
-/

namespace MarkdownCore.Session

open Widths

/-! ### Chunks -/

lemma chunkOf_eq (children : List Child) (chunk : ℕ) :
    chunkOf children chunk = (children.drop (chunk * sessionChunk)).take sessionChunk := by
  rw [chunkOf, Nat.succ_mul]
  split
  next => rw [Nat.add_sub_cancel_left]
  next hge =>
    rw [List.take_of_length_le (by simp), List.take_of_length_le (by simp; omega)]

lemma lt_chunkCount {n c : ℕ} : c < chunkCount n ↔ c * sessionChunk < n := by
  rw [chunkCount, sessionChunk]
  omega

/-- A chunk whose children are the same is. -/
lemma chunkOf_congr {old new : List Child} {c : ℕ}
    (h : ∀ i, c * sessionChunk ≤ i → i < (c + 1) * sessionChunk → new[i]? = old[i]?) :
    chunkOf new c = chunkOf old c := by
  rw [chunkOf_eq, chunkOf_eq]
  apply List.ext_getElem?
  intro i
  rw [List.getElem?_take, List.getElem?_take]
  split
  next hi =>
    rw [List.getElem?_drop, List.getElem?_drop]
    exact h _ (by omega) (by rw [Nat.succ_mul]; omega)
  next => rfl

/-- The width of a chunk's children. -/
def chunkWidth (children : List Child) (c : ℕ) : UInt32 :=
  ((chunkOf children c).map childWidth).sum

lemma measure_fst (children : List Child) (bare : Bool) :
    (measure children bare).1 = (children.map childWidth).sum := by
  have hacc : ∀ (children : List Child) (acc : UInt32 × Bool),
      (children.foldl (fun measured child =>
        (measured.1 + childWidth child, measured.2 || !child.runs)) acc).1 =
          acc.1 + (children.map childWidth).sum := by
    intro children
    induction children with
    | nil => simp
    | cons child children ih =>
      intro acc
      rw [List.foldl_cons, ih, List.map_cons, List.sum_cons, add_assoc]
  rw [measure, hacc, zero_add]

/-! ### Widths made -/

/-- The widths made for these children. -/
structure Made (w : Widths) (children : List Child) : Prop where
  count_eq : w.count = chunkCount children.length
  chunks : ∀ c < w.count, w.chunks c = chunkWidth children c
  sums : Fenwick.Good w.count w.sums w.chunks
  zero : w.sums 0 = 0

lemma chunkCount_lt {n : ℕ} (h : n < 2 ^ 32) : chunkCount n < 2 ^ 64 := by
  rw [chunkCount, sessionChunk]
  omega

/-- What the chunks before `c` and those after the last hold as they were, and the others made. -/
structure Mending (children : List Child) (first c : ℕ) (w₀ w : Widths) : Prop where
  count_eq : w.count = w₀.count
  made : ∀ d, first ≤ d → d < c → w.chunks d = chunkWidth children d
  kept : ∀ d, d < first ∨ c ≤ d → w.chunks d = w₀.chunks d

lemma Mending.step {children : List Child} {first c : ℕ} {w₀ w : Widths}
    (h : Mending children first c w₀ w) (hc : first ≤ c) (whole : Bool) :
    Mending children first (c + 1) w₀
      { (if whole then w else
          w.add c ((measure (chunkOf children c) w.bare).1 - w.chunks c)) with
        chunks := Function.update w.chunks c (measure (chunkOf children c) w.bare).1
        bare := (measure (chunkOf children c) w.bare).2 } := by
  refine ⟨?_, ?_, ?_⟩
  · cases whole
    · exact h.count_eq
    · exact h.count_eq
  · intro d hd hdc
    by_cases heq : d = c
    · subst heq
      simp only [Function.update_self, measure_fst]
      rfl
    · simp only [Function.update_of_ne heq]
      exact h.made d hd (by omega)
  · intro d hd
    have hne : d ≠ c := by omega
    simp only [Function.update_of_ne hne]
    exact h.kept d (by omega)

/-- Where the chunks end that an edit of these children makes again. -/
def mendEnd (children : List Child) (last : ℕ) : ℕ :=
  min (chunkCount children.length) (last / sessionChunk + 1)

lemma mendChunks_mending {children : List Child} {whole : Bool} {first last : ℕ} {w₀ : Widths} :
    ∀ {fuel c : ℕ} {w : Widths}, Mending children first c w₀ w → first ≤ c →
      mendEnd children last ≤ c + fuel →
      Mending children first (max c (mendEnd children last)) w₀
        (w.mendChunks children whole last fuel c) := by
  intro fuel
  induction fuel with
  | zero =>
    intro c w h hc hfuel
    rw [mendChunks, max_eq_left (by omega)]
    exact h
  | succ fuel ih =>
    intro c w h hc hfuel
    rw [mendChunks]
    split
    next hlt =>
      have hend : c < mendEnd children last := lt_min hlt.1 (Nat.lt_succ_of_le hlt.2)
      have hmax : max c (mendEnd children last) = max (c + 1) (mendEnd children last) := by
        omega
      rw [hmax]
      exact ih (h.step hc whole) (by omega) (by omega)
    next hge =>
      have hend : mendEnd children last ≤ c := by
        by_contra hlt
        have := lt_min_iff.mp (not_le.mp hlt)
        omega
      rw [max_eq_left hend]
      exact h

/-- The tree follows the chunks made again one by one. -/
lemma mendChunks_good {children : List Child} {last n : ℕ} (hn : n < 2 ^ 64) :
    ∀ {fuel c : ℕ} {w : Widths}, w.count = n → Fenwick.Good n w.sums w.chunks →
      w.sums 0 = 0 →
      Fenwick.Good n (w.mendChunks children false last fuel c).sums
          (w.mendChunks children false last fuel c).chunks ∧
        (w.mendChunks children false last fuel c).sums 0 = 0 := by
  intro fuel
  induction fuel with
  | zero =>
    intro c w hcount h hzero
    exact ⟨h, hzero⟩
  | succ fuel ih =>
    intro c w hcount h hzero
    rw [mendChunks]
    split
    next =>
      apply ih
      · exact hcount
      · have hup := @Fenwick.Good.up _ _ n w.sums w.chunks h hn c n (Nat.le_add_left n c)
          (measure (chunkOf children c) w.bare).1
        subst hcount
        exact hup
      · exact (Fenwick.up_zero _ w.sums (Nat.succ_pos c)).trans hzero
    next => exact ⟨h, hzero⟩

/-- An edit of children: those with indices from `first` to `last` replaced, or all changed from
`first` on, `last` past the end. -/
def Changes (old new : List Child) (first last : ℕ) : Prop :=
  (last < new.length ∧ new.length = old.length ∧
    ∀ i, i < first ∨ last < i → new[i]? = old[i]?) ∨
  (new.length ≤ last ∧ ∀ i < first, new[i]? = old[i]?)

namespace Made

variable {w : Widths} {old new : List Child} {first last : ℕ}

/-- Chunks made again up to a count: the others' children are the same. -/
lemma of_mending (hlen : w.count = chunkCount new.length)
    (hold : ∀ c < w.count, (c + 1) * sessionChunk ≤ first ∨ last / sessionChunk < c →
      w.chunks c = chunkWidth new c) {w' : Widths}
    (h : Mending new (first / sessionChunk)
      (max (first / sessionChunk) (mendEnd new last)) w w') :
    ∀ c < w'.count, w'.chunks c = chunkWidth new c := by
  intro c hc
  rw [h.count_eq] at hc
  rw [mendEnd, ← hlen] at h
  by_cases hmade : first / sessionChunk ≤ c ∧
      c < max (first / sessionChunk) (min w.count (last / sessionChunk + 1))
  · exact h.made c hmade.1 hmade.2
  · have hout : c < first / sessionChunk ∨
        max (first / sessionChunk) (min w.count (last / sessionChunk + 1)) ≤ c := by omega
    rw [h.kept c hout]
    apply hold c hc
    rcases hout with hlt | hge
    · refine .inl ?_
      rw [sessionChunk] at hlt ⊢
      omega
    · exact .inr (by omega)

/-- Children replaced, their count as it was. -/
lemma mend_part (h : Made w old) (hcount : new.length < 2 ^ 32) (hlast : last < new.length)
    (hlen : new.length = old.length)
    (hsame : ∀ i, i < first ∨ last < i → new[i]? = old[i]?) (chunksRoom sumsRoom : Bool) :
    Made (w.mend new first last chunksRoom sumsRoom).2 new := by
  have hcount' : w.count = chunkCount new.length := by rw [h.count_eq, hlen]
  have hlt : w.count < 2 ^ 64 := by
    rw [hcount']
    exact chunkCount_lt hcount
  rw [Widths.mend, if_neg (not_le.mpr hlast)]
  have hmending := @mendChunks_mending new false (first / sessionChunk) last w
    (chunkCount new.length) (first / sessionChunk) w
    ⟨rfl, fun d h₁ h₂ => by omega, fun _ _ => rfl⟩ (le_refl _)
    ((min_le_left _ _).trans (Nat.le_add_left _ _))
  obtain ⟨hgood, hzero⟩ := @mendChunks_good new last w.count hlt (chunkCount new.length)
    (first / sessionChunk) w rfl h.sums h.zero
  refine ⟨hmending.count_eq.trans hcount', of_mending hcount' ?_ hmending, ?_, hzero⟩
  · intro c hc hout
    rw [h.chunks c hc, chunkWidth, chunkWidth, chunkOf_congr]
    intro i hi hi'
    refine (hsame i ?_).symm
    rcases hout with hle | hlt'
    · exact .inl (by omega)
    · refine .inr ?_
      rw [sessionChunk] at hi hlt'
      omega
  · rw [hmending.count_eq]
    exact hgood

/-- The tree built again over its chunks. -/
lemma build_made {children : List Child} (hcount : children.length < 2 ^ 32)
    (hlen : w.count = chunkCount children.length)
    (hchunks : ∀ c < w.count, w.chunks c = chunkWidth children c) : Made w.build children := by
  have hlt : w.count < 2 ^ 64 := by
    rw [hlen]
    exact chunkCount_lt hcount
  refine ⟨hlen, hchunks, ?_, ?_⟩
  · apply Fenwick.good_passOn hlt
    intro i hi hin
    rw [if_neg hi.ne']
    exact if_pos hin
  · exact Fenwick.passOn_zero _ Nat.one_pos

/-- All the chunks from one on made again. -/
lemma mend_whole (hcount : new.length < 2 ^ 32) (hlast : new.length ≤ last)
    (hold : ∀ c < chunkCount new.length, (c + 1) * sessionChunk ≤ first →
      w.chunks c = chunkWidth new c) :
    Made (w.mend new first last true true).2 new := by
  rw [Widths.mend, if_pos hlast, if_neg (by simp)]
  have hmending := @mendChunks_mending new true (first / sessionChunk)
    (if new.length ≠ 0 then new.length - 1 else 0)
    { w with count := chunkCount new.length, bare := w.bare && decide (first ≠ 0) }
    (chunkCount new.length) (first / sessionChunk) _
    ⟨rfl, fun d h₁ h₂ => by omega, fun _ _ => rfl⟩ (le_refl _)
    ((min_le_left _ _).trans (Nat.le_add_left _ _))
  refine build_made hcount hmending.count_eq (of_mending rfl ?_ hmending)
  intro c hc hout
  have hc' : c * sessionChunk < new.length := lt_chunkCount.mp hc
  refine hold c hc (hout.resolve_right ?_)
  have hne : new.length ≠ 0 := by omega
  rw [sessionChunk] at hc'
  rw [if_pos hne, sessionChunk]
  omega

/-- An edit mends the widths made into the widths made for its children. -/
theorem mend (h : Made w old) (hcount : new.length < 2 ^ 32)
    (hchanges : Changes old new first last) : Made (w.mend new first last true true).2 new := by
  rcases hchanges with ⟨hlast, hlen, hsame⟩ | ⟨hlast, hsame⟩
  · exact h.mend_part hcount hlast hlen hsame true true
  · refine mend_whole hcount hlast fun c hc hle => ?_
    -- a chunk before the first child changed is full of children that stand as they did
    have hc' := lt_chunkCount.mp hc
    have hold : c * sessionChunk < old.length := by
      have heq := hsame (c * sessionChunk) (by rw [sessionChunk] at hle ⊢; omega)
      rw [List.getElem?_eq_getElem hc'] at heq
      by_contra hge
      rw [List.getElem?_eq_none (not_lt.mp hge)] at heq
      exact absurd heq (by simp)
    rw [h.chunks c (by rw [h.count_eq]; exact lt_chunkCount.mpr hold), chunkWidth, chunkWidth,
      chunkOf_congr]
    intro i hi hi'
    exact (hsame i (by omega)).symm

/-- Widths made from the first child on, whatever they were. -/
lemma make (w : Widths) (hnot : w.made = false) (hcount : new.length < 2 ^ 32) :
    Made (w.make new true true).2 new := by
  have hmade := @mend_whole w new 0 sizeMax hcount (by rw [sizeMax]; omega)
    (fun c hc hle => by rw [sessionChunk] at hle; omega)
  rw [Widths.make, hnot]
  exact ⟨hmade.count_eq, hmade.chunks, hmade.sums, hmade.zero⟩

/-- Widths made for the same children are the same. -/
theorem ext {w w' : Widths} {children : List Child} (h : Made w children)
    (h' : Made w' children) :
    w.count = w'.count ∧ (∀ c < w.count, w.chunks c = w'.chunks c) ∧
      ∀ i ≤ w.count, w.sums i = w'.sums i := by
  have hcount : w.count = w'.count := h.count_eq.trans h'.count_eq.symm
  have hchunks : ∀ c < w.count, w.chunks c = w'.chunks c := by
    intro c hc
    rw [h.chunks c hc, h'.chunks c (hcount ▸ hc)]
  refine ⟨hcount, hchunks, ?_⟩
  intro i hi
  rcases Nat.eq_zero_or_pos i with rfl | hpos
  · rw [h.zero, h'.zero]
  · rw [h.sums.congr hchunks i hpos hi, h'.sums i hpos (hcount ▸ hi)]

end Made

/-! ### The children's places -/

/-- A child's width. -/
def width (child : Child) : ℤ := child.lead + child.span

/-- The widths of the first `n` children. -/
def widthBefore (children : List Child) (n : ℕ) : ℤ := ((children.take n).map width).sum

/-- Children that lie one after another in a text whose places are counted in 32 bits. -/
structure InText (children : List Child) : Prop where
  nonneg : ∀ child ∈ children, 0 ≤ width child
  total : (children.map width).sum < 2 ^ 32

lemma widthBefore_succ {children : List Child} {n : ℕ} {child : Child}
    (h : children[n]? = some child) :
    widthBefore children (n + 1) = widthBefore children n + width child := by
  rw [widthBefore, widthBefore, List.take_add_one, h]
  simp

namespace InText

variable {children : List Child}

lemma widthBefore_mono (h : InText children) {i j : ℕ} (hij : i ≤ j) :
    widthBefore children i ≤ widthBefore children j := by
  obtain ⟨d, rfl⟩ := Nat.exists_eq_add_of_le hij
  rw [widthBefore, widthBefore, List.take_add, List.map_append, List.sum_append]
  have hnonneg : 0 ≤ (((children.drop i).take d).map width).sum := by
    apply List.sum_nonneg
    intro v hv
    obtain ⟨child, hchild, rfl⟩ := List.mem_map.mp hv
    exact h.nonneg child (List.mem_of_mem_drop (List.mem_of_mem_take hchild))
  omega

lemma widthBefore_lt (h : InText children) (n : ℕ) : widthBefore children n < 2 ^ 32 := by
  have hmono := h.widthBefore_mono (Nat.le_max_left n children.length)
  have hall : widthBefore children (max n children.length) = (children.map width).sum := by
    rw [widthBefore, List.take_of_length_le (Nat.le_max_right _ _)]
  have := h.total
  omega

lemma widthBefore_nonneg (h : InText children) (n : ℕ) : 0 ≤ widthBefore children n :=
  h.widthBefore_mono (Nat.zero_le n)

lemma childWidth_eq (h : InText children) {n : ℕ} {child : Child}
    (hchild : children[n]? = some child) : ((childWidth child).toNat : ℤ) = width child := by
  have hsucc := widthBefore_succ hchild
  have hlt := h.widthBefore_lt (n + 1)
  have hnonneg := h.widthBefore_nonneg n
  have hwidth := h.nonneg child (List.mem_of_getElem? hchild)
  have hbound : width child < 2 ^ 32 := by omega
  rw [childWidth, UInt32.ofInt, UInt32.toNat_ofNat']
  rw [width] at hbound hwidth ⊢
  omega

/-- Widths added in 32 bits, which hold the text's. -/
lemma toNat_add {a b : UInt32} (h : (a.toNat : ℤ) + b.toNat < 2 ^ 32) :
    ((a + b).toNat : ℤ) = a.toNat + b.toNat := by
  rw [UInt32.toNat_add, Nat.mod_eq_of_lt (by omega)]
  omega

/-- The widths of children that follow each other, summed in 32 bits. -/
lemma toNat_sum (h : InText children) (a d : ℕ) :
    (((((children.drop a).take d).map childWidth).sum).toNat : ℤ) =
      widthBefore children (a + d) - widthBefore children a := by
  induction d with
  | zero => simp
  | succ d ih =>
    rw [List.take_add_one, List.getElem?_drop, List.map_append, List.sum_append]
    cases hchild : children[a + d]? with
    | none =>
      have hle := List.getElem?_eq_none_iff.mp hchild
      have heq : widthBefore children (a + (d + 1)) = widthBefore children (a + d) := by
        rw [widthBefore, widthBefore, List.take_of_length_le (by omega),
          List.take_of_length_le hle]
      simpa [heq] using ih
    | some child =>
      have hsucc := widthBefore_succ hchild
      have hwidth := h.childWidth_eq hchild
      have hlt := h.widthBefore_lt (a + d + 1)
      have hnonneg := h.widthBefore_nonneg a
      have hone : ((some child).toList.map childWidth).sum = childWidth child := by simp
      rw [hone, toNat_add (by omega), ih, hwidth, ← Nat.add_assoc, hsucc]
      omega

end InText

namespace Made

variable {w : Widths} {children : List Child}

/-- A chunk holds the widths of its children. -/
lemma toNat_chunk (h : Made w children) (ht : InText children) {c : ℕ} (hc : c < w.count) :
    ((w.chunks c).toNat : ℤ) = widthBefore children ((c + 1) * sessionChunk) -
      widthBefore children (c * sessionChunk) := by
  rw [h.chunks c hc, chunkWidth, chunkOf_eq, ht.toNat_sum, Nat.succ_mul]

/-- The chunks before one hold the widths of the children before its own. -/
lemma before_chunks (h : Made w children) (ht : InText children) {c : ℕ} (hc : c ≤ w.count) :
    ((Fenwick.before w.chunks c).toNat : ℤ) = widthBefore children (c * sessionChunk) := by
  induction c with
  | zero => simp [Fenwick.before, widthBefore]
  | succ c ih =>
    have hlt := ht.widthBefore_lt ((c + 1) * sessionChunk)
    have hbefore := ih (by omega)
    have hchunk := h.toNat_chunk ht hc
    rw [Fenwick.before_succ, InText.toNat_add (by omega), hbefore, hchunk]
    omega

/-- A child starts at the base, past the children before it and its own lead. -/
theorem startAt_eq (h : Made w children) (hlt : children.length < 2 ^ 32) (ht : InText children)
    (base : ℤ) {i : ℕ} {child : Child} (hchild : children[i]? = some child) :
    w.startAt children base i = some (base + widthBefore children i + child.lead) := by
  have hi : i < children.length := (List.getElem?_eq_some_iff.mp hchild).choose
  have hmod := Nat.div_add_mod i sessionChunk
  have hmodlt := Nat.mod_lt i (by decide : 0 < sessionChunk)
  have hfirst : i / sessionChunk * sessionChunk ≤ i := Nat.div_mul_le_self _ _
  have hchunk : i / sessionChunk ≤ w.count := by
    have := lt_chunkCount.mpr (lt_of_le_of_lt hfirst hi)
    rw [h.count_eq]
    exact this.le
  have hdown : w.before (i / sessionChunk) = Fenwick.before w.chunks (i / sessionChunk) := by
    rw [Widths.before, h.sums.down (by rw [h.count_eq]; exact chunkCount_lt hlt) hchunk (le_refl _),
      zero_add]
  have hscan : ∀ (d : ℕ) (total : ℤ), i / sessionChunk * sessionChunk + d ≤ children.length →
      ((children.drop (i / sessionChunk * sessionChunk)).take d).foldl
        (fun total child => total + ((childWidth child).toNat : ℤ)) total =
      total + (widthBefore children (i / sessionChunk * sessionChunk + d) -
        widthBefore children (i / sessionChunk * sessionChunk)) := by
    intro d
    induction d with
    | zero => simp
    | succ d ih =>
      intro total hle
      have hlt' : i / sessionChunk * sessionChunk + d < children.length := by omega
      have hget := List.getElem?_eq_getElem hlt'
      rw [List.take_add_one, List.getElem?_drop, hget, List.foldl_append, ih _ (by omega),
        ← Nat.add_assoc, widthBefore_succ hget]
      simp only [Option.toList_some, List.foldl_cons, List.foldl_nil, ht.childWidth_eq hget]
      omega
  rw [Widths.startAt, hchild, hdown]
  simp only [Option.map_some]
  rw [hscan _ _ (by omega), h.before_chunks ht hchunk, Nat.add_sub_cancel' hfirst]
  congr 1
  omega

/-- The chunks' widths, as whole numbers. -/
lemma before_int (h : Made w children) (ht : InText children) {c : ℕ} (hc : c ≤ w.count) :
    Fenwick.before (fun c => ((w.chunks c).toNat : ℤ)) c =
      widthBefore children (c * sessionChunk) := by
  induction c with
  | zero => simp [Fenwick.before, widthBefore]
  | succ c ih =>
    rw [Fenwick.before_succ, ih (by omega), h.toNat_chunk ht hc]
    omega

/-- The tree's sums, as whole numbers. -/
lemma sums_int (h : Made w children) (ht : InText children) :
    Fenwick.Good w.count (fun i => ((w.sums i).toNat : ℤ))
      (fun c => ((w.chunks c).toNat : ℤ)) := by
  intro i hi hin
  have hlow := Fenwick.lowBit_le i
  rw [h.before_int ht hin, h.before_int ht (by omega), ← h.before_chunks ht hin,
    ← h.before_chunks ht (by omega : i - Fenwick.lowBit i ≤ w.count)]
  have hmono := ht.widthBefore_mono (Nat.mul_le_mul_right sessionChunk (Nat.sub_le i _ :
    i - Fenwick.lowBit i ≤ i))
  rw [← h.before_chunks ht hin,
    ← h.before_chunks ht (by omega : i - Fenwick.lowBit i ≤ w.count)] at hmono
  dsimp only
  rw [h.sums i hi hin, UInt32.toNat_sub_of_le _ _ (by simpa [UInt32.le_iff_toNat_le] using hmono)]
  omega

/-- Where a child ends. -/
def childEnd (children : List Child) (base : ℤ) (i : ℕ) : ℤ := base + widthBefore children (i + 1)

/-- The children passed from one on end at or before the offset, and the one come to past it. -/
lemma passed_spec (ht : InText children) {base : ℤ} {offset : ℕ} :
    ∀ {d child : ℕ}, child + d = children.length →
      child ≤ passed offset (children.drop child) child (base + widthBefore children child) ∧
        passed offset (children.drop child) child (base + widthBefore children child) ≤
          children.length ∧
        (∀ i, child ≤ i →
          i < passed offset (children.drop child) child (base + widthBefore children child) →
          childEnd children base i ≤ offset) ∧
        (passed offset (children.drop child) child (base + widthBefore children child) <
            children.length →
          (offset : ℤ) < childEnd children base
            (passed offset (children.drop child) child (base + widthBefore children child))) := by
  intro d
  induction d with
  | zero =>
    intro child hd
    rw [List.drop_of_length_le (by omega), passed]
    exact ⟨le_refl _, by omega, fun i h₁ h₂ => by omega, fun h => by omega⟩
  | succ d ih =>
    intro child hd
    have hlt : child < children.length := by omega
    have hget := List.getElem?_eq_getElem hlt
    have hsucc := widthBefore_succ hget
    rw [List.drop_eq_getElem_cons hlt, passed, ht.childWidth_eq hget]
    split
    next hle =>
      rw [add_assoc, ← hsucc]
      obtain ⟨h₁, h₂, h₃, h₄⟩ := @ih (child + 1) (by omega)
      refine ⟨by omega, h₂, ?_, h₄⟩
      intro i hi hi'
      rcases Nat.eq_or_lt_of_le hi with rfl | hgt
      · rw [childEnd, hsucc]
        omega
      · exact h₃ i hgt hi'
    next hgt =>
      refine ⟨le_refl _, hlt.le, fun i h₁ h₂ => by omega, ?_⟩
      intro _
      rw [childEnd, hsucc]
      omega

/-- The chunk an offset falls in: every child before it ends at or before the offset. -/
lemma found_spec (h : Made w children) (hlt : children.length < 2 ^ 32) (ht : InText children)
    (base : ℤ) (offset : ℕ) :
    ∃ c ≤ w.count, (if w.count = 0 then (0, base)
        else Fenwick.descend w.count (fun i => ((w.sums i).toNat : ℤ)) offset
          (Fenwick.topStep w.count w.count 1) (Fenwick.topStep w.count w.count 1) 0 base) =
        (c, base + widthBefore children (c * sessionChunk)) ∧
      (c = 0 ∨ base + widthBefore children (c * sessionChunk) ≤ offset) := by
  by_cases hzero : w.count = 0
  · refine ⟨0, Nat.zero_le _, ?_, .inl rfl⟩
    simp [hzero, widthBefore]
  rw [if_neg hzero]
  have hcount : w.count < 2 ^ 64 := by
    rw [h.count_eq]
    exact chunkCount_lt hlt
  obtain ⟨k, hstep, htop⟩ := @Fenwick.topStep_spec w.count w.count 0
    (by have := @Nat.lt_two_pow_self (w.count + 1); rw [Nat.zero_add]; omega)
  rw [pow_zero] at hstep
  rw [hstep]
  obtain ⟨c, hc, hfound, hwithin, -⟩ := @Fenwick.Good.descend _ _ _ (h.sums_int ht) hcount
    (fun c _ => Int.natCast_nonneg _) base offset (2 ^ k) k 0 Nat.lt_two_pow_self
    (Nat.zero_le _) (Nat.dvd_zero _) (.inl rfl) (fun i h₁ h₂ => by omega)
  rw [h.before_int ht hc] at hfound hwithin
  refine ⟨c, hc, ?_, hwithin⟩
  rw [← hfound]
  simp [Fenwick.before]

/-- The child before the first that ends past an offset, or the first. -/
theorem childAt_eq (h : Made w children) (hlt : children.length < 2 ^ 32) (ht : InText children)
    (base : ℤ) (offset : ℕ) :
    w.childAt children base offset =
      ((List.range children.length).findIdx fun i =>
        (offset : ℤ) < childEnd children base i) - 1 := by
  obtain ⟨c, hc, hfound, hwithin⟩ := h.found_spec hlt ht base offset
  rw [Widths.childAt, hfound]
  dsimp only
  -- the first child of the chunk found, or past the last
  obtain ⟨child, hchild, hle, hbefore, htotal⟩ : ∃ child,
      (if c < w.count then c * sessionChunk else children.length) = child ∧
        child ≤ children.length ∧ child ≤ c * sessionChunk ∧
        widthBefore children (c * sessionChunk) = widthBefore children child := by
    refine ⟨_, rfl, ?_⟩
    split
    next hlt' =>
      have := lt_chunkCount.mp (h.count_eq ▸ hlt')
      exact ⟨this.le, le_refl _, rfl⟩
    next hge =>
      have hpast : children.length ≤ c * sessionChunk := by
        by_contra hcon
        have := lt_chunkCount.mpr (not_le.mp hcon)
        rw [← h.count_eq] at this
        exact hge this
      refine ⟨le_refl _, hpast, ?_⟩
      rw [widthBefore, widthBefore, List.take_of_length_le hpast, List.take_length]
  rw [hchild, htotal]
  have hspec := @passed_spec children ht base offset (children.length - child) child (by omega)
  generalize passed offset (children.drop child) child (base + widthBefore children child) = r
    at hspec ⊢
  obtain ⟨h₁, h₂, h₃, h₄⟩ := hspec
  have hall : ∀ i < r, childEnd children base i ≤ offset := by
    intro i hi
    by_cases hin : child ≤ i
    · exact h₃ i hin hi
    · -- a child of a chunk before ends where its chunk does, or before
      have hmono := ht.widthBefore_mono (by omega : i + 1 ≤ c * sessionChunk)
      have hpos : c ≠ 0 := by
        rintro rfl
        omega
      have := hwithin.resolve_left hpos
      rw [childEnd]
      omega
  have hfind : ((List.range children.length).findIdx fun i =>
      (offset : ℤ) < childEnd children base i) = r := by
    rcases Nat.eq_or_lt_of_le h₂ with rfl | hlt'
    · have hnone : ∀ i ∈ List.range children.length,
          decide ((offset : ℤ) < childEnd children base i) = false := by
        intro i hi
        simpa using hall i (List.mem_range.mp hi)
      rw [List.findIdx_eq_length.mpr hnone, List.length_range]
    · rw [List.findIdx_eq (by simpa using hlt')]
      refine ⟨by simpa using h₄ hlt', fun j hj => ?_⟩
      simpa using hall j hj
  rw [hfind]
  split
  next => rfl
  next hzero => rw [not_not.mp hzero]

end Made

/-! ### Runs -/

/-- Widths as a session's edits leave them: made for the children there are, mended after each
edit, and made again after one that had no storage for them. -/
inductive Kept : Widths → Holder → Prop
  | make {w : Widths} (holder : Holder) (hnot : w.made = false) :
    Kept (w.make holder.children true true).2 holder
  | mend {w : Widths} {old : Holder} (h : Kept w old) (new : Holder) {first last : ℕ}
    (hchanges : Changes old.children new.children first last) :
    Kept (w.mend new.children first last true true).2 new

lemma Kept.made {w : Widths} {holder : Holder} (h : Kept w holder) : Made w holder.children := by
  induction h with
  | make holder hnot => exact Made.make _ hnot holder.count_lt
  | mend h new hchanges ih => exact ih.mend new.count_lt hchanges

/-- **Mended widths equal widths made anew, and their searches equal a scan of the children.**
After any edits, each of which replaces children, or changes those from one on, the chunks' widths
and the tree's sums are those made from nothing for the children there are. A child starts at the
base past the widths of all the children before it and its own lead, and the child an offset is
looked for from is the one before the first that ends past the offset, or the first. -/
theorem mended_widths {w : Widths} {holder : Holder} (h : Kept w holder) :
    (w.count = (Widths.zeroed.make holder.children true true).2.count ∧
      (∀ c < w.count,
        w.chunks c = (Widths.zeroed.make holder.children true true).2.chunks c) ∧
      ∀ i ≤ w.count, w.sums i = (Widths.zeroed.make holder.children true true).2.sums i) ∧
      (InText holder.children → ∀ base : ℤ,
        (∀ (i : ℕ) (child : Child), holder.children[i]? = some child →
          w.startAt holder.children base i =
            some (base + ((holder.children.take i).map width).sum + child.lead)) ∧
        ∀ offset : ℕ, w.childAt holder.children base offset =
          ((List.range holder.children.length).findIdx fun i =>
            (offset : ℤ) < base + ((holder.children.take (i + 1)).map width).sum) - 1) := by
  have hmade := h.made
  refine ⟨hmade.ext (Made.make _ rfl holder.count_lt), fun ht base => ⟨?_, ?_⟩⟩
  · intro i child hchild
    exact hmade.startAt_eq holder.count_lt ht base hchild
  · intro offset
    exact hmade.childAt_eq holder.count_lt ht base offset

/-- Two children, three bytes and then, a byte after them, four. -/
def twoChildren : Holder := ⟨[⟨0, 3, true⟩, ⟨1, 4, true⟩], by decide⟩

theorem mended_widths_two :
    ((Widths.zeroed.make twoChildren.children true true).2.mend twoChildren.children 1 1 true
      true).2.childAt twoChildren.children 0 5 = 0 :=
  (((mended_widths (Kept.mend (Kept.make twoChildren rfl) twoChildren
    (.inl ⟨by decide, rfl, fun _ _ => rfl⟩))).2 ⟨by decide, by decide⟩ 0).2 5).trans (by decide)

end MarkdownCore.Session
