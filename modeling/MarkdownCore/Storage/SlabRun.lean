import Mathlib.Data.List.Pairwise
import MarkdownCore.Storage.Slab

/-!
# Hold counts

After any calls each slab counts exactly what holds it, and is freed with its last hold
(`Pools.holds_of_run`). The invariant has three parts that the steps change apart: where slots were
cut (`Laid`), what the lists and the callers have of them (`Listing`), and what the allocator's
blocks count (`Account`).
-/

namespace MarkdownCore.Slab

/-! ### What the blocks count -/

/-- Each slab counts its holds, and one with none is freed. No block is freed twice. -/
structure Account (sizes : Sizes) (a : Allocator) (slabs : List ℕ) (count : ℕ → ℕ) : Prop where
  holds : ∀ slab ∈ slabs, 0 < count slab → a.blocks slab = some ⟨sizes.slabBytes, count slab⟩
  freed_iff : ∀ slab ∈ slabs, slab ∈ a.freed ↔ count slab = 0
  freed_none : ∀ block ∈ a.freed, a.blocks block = none
  freed_lt : ∀ block ∈ a.freed, block < a.fresh
  present_lt : ∀ block, a.blocks block ≠ none → block < a.fresh
  slab_lt : ∀ slab ∈ slabs, slab < a.fresh
  nodup : a.freed.Nodup

variable {sizes : Sizes} {a : Allocator} {slabs : List ℕ} {count : ℕ → ℕ}

lemma Account.congr (h : Account sizes a slabs count) {count' : ℕ → ℕ}
    (heq : ∀ slab ∈ slabs, count' slab = count slab) : Account sizes a slabs count' := by
  refine ⟨?_, ?_, h.freed_none, h.freed_lt, h.present_lt, h.slab_lt, h.nodup⟩
  · intro slab hslab hpos
    rw [heq slab hslab] at hpos ⊢
    exact h.holds slab hslab hpos
  · intro slab hslab
    rw [heq slab hslab]
    exact h.freed_iff slab hslab

lemma Account.not_freed (h : Account sizes a slabs count) {slab : ℕ} (hslab : slab ∈ slabs)
    (hpos : 0 < count slab) : slab ∉ a.freed := by
  rw [h.freed_iff slab hslab]
  exact hpos.ne'

/-- A slab's count written. -/
lemma Account.setHolds (h : Account sizes a slabs count) {slab n : ℕ} (hslab : slab ∈ slabs)
    (hpos : 0 < count slab) (hn : 0 < n) :
    ∃ a', a.setHolds slab n = some a' ∧ Account sizes a' slabs (Function.update count slab n) ∧
      a'.fresh = a.fresh ∧ ∀ b ≠ slab, a'.blocks b = a.blocks b := by
  have hfreed := h.not_freed hslab hpos
  refine ⟨{ a with blocks := Function.update a.blocks slab (some ⟨sizes.slabBytes, n⟩) }, ?_, ?_,
    rfl, fun b hb => Function.update_of_ne hb _ _⟩
  · rw [Allocator.setHolds, h.holds slab hslab hpos, Option.map_some]
  · refine ⟨?_, ?_, ?_, h.freed_lt, ?_, h.slab_lt, h.nodup⟩
    · intro b hb hcount
      dsimp only
      by_cases hne : b = slab
      · rw [hne, Function.update_self, Function.update_self]
      · rw [Function.update_of_ne hne] at hcount ⊢
        rw [Function.update_of_ne hne]
        exact h.holds b hb hcount
    · intro b hb
      dsimp only
      by_cases hne : b = slab
      · rw [hne, Function.update_self]
        exact iff_of_false hfreed hn.ne'
      · rw [Function.update_of_ne hne]
        exact h.freed_iff b hb
    · intro b hb
      have hne : b ≠ slab := fun heq => hfreed (heq ▸ hb)
      dsimp only
      rw [Function.update_of_ne hne]
      exact h.freed_none b hb
    · intro b hb
      by_cases hne : b = slab
      · exact hne ▸ h.slab_lt slab hslab
      · dsimp only at hb
        rw [Function.update_of_ne hne] at hb
        exact h.present_lt b hb

/-- A block freed, with no hold left on it when it is a slab. -/
lemma Account.free (h : Account sizes a slabs count) {block : ℕ}
    (hblock : a.blocks block ≠ none) :
    ∃ a', a.free block = some a' ∧ Account sizes a' slabs (Function.update count block 0) ∧
      a'.fresh = a.fresh ∧ ∀ b ≠ block, a'.blocks b = a.blocks b := by
  obtain ⟨held, hheld⟩ := Option.ne_none_iff_exists'.mp hblock
  have hfreed : block ∉ a.freed := fun hmem => hblock (h.freed_none block hmem)
  refine ⟨{ a with blocks := Function.update a.blocks block none, freed := block :: a.freed }, ?_, ?_,
    rfl, fun b hb => Function.update_of_ne hb _ _⟩
  · rw [Allocator.free, hheld, Option.map_some]
  · refine ⟨?_, ?_, ?_, ?_, ?_, h.slab_lt, List.nodup_cons.mpr ⟨hfreed, h.nodup⟩⟩
    · intro b hb hcount
      dsimp only
      by_cases hne : b = block
      · rw [hne, Function.update_self] at hcount
        exact absurd hcount (lt_irrefl 0)
      · rw [Function.update_of_ne hne] at hcount ⊢
        rw [Function.update_of_ne hne]
        exact h.holds b hb hcount
    · intro b hb
      dsimp only
      by_cases hne : b = block
      · rw [hne, Function.update_self]
        exact iff_of_true List.mem_cons_self rfl
      · rw [Function.update_of_ne hne, List.mem_cons, or_iff_right hne]
        exact h.freed_iff b hb
    · intro b hb
      dsimp only
      by_cases hne : b = block
      · rw [hne, Function.update_self]
      · rw [Function.update_of_ne hne]
        exact h.freed_none b ((List.mem_cons.mp hb).resolve_left hne)
    · intro b hb
      rcases List.mem_cons.mp hb with rfl | hb
      · exact h.present_lt b hblock
      · exact h.freed_lt b hb
    · intro b hb
      by_cases hne : b = block
      · exact hne ▸ h.present_lt block hblock
      · dsimp only at hb
        rw [Function.update_of_ne hne] at hb
        exact h.present_lt b hb

/-- Fresh storage from the allocator. -/
lemma Account.take (h : Account sizes a slabs count) {had : Bool} {bytes block : ℕ} {a' : Allocator}
    (htake : a.take had bytes = some (block, a')) :
    Account sizes a' slabs count ∧ block = a.fresh ∧ a'.fresh = a.fresh + 1 ∧
      a'.blocks block = some ⟨bytes, 0⟩ ∧ a'.freed = a.freed ∧
      ∀ b ≠ block, a'.blocks b = a.blocks b := by
  rw [Allocator.take] at htake
  split at htake
  · obtain ⟨rfl, rfl⟩ := Prod.mk.inj (Option.some.inj htake)
    refine ⟨⟨?_, h.freed_iff, ?_, ?_, ?_, ?_, h.nodup⟩, rfl, rfl, Function.update_self .., rfl,
      fun b hb => Function.update_of_ne hb _ _⟩
    · intro b hb hcount
      have hne : b ≠ a.fresh := (h.slab_lt b hb).ne
      dsimp only
      rw [Function.update_of_ne hne]
      exact h.holds b hb hcount
    · intro b hb
      have hne : b ≠ a.fresh := (h.freed_lt b hb).ne
      dsimp only
      rw [Function.update_of_ne hne]
      exact h.freed_none b hb
    · exact fun b hb => (h.freed_lt b hb).trans (Nat.lt_succ_self _)
    · intro b hb
      by_cases hne : b = a.fresh
      · exact hne ▸ Nat.lt_succ_self _
      · dsimp only at hb
        rw [Function.update_of_ne hne] at hb
        exact (h.present_lt b hb).trans (Nat.lt_succ_self _)
    · exact fun b hb => (h.slab_lt b hb).trans (Nat.lt_succ_self _)
  · cases htake

/-- A fresh block becomes a slab with one hold. -/
lemma Account.start (h : Account sizes a slabs count) {slab : ℕ}
    (hblock : a.blocks slab = some ⟨sizes.slabBytes, 0⟩) (hnew : slab ∉ slabs) :
    ∃ a', a.setHolds slab 1 = some a' ∧
      Account sizes a' (slab :: slabs) (Function.update count slab 1) ∧
      a'.fresh = a.fresh ∧ ∀ b ≠ slab, a'.blocks b = a.blocks b := by
  have hfreed : slab ∉ a.freed := by
    intro hmem
    rw [h.freed_none slab hmem] at hblock
    cases hblock
  have hlt : slab < a.fresh := h.present_lt slab (by rw [hblock]; exact Option.some_ne_none _)
  refine ⟨{ a with blocks := Function.update a.blocks slab (some ⟨sizes.slabBytes, 1⟩) }, ?_, ?_,
    rfl, fun b hb => Function.update_of_ne hb _ _⟩
  · rw [Allocator.setHolds, hblock, Option.map_some]
  · refine ⟨?_, ?_, ?_, h.freed_lt, ?_, ?_, h.nodup⟩
    · intro b hb hcount
      dsimp only
      by_cases hne : b = slab
      · rw [hne, Function.update_self, Function.update_self]
      · rw [Function.update_of_ne hne] at hcount ⊢
        rw [Function.update_of_ne hne]
        exact h.holds b ((List.mem_cons.mp hb).resolve_left hne) hcount
    · intro b hb
      dsimp only
      by_cases hne : b = slab
      · rw [hne, Function.update_self]
        exact iff_of_false hfreed Nat.one_ne_zero
      · rw [Function.update_of_ne hne]
        exact h.freed_iff b ((List.mem_cons.mp hb).resolve_left hne)
    · intro b hb
      have hne : b ≠ slab := fun heq => hfreed (heq ▸ hb)
      dsimp only
      rw [Function.update_of_ne hne]
      exact h.freed_none b hb
    · intro b hb
      by_cases hne : b = slab
      · exact hne ▸ hlt
      · dsimp only at hb
        rw [Function.update_of_ne hne] at hb
        exact h.present_lt b hb
    · intro b hb
      rcases List.mem_cons.mp hb with rfl | hb
      · exact hlt
      · exact h.slab_lt b hb

/-- A count with one hold more on a slab. -/
def oneMore (slab : Option ℕ) (count : ℕ → ℕ) (b : ℕ) : ℕ := count b + if slab = some b then 1 else 0

@[simp] lemma oneMore_self (slab : ℕ) : oneMore (some slab) count slab = count slab + 1 := by
  simp [oneMore]

lemma oneMore_of_ne {slab b : ℕ} (h : b ≠ slab) : oneMore (some slab) count b = count b := by
  simp [oneMore, Ne.symm h]

@[simp] lemma oneMore_none (b : ℕ) : oneMore none count b = count b := by simp [oneMore]

/-- A hold dropped: the slab counts one less, or is freed when it was the last. -/
theorem Account.drop {slab : Option ℕ} (h : Account sizes a slabs (oneMore slab count))
    (hslab : ∀ b, slab = some b → b ∈ slabs) :
    ∃ a', a.drop slab = some a' ∧ Account sizes a' slabs count ∧ a'.fresh = a.fresh ∧
      ∀ b ∉ slabs, a'.blocks b = a.blocks b := by
  cases slab with
  | none => exact ⟨a, rfl, h.congr fun b _ => (oneMore_none b).symm, rfl, fun _ _ => rfl⟩
  | some slab =>
    have hmem := hslab slab rfl
    have hblock := h.holds slab hmem (by simp)
    have hagree : ∀ n, count slab = n → ∀ b ∈ slabs,
        count b = Function.update (oneMore (some slab) count) slab n b := by
      intro n hn b _
      by_cases hne : b = slab
      · rw [hne, Function.update_self, hn]
      · rw [Function.update_of_ne hne, oneMore_of_ne hne]
    rw [oneMore_self] at hblock
    cases hcount : count slab with
    | zero =>
      -- The last hold: the slab is freed.
      obtain ⟨a', hfree, haccount, hfresh, hothers⟩ := h.free
        (show a.blocks slab ≠ none by rw [hblock]; exact Option.some_ne_none _)
      refine ⟨a', ?_, haccount.congr (hagree 0 hcount), hfresh, fun b hb => hothers b ?_⟩
      · simp only [Allocator.drop, hblock, Option.bind_some, hcount]
        exact hfree
      · exact fun heq => hb (heq ▸ hmem)
    | succ n =>
      obtain ⟨a', hset, haccount, hfresh, hothers⟩ :=
        h.setHolds hmem (by simp) (Nat.succ_pos n)
      refine ⟨a', ?_, haccount.congr (hagree (n + 1) hcount), hfresh, fun b hb => hothers b ?_⟩
      · simp only [Allocator.drop, hblock, Option.bind_some, hcount]
        exact hset
      · exact fun heq => hb (heq ▸ hmem)

/-! ### Where slots are cut -/

/-- Two slots, each behind its header, that share no byte. -/
def Slot.Apart (a b : Slot) : Prop :=
  a.place.block ≠ b.place.block ∨ a.place.offset + a.room + slotHeader ≤ b.place.offset ∨
    b.place.offset + b.room + slotHeader ≤ a.place.offset

lemma Slot.Apart.symm {a b : Slot} (h : a.Apart b) : b.Apart a :=
  h.imp Ne.symm Or.symm

instance : Std.Symm Slot.Apart := ⟨fun _ _ => Slot.Apart.symm⟩

lemma Slot.Apart.place_ne {a b : Slot} (h : a.Apart b) : a.place ≠ b.place := by
  intro heq
  simp only [Slot.Apart, heq, slotHeader] at h
  omega

/-- The storage a slot of a size class has; the pool's one size has class 0. -/
def roomOf (sizes : Sizes) (sizeClass : ℕ) : ℕ :=
  if sizeClass = 0 then sizes.bytes else sizeClass * classBytes

/-- Slots stand apart in their slabs, before where the next is cut, and one of its own alone in its
block. -/
structure Laid (sizes : Sizes) (fresh : ℕ) (c : Cutting) : Prop where
  current : ∀ slab, c.current = some slab →
    slab ∈ c.slabs ∧ c.cut ≤ sizes.slabBytes ∧ c.stop = sizes.slabBytes
  stopped : c.current = none → c.stop = 0
  lt : ∀ slot ∈ c.slots, slot.place.block < fresh
  own : ∀ slot ∈ c.slots, (c.header slot.place).slab = none →
    slot.place.block ∉ c.slabs ∧ slot.place.offset = slotHeader ∧
      ∀ other ∈ c.slots, other.place.block = slot.place.block → other = slot
  cut : ∀ slot ∈ c.slots, ∀ slab, (c.header slot.place).slab = some slab →
    slot.place.block = slab ∧ slab ∈ c.slabs ∧
      slot.place.offset + slot.room ≤ (if c.current = some slab then c.cut else sizes.slabBytes) ∧
      (c.header slot.place).sizeClass ≤ classes ∧
      slot.room = roomOf sizes (c.header slot.place).sizeClass
  apart : c.slots.Pairwise Slot.Apart

lemma Laid.fits {fresh : ℕ} {c : Cutting} (h : Laid sizes fresh c) {slot : Slot}
    (hslot : slot ∈ c.slots) {slab : ℕ} (hslab : (c.header slot.place).slab = some slab) :
    slot.place.offset + slot.room ≤ sizes.slabBytes := by
  obtain ⟨-, -, hle, -⟩ := h.cut slot hslot slab hslab
  split at hle
  next hcurrent => exact hle.trans (h.current slab hcurrent).2.1
  next => exact hle

/-! ### What lists and callers have -/

/-- Slots linked from a first one. -/
inductive Chain (link : Place → Option Place) : Option Place → List Place → Prop
  | nil : Chain link none []
  | cons {place : Place} {rest : List Place} (tail : Chain link (link place) rest) :
    Chain link (some place) (place :: rest)

lemma Chain.congr {link link' : Place → Option Place} {first : Option Place} {l : List Place}
    (h : Chain link first l) (heq : ∀ place ∈ l, link' place = link place) :
    Chain link' first l := by
  induction h with
  | nil => exact Chain.nil
  | @cons place rest tail ih =>
    apply Chain.cons
    rw [heq place List.mem_cons_self]
    exact ih fun p hp => heq p (List.mem_cons_of_mem _ hp)

lemma Chain.eq_cons {link : Place → Option Place} {place : Place} {l : List Place}
    (h : Chain link (some place) l) : ∃ rest, l = place :: rest ∧ Chain link (link place) rest := by
  cases h with
  | cons tail => exact ⟨_, rfl, tail⟩

/-- The slots of every list. -/
def flat (lists : ℕ → List Place) : List Place := (List.range (classes + 1)).flatMap lists

/-- A list's first slot before those left of the lists. -/
lemma flatMap_update_perm {f : ℕ → List Place} {i : ℕ} {place : Place} {rest : List Place}
    (h : f i = place :: rest) {indexes : List ℕ} (hnodup : indexes.Nodup) (hi : i ∈ indexes) :
    (indexes.flatMap f).Perm (place :: indexes.flatMap (Function.update f i rest)) := by
  induction indexes with
  | nil => cases hi
  | cons j indexes ih =>
    rw [List.flatMap_cons, List.flatMap_cons]
    obtain ⟨hj, hnodup⟩ := List.nodup_cons.mp hnodup
    by_cases hij : i = j
    · subst hij
      have hrest : indexes.flatMap (Function.update f i rest) = indexes.flatMap f :=
        List.flatMap_congr fun k hk =>
          Function.update_of_ne (show k ≠ i from fun heq => hj (heq ▸ hk)) _ _
      rw [h, Function.update_self, hrest]
      exact List.Perm.refl _
    · rw [Function.update_of_ne (Ne.symm hij)]
      refine ((ih hnodup ((List.mem_cons.mp hi).resolve_left hij)).append_left _).trans ?_
      exact List.perm_middle

lemma flat_update_perm {lists : ℕ → List Place} {i : ℕ} (hi : i ≤ classes) {place : Place}
    {rest : List Place} (h : lists i = place :: rest) :
    (flat lists).Perm (place :: flat (Function.update lists i rest)) :=
  flatMap_update_perm h List.nodup_range (List.mem_range.mpr (Nat.lt_succ_of_le hi))

lemma mem_flat {lists : ℕ → List Place} {place : Place} :
    place ∈ flat lists ↔ ∃ i ≤ classes, place ∈ lists i := by
  simp only [flat, List.mem_flatMap, List.mem_range, Nat.lt_succ_iff]

/-- A slot lent to a caller: of the pool's one size, or of the class of the bytes asked for. -/
structure Lent (sizes : Sizes) (c : Cutting) (storage : Storage) (slot : Slot) : Prop where
  place : slot.place = storage.place
  sized : storage.sized = true → ∃ bytes : BitVec 64, storage.asked = bytes.toNat ∧
    (c.header slot.place).sizeClass = Pools.sizeClass bytes ∧
    slot.room = Pools.sizeClass bytes * classBytes ∧
    ((c.header slot.place).slab ≠ none → Pools.sizeClass bytes ≠ 0)
  plain : storage.sized = false → storage.asked = sizes.bytes ∧ slot.room = sizes.bytes ∧
    (c.header slot.place).sizeClass = 0

/-- Every slot is with one caller or on one list, its class's, at most. -/
structure Listing (sizes : Sizes) (c : Cutting) (link : Place → Option Place)
    (released : ℕ → Option Place) (live : List Storage) (lists : ℕ → List Place) : Prop where
  chain : ∀ i ≤ classes, Chain link (released i) (lists i)
  nodup : (live.map (·.place) ++ flat lists).Nodup
  lent : ∀ storage ∈ live, ∃ slot ∈ c.slots, Lent sizes c storage slot
  kept : ∀ i ≤ classes, ∀ place ∈ lists i, (∃ slot ∈ c.slots, slot.place = place) ∧
    (c.header place).sizeClass = i ∧ (c.header place).slab ≠ none

/-- The holds of each slab. -/
def holdersOf (c : Cutting) (held : List Place) (slab : ℕ) : ℕ :=
  held.countP (fun p => (c.header p).slab = some slab) + if c.current = some slab then 1 else 0

/-- Storage of its own has its block. -/
def Owned (a : Allocator) (c : Cutting) (live : List Storage) : Prop :=
  ∀ storage ∈ live, (c.header storage.place).slab = none → ∃ block,
    a.blocks storage.place.block = some block ∧
      ∀ slot ∈ c.slots, slot.place = storage.place →
        block.bytes = (slotHeader + slot.room) % 2 ^ 64

structure Ok (sizes : Sizes) (s : Pools) (lists : ℕ → List Place) : Prop where
  laid : Laid sizes s.alloc.fresh s.cutting
  listing : Listing sizes s.cutting s.link s.released s.live lists
  account : Account sizes s.alloc s.cutting.slabs
    (holdersOf s.cutting (s.live.map (·.place) ++ flat lists))
  owned : Owned s.alloc s.cutting s.live

lemma holdersOf_perm {c : Cutting} {held held' : List Place} (h : held.Perm held') (slab : ℕ) :
    holdersOf c held slab = holdersOf c held' slab := by
  rw [holdersOf, holdersOf, h.countP_eq]

/-- A slot more is a hold more on the slab it came from. -/
lemma holdersOf_cons (c : Cutting) (place : Place) (held : List Place) (slab : ℕ) :
    holdersOf c (place :: held) slab =
      oneMore (c.header place).slab (holdersOf c held) slab := by
  simp only [holdersOf, oneMore, List.countP_cons, decide_eq_true_eq]
  omega

lemma holdersOf_congr (c c' : Cutting) {held : List Place}
    (hheader : ∀ p ∈ held, c'.header p = c.header p) (hcurrent : c'.current = c.current)
    (slab : ℕ) : holdersOf c' held slab = holdersOf c held slab := by
  have hcount : held.countP (fun p => decide ((c'.header p).slab = some slab)) =
      held.countP (fun p => decide ((c.header p).slab = some slab)) := by
    apply List.countP_congr
    intro p hp
    rw [hheader p hp]
  rw [holdersOf, holdersOf, hcount, hcurrent]

/-! ### Slots in use -/

section

variable {s : Pools} {lists : ℕ → List Place}

lemma Ok.slot_of (h : Ok sizes s lists) {p : Place}
    (hp : p ∈ s.live.map (·.place) ++ flat lists) : ∃ slot ∈ s.cutting.slots, slot.place = p := by
  rcases List.mem_append.mp hp with hp | hp
  · obtain ⟨storage, hstorage, rfl⟩ := List.mem_map.mp hp
    obtain ⟨slot, hslot, hlent⟩ := h.listing.lent storage hstorage
    exact ⟨slot, hslot, hlent.place⟩
  · obtain ⟨i, hi, hp⟩ := mem_flat.mp hp
    exact (h.listing.kept i hi p hp).1

/-- A slab that a slot in use came from counts it, and so is there. -/
lemma Ok.slab_of (h : Ok sizes s lists) {p : Place}
    (hp : p ∈ s.live.map (·.place) ++ flat lists) {slab : ℕ}
    (hslab : (s.cutting.header p).slab = some slab) :
    p.block = slab ∧ slab ∈ s.cutting.slabs ∧
      0 < holdersOf s.cutting (s.live.map (·.place) ++ flat lists) slab := by
  obtain ⟨slot, hslot, rfl⟩ := h.slot_of hp
  obtain ⟨hblock, hmem, -⟩ := h.laid.cut slot hslot slab hslab
  refine ⟨hblock, hmem, Nat.add_pos_left (List.countP_pos_iff.mpr ⟨_, hp, ?_⟩) _⟩
  exact decide_eq_true hslab

/-- The block of a slot in use is there. -/
lemma Ok.alive (h : Ok sizes s lists) {p : Place}
    (hp : p ∈ s.live.map (·.place) ++ flat lists) : s.alloc.blocks p.block ≠ none := by
  cases hslab : (s.cutting.header p).slab with
  | some slab =>
    obtain ⟨hblock, hmem, hpos⟩ := h.slab_of hp hslab
    rw [hblock, h.account.holds slab hmem hpos]
    exact Option.some_ne_none _
  | none =>
    rcases List.mem_append.mp hp with hlive | hlist
    · obtain ⟨storage, hstorage, rfl⟩ := List.mem_map.mp hlive
      obtain ⟨block, hblock, -⟩ := h.owned storage hstorage hslab
      rw [hblock]
      exact Option.some_ne_none _
    · obtain ⟨i, hi, hmem⟩ := mem_flat.mp hlist
      exact absurd hslab (h.listing.kept i hi p hmem).2.2

lemma Ok.headerAt (h : Ok sizes s lists) {p : Place}
    (hp : p ∈ s.live.map (·.place) ++ flat lists) :
    s.headerAt p = some (s.cutting.header p) := by
  obtain ⟨block, hblock⟩ := Option.ne_none_iff_exists'.mp (h.alive hp)
  rw [Pools.headerAt, hblock, Option.map_some]

lemma Ok.linkAt (h : Ok sizes s lists) {p : Place}
    (hp : p ∈ s.live.map (·.place) ++ flat lists) : s.linkAt p = some (s.link p) := by
  obtain ⟨block, hblock⟩ := Option.ne_none_iff_exists'.mp (h.alive hp)
  rw [Pools.linkAt, hblock, Option.map_some]

/-! ### Storage taken -/

/-- What a caller asks of a pool: the pool's one size, or bytes of a class. -/
structure Asks (sizes : Sizes) (sized : Bool) (asked list : ℕ) : Prop where
  le : list ≤ classes
  classed : sized = true → ∃ bytes : BitVec 64, asked = bytes.toNat ∧
    list = Pools.sizeClass bytes ∧ list ≠ 0
  plain : sized = false → asked = sizes.bytes ∧ list = 0

lemma Asks.lent {sized : Bool} {asked list : ℕ} (h : Asks sizes sized asked list) {c : Cutting}
    {slot : Slot} (hclass : (c.header slot.place).sizeClass = list)
    (hroom : slot.room = roomOf sizes list) : Lent sizes c ⟨slot.place, sized, asked⟩ slot := by
  constructor
  · rfl
  · intro hsized
    obtain ⟨bytes, hasked, hlist, hne⟩ := h.classed hsized
    rw [roomOf, if_neg hne, hlist] at hroom
    exact ⟨bytes, hasked, hclass.trans hlist, hroom, fun _ => hlist ▸ hne⟩
  · intro hplain
    obtain ⟨hasked, hlist⟩ := h.plain hplain
    rw [roomOf, if_pos hlist] at hroom
    exact ⟨hasked, hroom, hclass.trans hlist⟩

/-- A list's first slot goes to a caller. -/
lemma Ok.pop (h : Ok sizes s lists) {sized : Bool} {asked list : ℕ}
    (hasks : Asks sizes sized asked list) {place : Place} (hplace : s.released list = some place) :
    ∃ lists', Ok sizes
      { s with
        released := Function.update s.released list (s.link place)
        live := ⟨place, sized, asked⟩ :: s.live } lists' := by
  have hchain := h.listing.chain list hasks.le
  rw [hplace] at hchain
  obtain ⟨rest, hlist, hrest⟩ := hchain.eq_cons
  have hmem : place ∈ lists list := hlist ▸ List.mem_cons_self
  obtain ⟨⟨slot, hslot, rfl⟩, hclass, hslab⟩ := h.listing.kept list hasks.le _ hmem
  have hperm : ((slot.place :: s.live.map (·.place)) ++ flat (Function.update lists list rest)).Perm
      (s.live.map (·.place) ++ flat lists) :=
    ((List.perm_middle.symm.trans ((flat_update_perm hasks.le hlist).symm.append_left _)))
  obtain ⟨slab, hslab'⟩ := Option.ne_none_iff_exists'.mp hslab
  have hroom := (h.laid.cut slot hslot slab hslab').2.2.2.2
  refine ⟨Function.update lists list rest, h.laid, ?_, ?_, ?_⟩
  · constructor
    · intro i hi
      dsimp only
      by_cases hne : i = list
      · subst hne
        rwa [Function.update_self, Function.update_self]
      · rw [Function.update_of_ne hne, Function.update_of_ne hne]
        exact h.listing.chain i hi
    · exact hperm.nodup_iff.mpr h.listing.nodup
    · intro storage hstorage
      rcases List.mem_cons.mp hstorage with rfl | hstorage
      · exact ⟨slot, hslot, hasks.lent hclass (hclass ▸ hroom)⟩
      · exact h.listing.lent storage hstorage
    · intro i hi p hp
      by_cases hne : i = list
      · subst hne
        rw [Function.update_self] at hp
        exact h.listing.kept i hi p (hlist ▸ List.mem_cons_of_mem _ hp)
      · rw [Function.update_of_ne hne] at hp
        exact h.listing.kept i hi p hp
  · exact h.account.congr fun b _ => holdersOf_perm hperm b
  · intro storage hstorage hown
    rcases List.mem_cons.mp hstorage with rfl | hstorage
    · exact absurd hown hslab
    · exact h.owned storage hstorage hown

/-- A slot cut where no slot stands yet. -/
lemma Laid.cons {fresh : ℕ} {c : Cutting} (h : Laid sizes fresh c) {new : Slot} (c' : Cutting)
    (header : Header) (hnew : ∀ slot ∈ c.slots, Slot.Apart new slot)
    (hslots : c'.slots = new :: c.slots)
    (hheader : c'.header = Function.update c.header new.place header) :
    (∀ slot ∈ c.slots, c'.header slot.place = c.header slot.place) ∧
      c'.header new.place = header ∧ c'.slots.Pairwise Slot.Apart := by
  refine ⟨?_, ?_, ?_⟩
  · intro slot hslot
    rw [hheader, Function.update_of_ne (hnew slot hslot).place_ne.symm]
  · rw [hheader, Function.update_self]
  · rw [hslots]
    exact List.pairwise_cons.mpr ⟨hnew, h.apart⟩

/-- What callers and lists have when a slot is cut, and lent. -/
lemma Listing.cons {c c' : Cutting} {link : Place → Option Place} {released : ℕ → Option Place}
    {live : List Storage} (h : Listing sizes c link released live lists) {new : Slot}
    {storage : Storage} (hlent : Lent sizes c' storage new)
    (hnew : ∀ slot ∈ c.slots, slot.place ≠ new.place) (hslots : c'.slots = new :: c.slots)
    (hheader : ∀ slot ∈ c.slots, c'.header slot.place = c.header slot.place) :
    Listing sizes c' link released (storage :: live) lists := by
  have hslot : ∀ slot ∈ c.slots, slot ∈ c'.slots := fun slot hmem =>
    hslots ▸ List.mem_cons_of_mem _ hmem
  constructor
  · exact h.chain
  · refine List.nodup_cons.mpr ⟨?_, h.nodup⟩
    intro hmem
    have hmem : storage.place ∈ live.map (·.place) ++ flat lists := hmem
    rw [← hlent.place] at hmem
    rcases List.mem_append.mp hmem with hmem | hmem
    · obtain ⟨other, hother, heq⟩ := List.mem_map.mp hmem
      obtain ⟨slot, hslot', hlent'⟩ := h.lent other hother
      exact hnew slot hslot' (hlent'.place.trans heq)
    · obtain ⟨i, hi, hmem⟩ := mem_flat.mp hmem
      obtain ⟨⟨slot, hslot', heq⟩, -⟩ := h.kept i hi _ hmem
      exact hnew slot hslot' heq
  · intro other hother
    rcases List.mem_cons.mp hother with rfl | hother
    · exact ⟨new, hslots ▸ List.mem_cons_self, hlent⟩
    · obtain ⟨slot, hslot', hlent'⟩ := h.lent other hother
      refine ⟨slot, hslot slot hslot', hlent'.place, ?_, ?_⟩
      · rw [hheader slot hslot']
        exact hlent'.sized
      · rw [hheader slot hslot']
        exact hlent'.plain
  · intro i hi p hp
    obtain ⟨⟨slot, hslot', rfl⟩, hkept⟩ := h.kept i hi p hp
    rw [hheader slot hslot']
    exact ⟨⟨slot, hslot slot hslot', rfl⟩, hkept⟩

/-- A slot cut from the current slab, and lent. -/
lemma Ok.next (h : Ok sizes s lists) {sized : Bool} {asked list stride : ℕ}
    (hasks : Asks sizes sized asked list) (hstride : slotHeader + roomOf sizes list ≤ stride)
    {slab : ℕ} (hcurrent : s.cutting.current = some slab)
    (hroom : s.cutting.cut + stride ≤ sizes.slabBytes) :
    ∃ cut, s.next stride list (roomOf sizes list) = some cut ∧
      Ok sizes (Pools.lent sized asked (some cut.1, cut.2)) lists := by
  obtain ⟨hmem, -, -⟩ := h.laid.current slab hcurrent
  set held := s.live.map (·.place) ++ flat lists with hheld
  have hpos : 0 < holdersOf s.cutting held slab := by
    rw [holdersOf, if_pos hcurrent]
    exact Nat.succ_pos _
  have hblock := h.account.holds slab hmem hpos
  obtain ⟨alloc, hset, haccount, hfresh, hothers⟩ :=
    h.account.setHolds hmem hpos (Nat.succ_pos (holdersOf s.cutting held slab))
  set place : Place := ⟨slab, s.cutting.cut + slotHeader⟩ with hplace
  set new : Slot := ⟨place, roomOf sizes list⟩ with hnew
  set c' : Cutting := { s.cutting with
    cut := s.cutting.cut + stride
    header := Function.update s.cutting.header place ⟨some slab, list⟩
    slots := new :: s.cutting.slots } with hc'
  refine ⟨(place, { s with alloc, cutting := c' }), ?_, ?_⟩
  · rw [Pools.next, hcurrent, Option.bind_some, hblock, Option.bind_some,
      if_neg (not_lt.mpr hroom), hset]
    rfl
  show Ok sizes { s with alloc, cutting := c', live := ⟨place, sized, asked⟩ :: s.live } lists
  -- Every slot of the slab stands before where the new one is cut.
  have hapart : ∀ slot ∈ s.cutting.slots, new.Apart slot := by
    intro slot hslot
    by_cases hsame : slot.place.block = slab
    · cases hslab : (s.cutting.header slot.place).slab with
      | none => exact absurd (hsame ▸ hmem) (h.laid.own slot hslot hslab).1
      | some other =>
        obtain ⟨hother, -, hle, -⟩ := h.laid.cut slot hslot other hslab
        rw [← hother, hsame, if_pos hcurrent] at hle
        refine Or.inr (Or.inr ?_)
        exact Nat.add_le_add_right hle slotHeader
    · exact Or.inl (Ne.symm hsame)
  obtain ⟨hheader, hnewheader, hpairwise⟩ :=
    h.laid.cons c' ⟨some slab, list⟩ hapart rfl rfl
  have hfit : s.cutting.cut + slotHeader + roomOf sizes list ≤ s.cutting.cut + stride := by omega
  refine ⟨?_, ?_, ?_, ?_⟩
  · constructor
    · intro other hother
      obtain ⟨hslabs, -, hstop⟩ := h.laid.current other hother
      exact ⟨hslabs, hroom, hstop⟩
    · intro hnone
      rw [hc'] at hnone
      exact absurd (hnone.symm.trans hcurrent) (Option.some_ne_none _).symm
    · intro slot hslot
      rw [hfresh]
      rcases List.mem_cons.mp hslot with rfl | hslot
      · exact h.account.slab_lt slab hmem
      · exact h.laid.lt slot hslot
    · intro slot hslot hown
      rcases List.mem_cons.mp hslot with rfl | hslot
      · rw [hnewheader] at hown
        cases hown
      · rw [hheader slot hslot] at hown
        obtain ⟨hslabs, hoffset, halone⟩ := h.laid.own slot hslot hown
        refine ⟨hslabs, hoffset, fun other hother heq => ?_⟩
        rcases List.mem_cons.mp hother with rfl | hother
        · exact absurd (heq ▸ hmem) hslabs
        · exact halone other hother heq
    · intro slot hslot other hother
      rcases List.mem_cons.mp hslot with rfl | hslot
      · rw [hnewheader] at hother ⊢
        cases hother
        exact ⟨rfl, hmem, (if_pos hcurrent).symm ▸ hfit, hasks.le, rfl⟩
      · rw [hheader slot hslot] at hother ⊢
        obtain ⟨hblock', hslabs, hle, hclass⟩ := h.laid.cut slot hslot other hother
        refine ⟨hblock', hslabs, hle.trans ?_, hclass⟩
        simp only [hc']
        split
        · exact Nat.le_add_right _ _
        · exact le_rfl
    · exact hpairwise
  · exact h.listing.cons (hasks.lent (by rw [hnewheader]) rfl)
      (fun slot hslot => (hapart slot hslot).place_ne.symm) rfl hheader
  · refine haccount.congr fun b _ => ?_
    have hcons := holdersOf_cons c' place held b
    have hcongr : ∀ b, holdersOf c' held b = holdersOf s.cutting held b := by
      refine holdersOf_congr s.cutting c' (fun p hp => ?_) rfl
      obtain ⟨slot, hslot, rfl⟩ := h.slot_of hp
      exact hheader slot hslot
    refine hcons.trans ?_
    rw [hnewheader]
    by_cases hne : b = slab
    · rw [hne, oneMore_self, Function.update_self, hcongr]
    · rw [oneMore_of_ne hne, Function.update_of_ne hne, hcongr]
  · intro storage hstorage hown
    rcases List.mem_cons.mp hstorage with rfl | hstorage
    · rw [hnewheader] at hown
      cases hown
    · obtain ⟨slot, hslot, hlent⟩ := h.listing.lent storage hstorage
      rw [← hlent.place, hheader slot hslot, hlent.place] at hown
      obtain ⟨block, hblock', hbytes⟩ := h.owned storage hstorage hown
      have hne : storage.place.block ≠ slab := by
        intro heq
        rw [← hlent.place] at heq hown
        exact (h.laid.own slot hslot hown).1 (heq ▸ hmem)
      refine ⟨block, (hothers _ hne).trans hblock', fun other hother heq => ?_⟩
      rcases List.mem_cons.mp hother with rfl | hother
      · exact absurd (congrArg Place.block heq).symm hne
      · exact hbytes other hother heq

/-- A slab started, and the pool's hold on the one before dropped. -/
lemma Ok.grow (h : Ok sizes s lists) (had : Bool) :
    s.grow sizes had = some (false, s) ∨ ∃ s' slab, s.grow sizes had = some (true, s') ∧
      Ok sizes s' lists ∧ s'.cutting.current = some slab ∧ s'.cutting.cut = slabHead := by
  rw [Pools.grow]
  cases htake : s.alloc.take had sizes.slabBytes with
  | none => exact Or.inl rfl
  | some taken =>
    obtain ⟨slab, a₁⟩ := taken
    obtain ⟨haccount₁, rfl, hfresh₁, hblock, -, hothers₁⟩ := h.account.take htake
    have hnew : s.alloc.fresh ∉ s.cutting.slabs := fun hmem =>
      lt_irrefl _ (h.account.slab_lt _ hmem)
    obtain ⟨a₂, hset, haccount₂, hfresh₂, hothers₂⟩ := haccount₁.start hblock hnew
    set slab := s.alloc.fresh with hslab
    set c' : Cutting := { s.cutting with
      slabs := slab :: s.cutting.slabs, current := some slab, cut := slabHead,
      stop := sizes.slabBytes } with hc'
    set held := s.live.map (·.place) ++ flat lists with hheld
    -- The new slab has the pool's hold alone; the one before has it still.
    have hcount : Account sizes a₂ c'.slabs (oneMore s.cutting.current (holdersOf c' held)) := by
      refine haccount₂.congr fun b hb => ?_
      by_cases hne : b = slab
      · have hcurrent : s.cutting.current ≠ some slab := fun heq =>
          hnew (h.laid.current slab heq).1
        have hnone : held.countP (fun p => decide ((s.cutting.header p).slab = some slab)) = 0 := by
          rw [List.countP_eq_zero]
          intro p hp hheader
          exact hnew (h.slab_of hp (of_decide_eq_true hheader)).2.1
        rw [hne, Function.update_self, oneMore, if_neg hcurrent, holdersOf, if_pos rfl]
        simpa [hc'] using hnone
      · rw [Function.update_of_ne hne, oneMore, holdersOf, holdersOf]
        have hcurrent : c'.current ≠ some b := fun heq => hne (Option.some.inj heq).symm
        rw [if_neg hcurrent, Nat.add_zero]
    obtain ⟨a₃, hdrop, haccount₃, hfresh₃, hothers₃⟩ := hcount.drop fun b hb =>
      List.mem_cons_of_mem _ (h.laid.current b hb).1
    have hfresh : a₃.fresh = s.alloc.fresh + 1 := hfresh₃.trans (hfresh₂.trans hfresh₁)
    refine Or.inr ⟨{ s with alloc := a₃, cutting := c' }, slab, ?_, ⟨?_, ?_, haccount₃, ?_⟩, rfl, rfl⟩
    · simp only
      rw [hset, Option.bind_some, hdrop]
      rfl
    · constructor
      · intro b hb
        cases hb
        refine ⟨List.mem_cons_self, ?_, rfl⟩
        exact (Nat.le_add_right _ _).trans sizes.slot_fits
      · rintro ⟨⟩
      · intro slot hslot
        rw [hfresh]
        exact (h.laid.lt slot hslot).trans (Nat.lt_succ_self _)
      · intro slot hslot hown
        obtain ⟨hslabs, hoffset, halone⟩ := h.laid.own slot hslot hown
        refine ⟨?_, hoffset, halone⟩
        intro hmem
        rcases List.mem_cons.mp hmem with heq | hmem
        · exact (h.laid.lt slot hslot).ne heq
        · exact hslabs hmem
      · intro slot hslot b hb
        obtain ⟨hblock', hslabs, -, hclass⟩ := h.laid.cut slot hslot b hb
        have hne : c'.current ≠ some b := fun heq => hnew ((Option.some.inj heq).symm ▸ hslabs)
        refine ⟨hblock', List.mem_cons_of_mem _ hslabs, ?_, hclass⟩
        rw [if_neg hne]
        exact h.laid.fits hslot hb
      · exact h.laid.apart
    · exact ⟨h.listing.chain, h.listing.nodup,
        fun storage hstorage =>
          let ⟨slot, hslot, hlent⟩ := h.listing.lent storage hstorage
          ⟨slot, hslot, hlent.place, hlent.sized, hlent.plain⟩,
        h.listing.kept⟩
    · intro storage hstorage hown
      obtain ⟨block, hblock', hbytes⟩ := h.owned storage hstorage hown
      obtain ⟨slot, hslot, hlent⟩ := h.listing.lent storage hstorage
      rw [← hlent.place] at hown hblock'
      have hslabs := (h.laid.own slot hslot hown).1
      have hne : slot.place.block ≠ slab := (h.laid.lt slot hslot).ne
      refine ⟨block, ?_, hbytes⟩
      rw [← hlent.place]
      refine (hothers₃ _ fun hmem => ?_).trans
        ((hothers₂ _ hne).trans ((hothers₁ _ hne).trans hblock'))
      exact hslabs ((List.mem_cons.mp hmem).resolve_left hne)

/-- A slot of its own, lent. -/
lemma Ok.own (h : Ok sizes s lists) (had : Bool) {bytes sizeClass : ℕ} {sized : Bool} {asked : ℕ}
    (hlent : ∀ (c : Cutting) (slot : Slot), c.header slot.place = ⟨none, sizeClass⟩ →
      slot.room = bytes → Lent sizes c ⟨slot.place, sized, asked⟩ slot) :
    Ok sizes (Pools.lent sized asked (s.own had bytes sizeClass)) lists := by
  rw [Pools.own]
  cases htake : s.alloc.take had ((slotHeader + bytes) % 2 ^ 64) with
  | none => exact h
  | some taken =>
    obtain ⟨block, a'⟩ := taken
    obtain ⟨haccount, rfl, hfresh, hblock, -, hothers⟩ := h.account.take htake
    set place : Place := ⟨s.alloc.fresh, slotHeader⟩ with hplace
    set new : Slot := ⟨place, bytes⟩ with hnew
    set c' : Cutting := { s.cutting with
      header := Function.update s.cutting.header place ⟨none, sizeClass⟩
      slots := new :: s.cutting.slots } with hc'
    have hother : ∀ slot ∈ s.cutting.slots, slot.place.block ≠ s.alloc.fresh := fun slot hslot =>
      (h.laid.lt slot hslot).ne
    have hapart : ∀ slot ∈ s.cutting.slots, new.Apart slot := fun slot hslot =>
      Or.inl (hother slot hslot).symm
    obtain ⟨hheader, hnewheader, hpairwise⟩ := h.laid.cons c' ⟨none, sizeClass⟩ hapart rfl rfl
    have hnewslab : s.alloc.fresh ∉ s.cutting.slabs := fun hmem =>
      lt_irrefl _ (h.account.slab_lt _ hmem)
    refine ⟨?_, ?_, ?_, ?_⟩
    · constructor
      · exact h.laid.current
      · exact h.laid.stopped
      · intro slot hslot
        show slot.place.block < a'.fresh
        rw [hfresh]
        rcases List.mem_cons.mp hslot with rfl | hslot
        · exact Nat.lt_succ_self _
        · exact (h.laid.lt slot hslot).trans (Nat.lt_succ_self _)
      · intro slot hslot hown
        rcases List.mem_cons.mp hslot with rfl | hslot
        · refine ⟨hnewslab, rfl, fun other hother' heq => ?_⟩
          rcases List.mem_cons.mp hother' with rfl | hother'
          · rfl
          · exact absurd heq (hother other hother')
        · have hown : (c'.header slot.place).slab = none := hown
          rw [hheader slot hslot] at hown
          obtain ⟨hslabs, hoffset, halone⟩ := h.laid.own slot hslot hown
          refine ⟨hslabs, hoffset, fun other hother' heq => ?_⟩
          rcases List.mem_cons.mp hother' with rfl | hother'
          · exact absurd heq.symm (hother slot hslot)
          · exact halone other hother' heq
      · intro slot hslot slab hslab
        have hslab : (c'.header slot.place).slab = some slab := hslab
        rcases List.mem_cons.mp hslot with rfl | hslot
        · rw [hnewheader] at hslab
          cases hslab
        · rw [hheader slot hslot] at hslab
          show slot.place.block = slab ∧ slab ∈ s.cutting.slabs ∧ _ ≤ _ ∧
            (c'.header slot.place).sizeClass ≤ classes ∧
              slot.room = roomOf sizes (c'.header slot.place).sizeClass
          rw [hheader slot hslot]
          exact h.laid.cut slot hslot slab hslab
      · exact hpairwise
    · exact h.listing.cons (hlent c' new hnewheader rfl)
        (fun slot hslot => (hapart slot hslot).place_ne.symm) rfl hheader
    · refine haccount.congr fun b _ => ?_
      refine (holdersOf_cons c' place (s.live.map (·.place) ++ flat lists) b).trans ?_
      rw [hnewheader, oneMore_none]
      refine holdersOf_congr s.cutting c' (fun p hp => ?_) rfl b
      obtain ⟨slot, hslot, rfl⟩ := h.slot_of hp
      exact hheader slot hslot
    · intro storage hstorage hown
      have hown : (c'.header storage.place).slab = none := hown
      rcases List.mem_cons.mp hstorage with rfl | hstorage
      · refine ⟨_, hblock, fun slot hslot heq => ?_⟩
        rcases List.mem_cons.mp hslot with rfl | hslot
        · rfl
        · exact absurd (congrArg Place.block heq) (hother slot hslot)
      · obtain ⟨slot, hslot, hlent'⟩ := h.listing.lent storage hstorage
        rw [← hlent'.place, hheader slot hslot, hlent'.place] at hown
        obtain ⟨block, hblock', hbytes⟩ := h.owned storage hstorage hown
        have hne : storage.place.block ≠ s.alloc.fresh := hlent'.place ▸ hother slot hslot
        refine ⟨block, (hothers _ hne).trans hblock', fun other hother' heq => ?_⟩
        rcases List.mem_cons.mp hother' with rfl | hother'
        · exact absurd (congrArg Place.block heq).symm hne
        · exact hbytes other hother' heq

/-- Storage a pool gives is of a list's or cut, and lent. -/
lemma Ok.pooled (h : Ok sizes s lists) (had : Bool) {sized : Bool} {asked list stride : ℕ}
    (hasks : Asks sizes sized asked list) (hstride : slotHeader + roomOf sizes list ≤ stride)
    (hfits : slabHead + stride ≤ sizes.slabBytes) :
    ∃ taken, s.pooled sizes had list stride (roomOf sizes list) = some taken ∧
      ∃ lists', Ok sizes (Pools.lent sized asked taken) lists' := by
  rw [Pools.pooled]
  cases hlist : s.released list with
  | some place =>
    have hchain := h.listing.chain list hasks.le
    rw [hlist] at hchain
    obtain ⟨rest, hrest, -⟩ := hchain.eq_cons
    have hmem : place ∈ s.live.map (·.place) ++ flat lists :=
      List.mem_append_right _ (mem_flat.mpr ⟨list, hasks.le, hrest ▸ List.mem_cons_self⟩)
    refine ⟨(some place, { s with
      released := Function.update s.released list (s.link place) }), ?_, h.pop hasks hlist⟩
    simp only [h.linkAt hmem, Option.map_some]
  | none =>
    simp only
    by_cases hroom : s.room stride = true
    · rw [if_pos hroom, Option.bind_some, if_pos rfl]
      -- A pool with no slab has no room.
      have hle : stride ≤ s.cutting.stop - s.cutting.cut := by simpa [Pools.room] using hroom
      cases hcurrent : s.cutting.current with
      | none =>
        rw [h.laid.stopped hcurrent] at hle
        simp only [slotHeader] at hstride
        omega
      | some slab =>
        obtain ⟨-, hcut, hstop⟩ := h.laid.current slab hcurrent
        obtain ⟨cut, hnext, hok⟩ := h.next hasks hstride hcurrent (by omega)
        exact ⟨(some cut.1, cut.2), by rw [hnext, Option.map_some], lists, hok⟩
    · rw [if_neg hroom]
      rcases h.grow had with hgrow | ⟨s', slab, hgrow, hok, hcurrent, hcut⟩
      · exact ⟨(none, s), by rw [hgrow]; rfl, lists, h⟩
      · obtain ⟨cut, hnext, hok'⟩ := hok.next hasks hstride hcurrent (by omega)
        refine ⟨(some cut.1, cut.2), ?_, lists, hok'⟩
        rw [hgrow, Option.bind_some, if_pos rfl, hnext, Option.map_some]

lemma roomOf_zero : roomOf sizes 0 = sizes.bytes := if_pos rfl

/-- A slot taken. -/
lemma Ok.slabTake (h : Ok sizes s lists) (pool had : Bool) :
    ∃ taken, s.slabTake sizes pool had = some taken ∧
      ∃ lists', Ok sizes (Pools.lent false sizes.bytes taken) lists' := by
  rw [Pools.slabTake]
  by_cases hpool : pool = false
  · rw [if_pos hpool]
    refine ⟨_, rfl, lists, h.own had fun c slot hheader hroom => ⟨rfl, by simp, fun _ => ?_⟩⟩
    exact ⟨rfl, hroom, by rw [hheader]⟩
  · rw [if_neg hpool, ← roomOf_zero]
    refine h.pooled had ⟨Nat.zero_le _, by simp, fun _ => ⟨roomOf_zero, rfl⟩⟩ ?_ ?_
    · rw [roomOf_zero, slotStride, slotHeader]
      omega
    · rw [roomOf_zero]
      exact sizes.slot_fits

/-- Storage of a varied size taken. -/
lemma Ok.bytesTake (h : Ok sizes s lists) (pool had : Bool) (bytes : BitVec 64) :
    ∃ taken, s.bytesTake sizes pool had bytes = some taken ∧
      ∃ lists', Ok sizes (Pools.lent true bytes.toNat taken) lists' := by
  rw [Pools.bytesTake]
  by_cases hown : pool = false ∨ Pools.sizeClass bytes = 0 ∨ classes < Pools.sizeClass bytes
  · rw [if_pos hown, Pools.bytesOwn]
    refine ⟨_, rfl, lists, h.own had fun c slot hheader hroom => ⟨rfl, fun _ => ?_, by simp⟩⟩
    exact ⟨bytes, rfl, by rw [hheader], hroom, by rw [hheader]; simp⟩
  · rw [if_neg hown]
    obtain ⟨-, hne, hle⟩ : pool ≠ false ∧ Pools.sizeClass bytes ≠ 0 ∧
        Pools.sizeClass bytes ≤ classes := by
      simpa only [not_or, not_lt] using hown
    have hroom : roomOf sizes (Pools.sizeClass bytes) = Pools.sizeClass bytes * classBytes :=
      if_neg hne
    rw [← hroom]
    refine h.pooled had ⟨hle, fun _ => ⟨bytes, rfl, rfl, hne⟩, by simp⟩ le_rfl ?_
    rw [hroom]
    have hfits := sizes.class_fits
    have hmul : Pools.sizeClass bytes * classBytes ≤ classes * classBytes :=
      Nat.mul_le_mul_right _ hle
    omega

/-! ### Storage given back -/

/-- A caller's storage taken out of what callers have. -/
lemma erase_of_find {live : List Storage} {p : Place} {storage : Storage}
    (h : live.find? (·.place = p) = some storage) :
    storage.place = p ∧ storage ∈ live ∧
      live.Perm (storage :: live.eraseP (·.place = p)) := by
  obtain ⟨hplace, before, after, hlive, hbefore⟩ := List.find?_eq_some_iff_append.mp h
  have hplace : storage.place = p := of_decide_eq_true hplace
  have hbefore : ∀ x ∈ before, ¬ (decide (x.place = p)) = true := by
    intro x hx
    simpa using hbefore x hx
  refine ⟨hplace, List.mem_of_find?_eq_some h, ?_⟩
  rw [hlive, List.eraseP_append_right _ hbefore, List.eraseP_cons_of_pos (by simp [hplace])]
  exact List.perm_middle

lemma Ok.owned_of (h : Ok sizes s lists) {a : Allocator} {live : List Storage}
    (hlive : ∀ storage ∈ live, storage ∈ s.live)
    (hblocks : ∀ storage ∈ live, (s.cutting.header storage.place).slab = none →
      storage.place.block ∉ s.cutting.slabs →
        a.blocks storage.place.block = s.alloc.blocks storage.place.block) :
    Owned a s.cutting live := by
  intro storage hstorage hown
  obtain ⟨block, hblock, hbytes⟩ := h.owned storage (hlive storage hstorage) hown
  obtain ⟨slot, hslot, hlent⟩ := h.listing.lent storage (hlive storage hstorage)
  have hslabs : storage.place.block ∉ s.cutting.slabs := by
    rw [← hlent.place] at hown ⊢
    exact (h.laid.own slot hslot hown).1
  exact ⟨block, (hblocks storage hstorage hown hslabs).trans hblock, hbytes⟩

/-- The hold of a slot that is in use no more, dropped. -/
lemma Ok.drop (h : Ok sizes s lists) {p : Place} {held : List Place} {slab : ℕ}
    (hperm : (s.live.map (·.place) ++ flat lists).Perm (p :: held))
    (hslab : (s.cutting.header p).slab = some slab) :
    ∃ alloc, s.alloc.drop (some slab) = some alloc ∧
      Account sizes alloc s.cutting.slabs (holdersOf s.cutting held) ∧
      alloc.fresh = s.alloc.fresh ∧
      ∀ b ∉ s.cutting.slabs, alloc.blocks b = s.alloc.blocks b := by
  have hmem := (h.slab_of (hperm.mem_iff.mpr List.mem_cons_self) hslab).2.1
  have haccount := h.account.congr fun b _ => (holdersOf_perm hperm b).symm
  have hmore : Account sizes s.alloc s.cutting.slabs
      (oneMore (some slab) (holdersOf s.cutting held)) := by
    refine haccount.congr fun b _ => ?_
    rw [holdersOf_cons, hslab]
  refine hmore.drop ?_
  rintro b ⟨⟩
  exact hmem

/-- Storage given back goes to its list, or drops its hold, or is freed. -/
lemma Ok.release (h : Ok sizes s lists) (pool : Bool) {p : Place} {storage : Storage}
    (hfind : s.live.find? (·.place = p) = some storage) :
    ∃ s', s.release pool (if storage.sized then (s.cutting.header p).sizeClass else 0) p = some s' ∧
      ∃ lists', Ok sizes { s' with live := s'.live.eraseP (·.place = p) } lists' := by
  obtain ⟨rfl, hstorage, hlive⟩ := erase_of_find hfind
  set p := storage.place with hp
  set live := s.live.eraseP (·.place = p) with hrest
  have hsub : ∀ other ∈ live, other ∈ s.live := fun other hother =>
    hlive.mem_iff.mpr (List.mem_cons_of_mem _ hother)
  have hheld : (s.live.map (·.place) ++ flat lists).Perm (p :: (live.map (·.place) ++ flat lists)) :=
    (hlive.map _).append_right _
  have hmem : p ∈ s.live.map (·.place) ++ flat lists := hheld.mem_iff.mpr List.mem_cons_self
  have hnodup := hheld.nodup_iff.mp h.listing.nodup
  obtain ⟨hnew, hnodup'⟩ := List.nodup_cons.mp hnodup
  obtain ⟨slot, hslot, hlent⟩ := h.listing.lent storage hstorage
  have hlist : (if storage.sized then (s.cutting.header p).sizeClass else 0) =
      (s.cutting.header p).sizeClass := by
    split
    · rfl
    next hplain =>
      rw [← hlent.place] at hp
      rw [hp]
      exact ((hlent.plain (by simpa using hplain)).2.2).symm
  rw [hlist, Pools.release, h.headerAt hmem, Option.bind_some]
  cases hslab : (s.cutting.header p).slab with
  | none =>
    -- The slot is alone in its block.
    simp only
    have hown : (s.cutting.header slot.place).slab = none := by rw [hlent.place]; exact hslab
    obtain ⟨hslabs, hoffset, halone⟩ := h.laid.own slot hslot hown
    rw [hlent.place] at hslabs hoffset halone
    obtain ⟨alloc, hfree, haccount, hfresh, hothers⟩ := h.account.free (h.alive hmem)
    refine ⟨{ s with alloc }, ?_, lists, ?_, ?_, ?_, ?_⟩
    · rw [if_pos hoffset, hfree]
      rfl
    · exact hfresh ▸ h.laid
    · exact ⟨h.listing.chain, hnodup', fun other hother => h.listing.lent other (hsub other hother),
        h.listing.kept⟩
    · refine haccount.congr fun b hb => ?_
      have hne : b ≠ p.block := fun heq => hslabs (heq ▸ hb)
      rw [Function.update_of_ne hne, holdersOf_perm hheld, holdersOf_cons, hslab, oneMore_none]
    · refine h.owned_of hsub fun other hother hown' _ => hothers _ fun heq => ?_
      obtain ⟨slot', hslot', hlent'⟩ := h.listing.lent other (hsub other hother)
      have hsame := halone slot' hslot' (by rw [hlent'.place, heq])
      refine hnew (List.mem_append_left _ (List.mem_map.mpr ⟨other, hother, ?_⟩))
      rw [← hlent'.place, hsame, hlent.place]
  | some slab =>
    simp only
    have hclass : (s.cutting.header p).sizeClass ≤ classes := by
      rw [hp, ← hlent.place] at hslab ⊢
      exact (h.laid.cut slot hslot slab hslab).2.2.2.1
    set i := (s.cutting.header p).sizeClass with hi
    by_cases hpool : pool = true
    · -- The slot becomes the first of its list.
      rw [if_pos hpool]
      have hflat : (flat (Function.update lists i (p :: lists i))).Perm (p :: flat lists) := by
        have hperm := flat_update_perm hclass
          (Function.update_self i (p :: lists i) lists)
        rwa [Function.update_idem, Function.update_eq_self] at hperm
      have hheld' : (live.map (·.place) ++ flat (Function.update lists i (p :: lists i))).Perm
          (s.live.map (·.place) ++ flat lists) :=
        ((hflat.append_left _).trans List.perm_middle).trans hheld.symm
      have hnotin : ∀ j ≤ classes, p ∉ lists j := fun j hj hin =>
        hnew (List.mem_append_right _ (mem_flat.mpr ⟨j, hj, hin⟩))
      refine ⟨_, rfl, Function.update lists i (p :: lists i), h.laid, ?_, ?_, ?_⟩
      · constructor
        · intro j hj
          have hchain : Chain (Function.update s.link p (s.released i)) (s.released j) (lists j) :=
            (h.listing.chain j hj).congr fun q hq =>
              Function.update_of_ne (fun heq : q = p => hnotin j hj (heq ▸ hq)) _ _
          dsimp only
          by_cases hne : j = i
          · subst hne
            rw [Function.update_self, Function.update_self]
            apply Chain.cons
            rwa [Function.update_self]
          · rwa [Function.update_of_ne hne, Function.update_of_ne hne]
        · exact hheld'.nodup_iff.mpr h.listing.nodup
        · exact fun other hother => h.listing.lent other (hsub other hother)
        · intro j hj q hq
          by_cases hne : j = i
          · subst hne
            rw [Function.update_self] at hq
            rcases List.mem_cons.mp hq with rfl | hq
            · exact ⟨⟨slot, hslot, hlent.place⟩, rfl, by rw [hslab]; exact Option.some_ne_none _⟩
            · exact h.listing.kept i hj q hq
          · rw [Function.update_of_ne hne] at hq
            exact h.listing.kept j hj q hq
      · exact h.account.congr fun b _ => holdersOf_perm hheld' b
      · exact h.owned_of hsub fun _ _ _ _ => rfl
    · rw [if_neg hpool]
      obtain ⟨alloc, hdrop, haccount, hfresh, hothers⟩ := h.drop hheld hslab
      refine ⟨{ s with alloc }, by rw [hdrop]; rfl, lists, hfresh ▸ h.laid, ?_, haccount, ?_⟩
      · exact ⟨h.listing.chain, hnodup',
          fun other hother => h.listing.lent other (hsub other hother), h.listing.kept⟩
      · exact h.owned_of hsub fun _ _ _ hslabs => hothers _ hslabs

/-- A caller writes over the first bytes of its storage. -/
lemma Ok.write (h : Ok sizes s lists) {p : Place} (hp : p ∈ s.live.map (·.place))
    (link : Option Place) :
    Ok sizes { s with link := Function.update s.link p link } lists := by
  refine ⟨h.laid, ⟨?_, h.listing.nodup, h.listing.lent, h.listing.kept⟩, h.account, h.owned⟩
  intro i hi
  refine (h.listing.chain i hi).congr fun q hq => ?_
  have hne : q ≠ p := by
    rintro rfl
    exact (List.nodup_append.mp h.listing.nodup).2.2 q hp q (mem_flat.mpr ⟨i, hi, hq⟩) rfl
  exact Function.update_of_ne hne _ _

/-! ### Pools disposed of -/

/-- A list's slots dropped, with fuel for them. -/
lemma Ok.drain {list : ℕ} (hlist : list ≤ classes) {fuel : ℕ} (h : Ok sizes s lists)
    (hfuel : (lists list).length ≤ fuel) :
    ∃ s', Pools.drain list fuel s = some s' ∧ s'.cutting = s.cutting ∧
      Ok sizes s' (Function.update lists list []) := by
  induction fuel generalizing s lists with
  | zero =>
    have hnil : lists list = [] := List.length_eq_zero_iff.mp (Nat.le_zero.mp hfuel)
    have hchain := h.listing.chain list hlist
    rw [hnil] at hchain
    cases hreleased : s.released list with
    | some place =>
      rw [hreleased] at hchain
      cases hchain
    | none =>
      refine ⟨s, ?_, rfl, ?_⟩
      · rw [Pools.drain, hreleased]
      · rwa [← hnil, Function.update_eq_self]
  | succ fuel ih =>
    have hchain := h.listing.chain list hlist
    cases hreleased : s.released list with
    | none =>
      rw [hreleased] at hchain
      have hnil : lists list = [] := by
        cases hl : lists list with
        | nil => rfl
        | cons place rest =>
          rw [hl] at hchain
          cases hchain
      refine ⟨s, ?_, rfl, ?_⟩
      · rw [Pools.drain, hreleased]
      · rwa [← hnil, Function.update_eq_self]
    | some p =>
      rw [hreleased] at hchain
      obtain ⟨rest, hrest, hchain'⟩ := hchain.eq_cons
      have hin : p ∈ lists list := hrest ▸ List.mem_cons_self
      have hmem : p ∈ s.live.map (·.place) ++ flat lists :=
        List.mem_append_right _ (mem_flat.mpr ⟨list, hlist, hin⟩)
      obtain ⟨slab, hslab⟩ := Option.ne_none_iff_exists'.mp (h.listing.kept list hlist p hin).2.2
      have hheld : (s.live.map (·.place) ++ flat lists).Perm
          (p :: (s.live.map (·.place) ++ flat (Function.update lists list rest))) :=
        ((flat_update_perm hlist hrest).append_left _).trans List.perm_middle
      obtain ⟨alloc, hdrop, haccount, hfresh, hothers⟩ := h.drop hheld hslab
      have hok : Ok sizes
          { s with alloc, released := Function.update s.released list (s.link p) }
          (Function.update lists list rest) := by
        refine ⟨hfresh ▸ h.laid, ⟨?_, ?_, h.listing.lent, ?_⟩, haccount,
          h.owned_of (fun _ => id) fun _ _ _ hslabs => hothers _ hslabs⟩
        · intro i hi
          dsimp only
          by_cases hne : i = list
          · subst hne
            rwa [Function.update_self, Function.update_self]
          · rw [Function.update_of_ne hne, Function.update_of_ne hne]
            exact h.listing.chain i hi
        · exact (List.nodup_cons.mp (hheld.nodup_iff.mp h.listing.nodup)).2
        · intro i hi q hq
          by_cases hne : i = list
          · subst hne
            rw [Function.update_self] at hq
            exact h.listing.kept i hi q (hrest ▸ List.mem_cons_of_mem _ hq)
          · rw [Function.update_of_ne hne] at hq
            exact h.listing.kept i hi q hq
      obtain ⟨s', hdrain, hcutting, hok'⟩ := ih hok (by
        rw [Function.update_self]
        rw [hrest, List.length_cons] at hfuel
        omega)
      rw [Function.update_idem] at hok'
      refine ⟨s', ?_, hcutting, hok'⟩
      rw [Pools.drain, hreleased]
      simp only [h.linkAt hmem, h.headerAt hmem, Option.bind_some, hslab, hdrop]
      exact hdrain

/-- No list is longer than the slots ever cut. -/
lemma Ok.length_le (h : Ok sizes s lists) {list : ℕ} (hlist : list ≤ classes) :
    (lists list).length ≤ s.cutting.slots.length := by
  have hnodup : (lists list).Nodup := by
    have hflat := (List.nodup_append.mp h.listing.nodup).2.1
    exact (List.nodup_flatMap.mp hflat).1 list (List.mem_range.mpr (Nat.lt_succ_of_le hlist))
  rw [← List.length_map (f := Slot.place)]
  apply List.Subperm.length_le
  refine List.subperm_of_subset hnodup fun p hp => ?_
  obtain ⟨slot, hslot, heq⟩ := (h.listing.kept list hlist p hp).1
  exact List.mem_map.mpr ⟨slot, hslot, heq⟩

lemma Ok.drainAll (h : Ok sizes s lists) {list : ℕ} (hlist : list ≤ classes) :
    ∃ s', Pools.drain list s.cutting.slots.length s = some s' ∧ s'.cutting = s.cutting ∧
      Ok sizes s' (Function.update lists list []) :=
  h.drain hlist (h.length_le hlist)

/-- The slab pool disposed of. -/
lemma Ok.slabPoolDispose (h : Ok sizes s lists) :
    ∃ s', s.slabPoolDispose = some s' ∧ ∃ lists', Ok sizes s' lists' := by
  obtain ⟨s₁, hdrain, hcutting, h₁⟩ := h.drainAll (Nat.zero_le classes)
  set lists' := Function.update lists 0 [] with hlists
  set c' : Cutting := { s₁.cutting with current := none, cut := 0, stop := 0 } with hc'
  have hmore : Account sizes s₁.alloc s₁.cutting.slabs (oneMore s₁.cutting.current
      (holdersOf c' (s₁.live.map (·.place) ++ flat lists'))) := by
    refine h₁.account.congr fun b _ => ?_
    rw [oneMore, holdersOf, holdersOf, if_neg (by simp [hc']), Nat.add_zero]
  obtain ⟨alloc, hdrop, haccount, hfresh, hothers⟩ := hmore.drop fun b hb =>
    (h₁.laid.current b hb).1
  refine ⟨{ s₁ with alloc, cutting := c' }, ?_, lists', ?_, ?_, haccount, ?_⟩
  · rw [Pools.slabPoolDispose, hdrain, Option.bind_some, hdrop]
    rfl
  · constructor
    · rintro b ⟨⟩
    · exact fun _ => rfl
    · exact hfresh ▸ h₁.laid.lt
    · exact h₁.laid.own
    · intro slot hslot b hb
      obtain ⟨hblock, hslabs, -, hclass⟩ := h₁.laid.cut slot hslot b hb
      refine ⟨hblock, hslabs, ?_, hclass⟩
      rw [if_neg (by simp [hc'])]
      exact h₁.laid.fits hslot hb
    · exact h₁.laid.apart
  · exact ⟨h₁.listing.chain, h₁.listing.nodup,
      fun storage hstorage =>
        let ⟨slot, hslot, hlent⟩ := h₁.listing.lent storage hstorage
        ⟨slot, hslot, hlent.place, hlent.sized, hlent.plain⟩,
      h₁.listing.kept⟩
  · exact h₁.owned_of (fun _ => id) fun _ _ _ hslabs => hothers _ hslabs

/-- The bytes pool disposed of. -/
lemma Ok.bytesPoolDispose (h : Ok sizes s lists) :
    ∃ s', s.bytesPoolDispose = some s' ∧ ∃ lists', Ok sizes s' lists' := by
  have hall : ∀ indexes : List ℕ, (∀ i ∈ indexes, i < classes) → ∀ {s lists}, Ok sizes s lists →
      ∃ s', indexes.foldlM (fun s i => Pools.drain (i + 1) s.cutting.slots.length s) s = some s' ∧
        ∃ lists', Ok sizes s' lists' := by
    intro indexes
    induction indexes with
    | nil => exact fun _ {s lists} h => ⟨s, rfl, lists, h⟩
    | cons i indexes ih =>
      intro hlt s lists h
      obtain ⟨s', hdrain, -, h'⟩ := h.drainAll (Nat.succ_le_of_lt (hlt i List.mem_cons_self))
      obtain ⟨s'', hrest, hok⟩ := ih (fun j hj => hlt j (List.mem_cons_of_mem _ hj)) h'
      refine ⟨s'', ?_, hok⟩
      rw [List.foldlM_cons, hdrain]
      exact hrest
  exact hall _ (fun i hi => List.mem_range.mp hi) h

/-! ### Runs -/

/-- Whatever is called, the invariant holds, and nothing is read that is not there. -/
theorem Ok.step (h : Ok sizes s lists) (call : Call) :
    ∃ s', s.step sizes call = some s' ∧ ∃ lists', Ok sizes s' lists' := by
  cases call with
  | takeSlot pool had =>
    obtain ⟨taken, htaken, hok⟩ := h.slabTake pool had
    exact ⟨_, by rw [Pools.step, htaken, Option.map_some], hok⟩
  | takeBytes pool had bytes =>
    obtain ⟨taken, htaken, hok⟩ := h.bytesTake pool had bytes
    exact ⟨_, by rw [Pools.step, htaken, Option.map_some], hok⟩
  | write place link =>
    refine ⟨_, rfl, lists, ?_⟩
    split
    next hany =>
      obtain ⟨storage, hstorage, heq⟩ := List.any_eq_true.mp hany
      exact h.write (List.mem_map.mpr ⟨storage, hstorage, of_decide_eq_true heq⟩) link
    next => exact h
  | release place pool =>
    rw [Pools.step]
    cases hfind : s.live.find? (·.place = place) with
    | none => exact ⟨s, rfl, lists, h⟩
    | some storage =>
      obtain ⟨s', hrelease, hok⟩ := h.release pool hfind
      refine ⟨_, ?_, hok⟩
      simp only
      rw [hrelease, Option.map_some]
  | disposeSlabs => exact h.slabPoolDispose
  | disposeBytes => exact h.bytesPoolDispose

theorem Ok.run (h : Ok sizes s lists) (calls : List Call) :
    ∃ s', Pools.run sizes calls s = some s' ∧ ∃ lists', Ok sizes s' lists' := by
  induction calls generalizing s lists with
  | nil => exact ⟨s, rfl, lists, h⟩
  | cons call calls ih =>
    obtain ⟨s', hstep, lists', h'⟩ := h.step call
    obtain ⟨s'', hrun, hok⟩ := ih h'
    refine ⟨s'', ?_, hok⟩
    rw [Pools.run, List.foldlM_cons, hstep]
    exact hrun

/-! ### What the invariant says of a state -/

lemma sizeClass_eq (bytes : BitVec 64) :
    Pools.sizeClass bytes = (bytes.toNat + 15) % 2 ^ 64 / 16 := by
  have hlt := bytes.isLt
  have hclass : (16 : BitVec 64).toNat = 16 := rfl
  have hone : (1 : BitVec 64).toNat = 1 := rfl
  simp only [Pools.sizeClass, BitVec.toNat_udiv, BitVec.toNat_sub, BitVec.toNat_add, hclass, hone]
  omega

/-- Bytes of a class that is not empty fit in it. -/
lemma le_of_sizeClass_ne {bytes : BitVec 64} (h : Pools.sizeClass bytes ≠ 0) :
    bytes.toNat ≤ Pools.sizeClass bytes * classBytes := by
  have hlt := bytes.isLt
  rw [sizeClass_eq] at h ⊢
  simp only [classBytes]
  omega

/-- Storage from a slab takes up its slot's room. -/
lemma Lent.extent_eq {storage : Storage} {slot : Slot} (hlent : Lent sizes s.cutting storage slot)
    (hslab : (s.cutting.header storage.place).slab ≠ none) :
    s.extent storage = slot.room ∧ storage.asked ≤ slot.room ∧
      (storage.sized = true → storage.asked ≤ s.bytesSize storage.place) := by
  rw [Pools.extent, Pools.bytesSize, ← hlent.place]
  rw [← hlent.place] at hslab
  cases hsized : storage.sized with
  | true =>
    obtain ⟨bytes, hasked, hclass, hroom, hne⟩ := hlent.sized hsized
    have hle := le_of_sizeClass_ne (hne hslab)
    rw [if_pos rfl, hasked, hclass, hroom]
    exact ⟨max_eq_right hle, hle, fun _ => hle⟩
  | false =>
    obtain ⟨hasked, hroom, -⟩ := hlent.plain hsized
    rw [if_neg (by simp), hasked, hroom]
    exact ⟨rfl, le_rfl, by simp⟩

/-- Storages of two callers share no byte. -/
lemma Ok.apart (h : Ok sizes s lists) : s.live.Pairwise s.Apart := by
  have hnodup : (s.live.map (·.place)).Nodup := (List.nodup_append.mp h.listing.nodup).1
  refine (List.pairwise_map.mp hnodup).imp_of_mem fun {x y} hx hy hne => ?_
  obtain ⟨slot, hslot, hlent⟩ := h.listing.lent x hx
  obtain ⟨slot', hslot', hlent'⟩ := h.listing.lent y hy
  by_cases hblock : x.place.block = y.place.block
  · -- A slot of its own shares its block with none.
    have hslab : ∀ {a b : Slot}, a ∈ s.cutting.slots → b ∈ s.cutting.slots →
        a.place.block = b.place.block → a.place ≠ b.place →
        (s.cutting.header a.place).slab ≠ none := by
      intro a b ha hb heq hab hown
      exact hab (congrArg Slot.place ((h.laid.own a ha hown).2.2 b hb heq.symm)).symm
    have hplaces : slot.place ≠ slot'.place := by rwa [hlent.place, hlent'.place]
    have hblocks : slot.place.block = slot'.place.block := by rw [hlent.place, hlent'.place, hblock]
    have hx' := (hlent.extent_eq
      (hlent.place ▸ hslab hslot hslot' hblocks hplaces)).1
    have hy' := (hlent'.extent_eq
      (hlent'.place ▸ hslab hslot' hslot hblocks.symm hplaces.symm)).1
    have hapart := h.laid.apart.forall hslot hslot' fun heq => hplaces (congrArg Slot.place heq)
    rw [Pools.Apart, hx', hy', ← hlent.place, ← hlent'.place]
    exact hapart
  · exact Or.inl hblock

end

namespace Pools

end Pools

end MarkdownCore.Slab
