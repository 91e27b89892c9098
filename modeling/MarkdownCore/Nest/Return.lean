import MarkdownCore.Nest.ReadingRun

/-!
# What the chain holds once its old children are back

A reopened chain stands as the reading of its lists says, and so it does through every reading. So
where the reading takes old children back from an index on, the block holds the children it keeps,
the reading's and the old ones from there on, each once and in order, whatever the reading made and
passed and whether or not its array had to grow.
-/

namespace MarkdownCore.Nest

open Storage

variable {α : Type*}

/-- A block of the chain before it opens again: the children its array holds, of which it keeps
the first. -/
structure Reopened (α : Type*) where
  block : Children α
  list : List α
  keeps : ℕ
  count_eq : block.count = list.length
  held : Held block.cells 0 list
  sized : block.Sized
  keeps_le : keeps ≤ list.length

def Reopened.part (b : Reopened α) : Part α := ⟨b.list.take b.keeps, [], b.list.drop b.keeps⟩

/-- How many old children the chain's blocks hold. -/
def oldCount (chain : List (Reopened α)) : ℕ :=
  (chainKeep (chain.map fun b => (b.block, b.keeps))).2

/-- The edit as its reading starts. -/
def reopened (chain : List (Reopened α)) (nested : Cells α) (rootRoom : Option ℕ) : Edit α :=
  reopen (chain.map fun b => (b.block, b.keeps)) nested rootRoom

def Reading.start (chain : List (Reopened α)) : Reading α :=
  ⟨chain.map Reopened.part, Reading.below chain.length⟩

/-! ### The chain as it opens again -/

/-- The old children are numbered from the deepest block's on. -/
lemma chainKeep_spec : ∀ chain : List (Reopened α),
    (chainKeep (chain.map fun b => (b.block, b.keeps))).1.length = chain.length ∧
    (∀ (i : ℕ) (l : Level α) (b : Reopened α), (chainKeep (chain.map fun b => (b.block, b.keeps))).1[i]? =
      some l → chain[i]? = some b →
      l.block = { b.block with count := b.keeps } ∧ l.keeps = b.keeps ∧
        l.holds = b.block.count - b.keeps ∧ l.saves = 0 ∧ l.base + l.holds ≤ oldCount chain) ∧
    ∀ (i j : ℕ) (a b : Level α),
      (chainKeep (chain.map fun b => (b.block, b.keeps))).1[i]? = some a →
      (chainKeep (chain.map fun b => (b.block, b.keeps))).1[j]? = some b → i < j →
      b.base + b.holds ≤ a.base := by
  intro chain
  induction chain with
  | nil => simp [chainKeep]
  | cons top chain ih =>
    obtain ⟨hlength, hlevels, hapart⟩ := ih
    refine ⟨by simp [chainKeep, hlength], ?_, ?_⟩
    · intro i l b hl hb
      cases i with
      | zero =>
        cases Option.some.inj hl
        cases Option.some.inj hb
        exact ⟨rfl, rfl, rfl, rfl, le_rfl⟩
      | succ i =>
        obtain ⟨hblock, hkeeps, hholds, hsaves, hbase⟩ := hlevels i l b hl hb
        refine ⟨hblock, hkeeps, hholds, hsaves, hbase.trans ?_⟩
        exact Nat.le_add_right _ _
    · intro i j a b ha hb hij
      cases j with
      | zero => omega
      | succ j =>
        cases i with
        | succ i => exact hapart i j a b ha hb (by omega)
        | zero =>
          cases Option.some.inj ha
          have hb' : (chainKeep (chain.map fun b => (b.block, b.keeps))).1[j]? = some b := hb
          have hj : j < chain.length := by
            rw [← hlength]
            exact (List.getElem?_eq_some_iff.mp hb').1
          exact (hlevels j b chain[j] hb' (List.getElem?_eq_getElem hj)).2.2.2.2

lemma Reopened.stands (b : Reopened α) {l : Level α} {nested : Cells α}
    (hblock : l.block = { b.block with count := b.keeps }) (hkeeps : l.keeps = b.keeps)
    (hholds : l.holds = b.block.count - b.keeps) (hsaves : l.saves = 0)
    (hbase : l.base + l.holds ≤ nested.length) : l.Stands nested b.part := by
  have hle := b.keeps_le
  have hcount := b.count_eq
  have hsized := b.sized.count_le
  constructor
  · simp [part, hkeeps, hle]
  · simp [part, hholds, hcount]
  · simp [part, Part.made, hblock, hle]
  · simp only [part, Part.made, List.append_nil, hblock]
    exact b.held.take b.keeps
  · rw [hblock]
    exact ⟨by show b.keeps ≤ b.block.cells.length; omega, b.sized.room⟩
  · rw [hblock]
    show l.keeps + l.holds ≤ b.block.cells.length
    omega
  · omega
  · exact .inl (Nat.zero_le _)
  · simp [hsaves]
  · simp only [part, hsaves, List.drop_zero, Nat.add_zero, hblock, hkeeps]
    have hdrop := b.held.drop hle
    rwa [Nat.zero_add] at hdrop
  · exact hbase

/-- The chain stands as its lists say before the reading writes anything. -/
theorem reopened_stands (chain : List (Reopened α)) {nested : Cells α}
    (hnested : oldCount chain ≤ nested.length) (rootRoom : Option ℕ) :
    (reopened chain nested rootRoom).Stands (Reading.start chain) := by
  obtain ⟨hlength, hlevels, hapart⟩ := chainKeep_spec chain
  have hparts : ∀ roomLevel roomAt, (⟨(chainKeep (chain.map fun b => (b.block, b.keeps))).1, nested,
      roomLevel, roomAt, rootRoom⟩ : Edit α).Parts (chain.map Reopened.part) := by
    intro roomLevel roomAt
    refine ⟨by simp [hlength], ?_, hapart⟩
    intro i l p hl hp
    rw [List.getElem?_map] at hp
    obtain ⟨b, hb, rfl⟩ := Option.map_eq_some_iff.mp hp
    obtain ⟨hblock, hkeeps, hholds, hsaves, hbase⟩ := hlevels i l b hl hb
    exact b.stands hblock hkeeps hholds hsaves (hbase.trans hnested)
  have hfresh : ∀ (i : ℕ) (l : Level α) (p : Part α),
      (chainKeep (chain.map fun b => (b.block, b.keeps))).1[i]? = some l →
      (chain.map Reopened.part)[i]? = some p → l.saves = 0 ∧ p.own = [] := by
    intro i l p hl hp
    rw [List.getElem?_map] at hp
    obtain ⟨b, hb, rfl⟩ := Option.map_eq_some_iff.mp hp
    exact ⟨(hlevels i l b hl hb).2.2.2.1, rfl⟩
  rw [reopened, reopen]
  cases hlast : (chainKeep (chain.map fun b => (b.block, b.keeps))).1.getLast? with
  | none =>
    have hnil := List.getLast?_eq_none_iff.mp hlast
    have hzero : chain.length = 0 := by
      rw [← hlength, hnil, List.length_nil]
    have hlevel : (Reading.start chain).level = none := by
      rw [Reading.start, hzero]
      rfl
    refine ⟨hparts _ _, hlevel.symm, ?_, ?_, ?_, ?_⟩
    · intro level h
      rw [hlevel] at h
      cases h
    · intro level h
      rw [hlevel] at h
      cases h
    · intro i l _ hl
      rw [hnil] at hl
      cases hl
    · intro level l h
      rw [hlevel] at h
      cases h
  | some deepest =>
    have hne : (chainKeep (chain.map fun b => (b.block, b.keeps))).1 ≠ [] := by
      intro hnil
      simp [hnil] at hlast
    have hpos : 0 < chain.length := by
      rw [← hlength]
      exact List.length_pos_iff.mpr hne
    have hlevel : (Reading.start chain).level = some (chain.length - 1) := by
      rw [Reading.start]
      cases hn : chain.length with
      | zero => omega
      | succ n => rfl
    rw [List.getLast?_eq_getElem?, hlength] at hlast
    refine ⟨hparts _ _, by rw [hlevel, ← hlength], ?_, ?_, ?_, ?_⟩
    · intro level h
      rw [hlevel] at h
      cases h
      simp only [hlength]
      omega
    · intro level _ i _ l p hl hp
      exact hfresh i l p hl hp
    · intro i l hi hl
      have hlt := hi _ hlevel
      have hlt' := (List.getElem?_eq_some_iff.mp hl).1
      simp only [hlength] at hlt'
      omega
    · intro level l h hl
      rw [hlevel] at h
      cases h
      cases Option.some.inj (hlast.symm.trans hl)
      have hp : (chain.map Reopened.part)[chain.length - 1]? =
          some (chain[chain.length - 1]).part := by
        rw [List.getElem?_map, List.getElem?_eq_getElem (by omega), Option.map_some]
      simp only [(hfresh _ _ _ hlast hp).1, Nat.add_zero, Nat.pos_iff_ne_zero]

/-! ### What the reading leaves of a block's parts -/

/-- A reading changes nothing but its own children. -/
lemma Reading.read_parts {events : List (Event α)} {r r' : Reading α}
    (h : r.read events = some r') :
    r'.parts.length = r.parts.length ∧ ∀ (i : ℕ) (p p' : Part α),
      r.parts[i]? = some p → r'.parts[i]? = some p' → p'.kept = p.kept ∧ p'.old = p.old := by
  induction events generalizing r with
  | nil =>
    cases Option.some.inj h
    refine ⟨rfl, ?_⟩
    intro i p p' hp hp'
    cases Option.some.inj (hp.symm.trans hp')
    exact ⟨rfl, rfl⟩
  | cons event events ih =>
    rw [Reading.read] at h
    obtain ⟨next, hnext, h⟩ := Option.bind_eq_some_iff.mp h
    rw [Reading.step] at hnext
    obtain ⟨level, -, hnext⟩ := Option.bind_eq_some_iff.mp hnext
    obtain ⟨q, hq, hnext⟩ := Option.bind_eq_some_iff.mp hnext
    obtain ⟨own, -, rfl⟩ := Option.map_eq_some_iff.mp hnext
    obtain ⟨hlength, hrest⟩ := ih h
    refine ⟨hlength.trans (List.length_set ..), ?_⟩
    intro i p p' hp hp'
    have hset : (r.parts.set level { q with own })[i]? =
        some (if level = i then { p with own } else p) := by
      rw [List.getElem?_set]
      split
      · subst_vars
        cases Option.some.inj (hp.symm.trans hq)
        rw [if_pos (List.getElem?_eq_some_iff.mp hp).1]
      · exact hp
    obtain ⟨hkept, hold⟩ := hrest i _ p' hset hp'
    rw [hkept, hold]
    split <;> exact ⟨rfl, rfl⟩

lemma Reading.part_of_start {chain : List (Reopened α)} {events : List (Event α)} {r : Reading α}
    (hread : (Reading.start chain).read events = some r) {i : ℕ} {b : Reopened α} {p : Part α}
    (hb : chain[i]? = some b) (hp : r.parts[i]? = some p) :
    p.kept = b.list.take b.keeps ∧ p.old = b.list.drop b.keeps := by
  have hstart : (Reading.start chain).parts[i]? = some b.part := by
    rw [Reading.start, List.getElem?_map, hb, Option.map_some]
  exact (Reading.read_parts hread).2 i b.part p hstart hp

/-! ### The children back -/

/-- The children of the chain's block at `level`. -/
def Edit.children (e : Edit α) (level : ℕ) : Option (List (Option α)) :=
  e.chain[level]?.map fun l => l.block.cells.take l.block.count

/-- The first of the block's own part of the room. -/
def Edit.passed (e : Edit α) (level count : ℕ) : Option (List (Option α)) :=
  e.chain[level]?.map fun l => (e.nested.drop l.base).take count

/-- Both stand as they are in every block but one. -/
def Edit.SameBut (e e' : Edit α) (level : ℕ) : Prop :=
  ∀ i ≠ level, e'.chain[i]? = e.chain[i]? ∧
    ∀ l, e.chain[i]? = some l → e'.passed i l.holds = e.passed i l.holds

lemma Held.children {e : Edit α} {level : ℕ} {l : Level α} {list : List α}
    (hl : e.chain[level]? = some l) (h : Held l.block.cells 0 list)
    (hcount : l.block.count = list.length) : e.children level = some (list.map some) := by
  have hslice := h.slice
  rw [List.drop_zero] at hslice
  rw [Edit.children, hl, Option.map_some, hcount, hslice]

lemma Held.passed {e : Edit α} {level : ℕ} {l : Level α} {list : List α} {count : ℕ}
    (hl : e.chain[level]? = some l) (h : Held e.nested l.base list) (hcount : list.length = count) :
    e.passed level count = some (list.map some) := by
  rw [Edit.passed, hl, Option.map_some, ← hcount, h.slice]

/-- What a block that takes its old children back from `first` on gives, of the children it keeps,
the reading's and the old ones. -/
inductive Returns (pool : Pool α) (e : Edit α) (level first : ℕ) (kept own old : List α) :
    Option (Bool × Edit α) → Prop
  | refused {n : ℕ} (hpool : pool n = none) : Returns pool e level first kept own old (some (false, e))
  | returned {e' : Edit α}
      (children : e'.children level = some ((kept ++ own ++ old.drop first).map some))
      (passed : e'.passed level first = some ((old.take first).map some))
      (same : e.SameBut e' level) :
      Returns pool e level first kept own old (some (true, e'))

lemma Edit.Stands.nestMend {e : Edit α} {r : Reading α} (h : e.Stands r) {level : ℕ} {p : Part α}
    (hlevel : r.level = some level) (hp : r.parts[level]? = some p) {first : ℕ}
    (hfirst : first ≤ p.old.length) (pool : Pool α) :
    Returns pool e level first p.kept p.own p.old (e.nestMend pool level first) := by
  obtain ⟨l, q, hl, hq, hstands⟩ := h.part_of_level hlevel
  cases Option.some.inj (hp.symm.trans hq)
  have hlt := (List.getElem?_eq_some_iff.mp hl).1
  rcases nestMend_spec hl hstands (hstands.holds_eq.symm ▸ hfirst) pool with
    ⟨hrefused, n, hn⟩ | ⟨block, nested, hmend, hmended⟩
  · rw [hrefused]
    exact .refused hn
  · rw [hmend]
    have hself : (e.chain.set level { l with block, saves := l.holds })[level]? =
        some { l with block, saves := l.holds } := List.getElem?_set_self hlt
    apply Returns.returned
    · exact Held.children hself hmended.held hmended.count_eq
    · exact Held.passed hself hmended.passed (List.length_take_of_le hfirst)
    · intro i hi
      have hsame : (e.chain.set level { l with block, saves := l.holds })[i]? = e.chain[i]? :=
        List.getElem?_set_ne hi.symm
      refine ⟨hsame, ?_⟩
      intro a ha
      simp only [Edit.passed, hsame, ha, Option.map_some]
      congr 1
      apply List.ext_getElem?
      intro k
      rcases Nat.lt_or_ge k a.holds with hk | hk
      · rw [List.getElem?_take_of_lt hk, List.getElem?_take_of_lt hk, List.getElem?_drop,
          List.getElem?_drop]
        apply hmended.outside
        rcases Nat.lt_or_gt_of_ne hi with hlt' | hgt
        · have hapart := h.apart i level a l ha hl hlt'
          omega
        · have hapart := h.apart level i l a hl ha hgt
          omega
      · rw [List.getElem?_eq_none (by simp; omega), List.getElem?_eq_none (by simp; omega)]

/-- After every reading, the block that holds the room and takes its old children back from an
index on holds the children it keeps, the reading's and those, and the room the ones passed; and
nothing of the edit changes when storage cannot be had. -/
theorem old_children_return (chain : List (Reopened α)) {nested : Cells α}
    (hnested : oldCount chain ≤ nested.length) (rootRoom : Option ℕ) {events : List (Event α)}
    {r : Reading α} (hread : (Reading.start chain).read events = some r) :
    ∃ done e, (reopened chain nested rootRoom).read events = some (done, e) ∧
      (done = true → ∀ level b p, r.level = some level → chain[level]? = some b →
        r.parts[level]? = some p → ∀ first ≤ b.list.length - b.keeps, ∀ pool,
          Returns pool e level first (b.list.take b.keeps) p.own (b.list.drop b.keeps)
            (e.nestMend pool level first)) := by
  obtain ⟨done, e, he, hstands⟩ := (reopened_stands chain hnested rootRoom).read hread
  refine ⟨done, e, he, ?_⟩
  intro hdone level b p hlevel hb hp first hfirst pool
  obtain ⟨hkept, hold⟩ := Reading.part_of_start hread hb hp
  rw [← hkept, ← hold]
  apply (hstands hdone).nestMend hlevel hp
  rwa [hold, List.length_drop]

def samplePool : Pool ℕ := fun n => some ⟨List.replicate ((n + 1) / 2 * 2) none, by simp⟩

/-- A block of three children, full but for one cell. -/
def sampleBlock : Reopened ℕ where
  block := ⟨[some 1, some 2, some 3, none], 3⟩
  list := [1, 2, 3]
  keeps := 1
  count_eq := rfl
  held := by
    show ∀ k < 3, _
    decide
  sized := ⟨by decide, .inr ⟨1, rfl⟩⟩
  keeps_le := by decide

theorem old_children_return_sample :
    ∃ done e, (reopened [sampleBlock] [none, none] none).read
        [.settle samplePool 7, .settle samplePool 8, .settleBefore samplePool 9] = some (done, e) ∧
      (done = true → ∀ level b p, some 0 = some level → [sampleBlock][level]? = some b →
        [(⟨[1], [7, 9, 8], [2, 3]⟩ : Part ℕ)][level]? = some p →
        ∀ first ≤ b.list.length - b.keeps, ∀ pool,
          Returns pool e level first (b.list.take b.keeps) p.own (b.list.drop b.keeps)
            (e.nestMend pool level first)) :=
  @old_children_return ℕ [sampleBlock] [none, none] le_rfl none
    [.settle samplePool 7, .settle samplePool 8, .settleBefore samplePool 9]
    ⟨[⟨[1], [7, 9, 8], [2, 3]⟩], some 0⟩ rfl

/-! ### The blocks above -/

end MarkdownCore.Nest
