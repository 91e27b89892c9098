import Mathlib.Algebra.Order.Ring.Nat
import MarkdownCore.Nest.Children

/-!
# The old children come back whole

Through any reading a block of the chain holds the children it keeps and the reading's at the front
of its array, the old ones whose places those took, and maybe more, in the edit's room, and the
others where they stood (`Level.Stands`). So a block that takes its old children back holds those
it keeps, the reading's and the old ones from there on, and the room holds the ones passed
(`old_children_return`); each block above takes back all of its own (`chain_returns`).
-/

namespace MarkdownCore.Nest

open Storage
open Storage.Ahead (doubled count_le_doubled)

variable {α : Type*}

/-! ### Arrays of children -/

/-- The power of two an array's storage is of. -/
structure Children.Sized (c : Children α) : Prop where
  count_le : c.count ≤ c.cells.length
  room : c.cells = [] ∨ ∃ k, c.cells.length = 2 ^ (k + 1)

/-- An array after it took a child, when it holds this list then: what stood past its end stands
where it did. -/
structure Children.Took (c c' : Children α) (made : List α) : Prop where
  count_eq : c'.count = made.length
  held : Held c'.cells 0 made
  sized : c'.Sized
  length_le : c.cells.length ≤ c'.cells.length
  past : ∀ j < c.cells.length, c.count < j → c'.cells[j]? = c.cells[j]?

lemma pow_classes (k : ℕ) : (2 ^ (k + 1) + 1) / 2 * 2 = 2 ^ (k + 1) := by
  rw [Nat.pow_succ]
  omega

lemma pow_and_pred (k : ℕ) : 2 ^ k &&& (2 ^ k - 1) = 0 := by
  rw [Nat.and_two_pow_sub_one_eq_mod, Nat.mod_self]

/-- The doubling from a power of two comes to one. -/
lemma doubled_pow (count : ℕ) : ∀ fuel k, ∃ k', doubled count fuel (2 ^ (k + 1)) = 2 ^ (k' + 1)
  | 0, k => ⟨k, rfl⟩
  | fuel + 1, k => by
    rw [doubled]
    split
    · rw [← Nat.pow_succ]
      exact doubled_pow count fuel (k + 1)
    · exact ⟨k, rfl⟩

lemma arrayCapacity_pow (count : ℕ) : ∃ k, arrayCapacity count = 2 ^ (k + 1) :=
  doubled_pow count count 0

lemma le_arrayCapacity (count : ℕ) : count ≤ arrayCapacity count := by
  apply count_le_doubled
  have h : count < 2 ^ count := Nat.lt_two_pow_self
  omega

namespace Children

variable {c : Children α} {made : List α}

lemma Sized.write (h : c.Sized) (hlt : c.count < c.cells.length) (hheld : Held c.cells 0 made)
    (hcount : c.count = made.length) (node : α) :
    ∃ c', c.write node = some (true, c') ∧ c.Took c' (made ++ [node]) := by
  obtain ⟨cells, hcells, hlength, hnode, hsame⟩ := writeCells_copied c.cells c.count node hlt
  refine ⟨⟨cells, c.count + 1⟩, by simp [Children.write, hcells], ?_⟩
  constructor
  · simp [hcount]
  · rw [Held.append_iff, Held.singleton_iff]
    constructor
    · exact hheld.congr fun j _ hj => hsame j (by omega)
    · rwa [Nat.zero_add, ← hcount]
  · constructor
    · show c.count + 1 ≤ cells.length
      omega
    · rcases h.room with hnil | ⟨k, hk⟩
      · simp [hnil] at hlt
      · exact .inr ⟨k, by rw [hlength, hk]⟩
  · exact hlength.ge
  · intro j _ hj
    exact hsame j (by omega)

/-- The array moved to storage twice its count, which has the room. -/
lemma Sized.moved (h : c.Sized) (hfull : c.cells.length ≤ c.count) (htwo : 2 ≤ c.count)
    (hheld : Held c.cells 0 made) (hcount : c.count = made.length)
    (moved : { cells : Cells α // cells.length = (2 * c.count + 1) / 2 * 2 }) (node : α) :
    ∃ c', ((copyCells moved.1 0 c.cells 0 c.count).bind fun moved =>
        ({ c with cells := moved } : Children α).write node) = some (true, c') ∧
      c.Took c' (made ++ [node]) := by
  have hsize : c.cells.length = c.count := le_antisymm hfull h.count_le
  have hlength : moved.1.length = 2 * c.count := by
    rw [moved.2]
    omega
  obtain ⟨cells, hcells, hcopied⟩ := copyCells_copied moved.1 c.cells 0 0 c.count (by omega)
    (by omega)
  have hheld' : Held cells 0 made := hcopied.held hheld hcount.ge
  have hlength' : cells.length = 2 * c.count := by rw [hcopied.length_eq, hlength]
  have hsized : ({ c with cells } : Children α).Sized := by
    constructor
    · show c.count ≤ cells.length
      omega
    · rcases h.room with hnil | ⟨k, hk⟩
      · simp [hnil] at hsize
        omega
      · right
        refine ⟨k + 1, ?_⟩
        show cells.length = _
        rw [hlength', ← hsize, hk, Nat.pow_succ 2 (k + 1), Nat.mul_comm]
  obtain ⟨c', hwrite, htook⟩ := hsized.write (show c.count < cells.length by omega) hheld' hcount node
  refine ⟨c', by rw [hcells, Option.bind_some, hwrite], ?_⟩
  constructor
  · exact htook.count_eq
  · exact htook.held
  · exact htook.sized
  · have hle : cells.length ≤ c'.cells.length := htook.length_le
    omega
  · intro j hj hpast
    omega

/-- An array of no storage takes its first child. -/
lemma Sized.started (hnil : c.cells = []) (hcount : c.count = made.length) (h : c.Sized)
    (taken : { cells : Cells α // cells.length = (2 + 1) / 2 * 2 }) (node : α) :
    ∃ cells, writeCells taken.1 0 [node] = some cells ∧ c.Took ⟨cells, 1⟩ (made ++ [node]) := by
  have hlength : taken.1.length = 2 := taken.2
  obtain ⟨cells, hcells, hsize, hnode, -⟩ :=
    writeCells_copied taken.1 0 node (by omega)
  have hmade : made = [] := by
    have hle := h.count_le
    rw [hnil] at hle
    exact List.eq_nil_of_length_eq_zero (by simpa [hcount] using hle)
  subst hmade
  refine ⟨cells, hcells, ?_⟩
  constructor
  · rfl
  · rw [List.nil_append, Held.singleton_iff]
    exact hnode
  · exact ⟨by show 1 ≤ cells.length; omega, .inr ⟨0, by show cells.length = 2; omega⟩⟩
  · simp [hnil]
  · simp [hnil]

/-- A push appends the node, or leaves the array as it was when storage could not be had. -/
lemma Sized.push (h : c.Sized) (hheld : Held c.cells 0 made) (hcount : c.count = made.length)
    (pool : Pool α) (node : α) :
    c.push pool node = some (false, c) ∨
      ∃ c', c.push pool node = some (true, c') ∧ c.Took c' (made ++ [node]) := by
  rw [Children.push]
  by_cases htwo : 2 ≤ c.count ∧ c.count &&& (c.count - 1) = 0
  · rw [if_pos htwo, pushFull]
    split
    · exact .inl rfl
    · split
      · cases hpool : pool (2 * c.count) with
        | none => exact .inl rfl
        | some moved => exact .inr (h.moved ‹_› htwo.1 hheld hcount moved node)
      · exact .inr (h.write (Nat.lt_of_not_le ‹_›) hheld hcount node)
  · rw [if_neg htwo]
    rcases h.room with hnil | ⟨k, hk⟩
    · rw [if_pos (by simp [hnil]), Children.start]
      cases hpool : pool 2 with
      | none => exact .inl rfl
      | some taken =>
        obtain ⟨cells, hcells, htook⟩ := h.started hnil hcount taken node
        exact .inr ⟨⟨cells, 1⟩, by simp [hcells], htook⟩
    · have hne : c.cells.isEmpty = false := by
        rw [List.isEmpty_eq_false_iff, ← List.length_pos_iff, hk]
        exact Nat.two_pow_pos _
      rw [if_neg (by simp [hne])]
      -- a full array's count is a power of two of its own
      have hlt : c.count < c.cells.length := by
        apply lt_of_le_of_ne h.count_le
        intro heq
        apply htwo
        rw [heq, hk]
        exact ⟨by rw [Nat.pow_succ]; have := Nat.two_pow_pos k; omega, pow_and_pred _⟩
      exact .inr (h.write hlt hheld hcount node)

/-- A node put before the last. -/
lemma Sized.insertBeforeLast {last : α} (h : c.Sized) (hheld : Held c.cells 0 (made ++ [last]))
    (hcount : c.count = (made ++ [last]).length) (pool : Pool α) (node : α) :
    c.insertBeforeLast pool node = some (false, c) ∨
      ∃ c', c.insertBeforeLast pool node = some (true, c') ∧
        c.Took c' (made ++ [node, last]) := by
  have hcount' : c.count = made.length + 1 := by simp [hcount]
  have hlast : c.cells[c.count - 1]? = some (some last) := by
    have h := (Held.append_iff.mp hheld).2
    rwa [Held.singleton_iff, Nat.zero_add, ← Nat.add_sub_cancel (n := made.length) (m := 1),
      ← hcount'] at h
  rw [Children.insertBeforeLast, if_neg (by omega), hlast, Option.join_some, Option.bind_some]
  rcases h.push hheld hcount pool last with hpush | ⟨c', hpush, htook⟩
  · left
    simp [hpush]
  · right
    have hcount'' : c'.count = made.length + 2 := by simp [htook.count_eq]
    have hlt : c.count - 1 < c'.cells.length := by
      have hle := htook.sized.count_le
      omega
    obtain ⟨cells, hcells, hlength, hnode, hsame⟩ := writeCells_copied c'.cells (c.count - 1) node hlt
    refine ⟨{ c' with cells }, by simp [hpush, hcells], ?_⟩
    have hheld' := htook.held
    rw [List.append_assoc, Held.append_iff] at hheld'
    have hat : c.count - 1 = made.length := by omega
    rw [hat] at hnode hsame
    constructor
    · simp [hcount'']
    · rw [Held.append_iff]
      constructor
      · exact hheld'.1.congr fun j _ hj => hsame j (by omega)
      · intro k hk
        rw [Nat.zero_add]
        cases k with
        | zero => exact hnode
        | succ k =>
          have hk : k = 0 := by
            rw [List.length_cons, List.length_singleton] at hk
            omega
          subst hk
          rw [hsame _ (by omega)]
          simpa using hheld'.2 1 (by simp)
    · constructor
      · show c'.count ≤ cells.length
        rw [hlength]
        exact htook.sized.count_le
      · rcases htook.sized.room with hnil | ⟨k, hk⟩
        · simp [hnil] at hlt
        · exact .inr ⟨k, by rw [← hk]; exact hlength⟩
    · show c.cells.length ≤ cells.length
      rw [hlength]
      exact htook.length_le
    · intro j hj hpast
      show cells[j]? = _
      rw [hsame j (by omega), htook.past j hj hpast]

end Children

/-! ### A block of the chain -/

/-- What a block of the chain is of: the children it keeps, the reading's and the old ones. -/
structure Part (α : Type*) where
  kept : List α
  own : List α
  old : List α

def Part.made (p : Part α) : List α := p.kept ++ p.own

/-- The block's children stand at the front of its array, its old ones that moved out in the room
and the others where they stood; none stands where the reading wrote. -/
structure Level.Stands (l : Level α) (nested : Cells α) (p : Part α) : Prop where
  keeps_eq : l.keeps = p.kept.length
  holds_eq : l.holds = p.old.length
  count_eq : l.block.count = p.made.length
  made : Held l.block.cells 0 p.made
  sized : l.block.Sized
  room_le : l.keeps + l.holds ≤ l.block.cells.length
  saves_le : l.saves ≤ l.holds
  own_le : p.own.length ≤ l.saves ∨ l.saves = l.holds
  moved : Held nested l.base (p.old.take l.saves)
  still : Held l.block.cells (l.keeps + l.saves) (p.old.drop l.saves)
  nested_le : l.base + l.holds ≤ nested.length

namespace Level.Stands

variable {l : Level α} {nested nested' : Cells α} {p : Part α}

lemma count (h : l.Stands nested p) : l.block.count = l.keeps + p.own.length := by
  rw [h.count_eq, Part.made, List.length_append, h.keeps_eq]

/-- What is written in the room outside a block's own part of it leaves the block as it stands. -/
lemma frame (h : l.Stands nested p) (hlength : nested'.length = nested.length)
    (hsame : ∀ j, l.base ≤ j → j < l.base + l.holds → nested'[j]? = nested[j]?) :
    l.Stands nested' p := by
  have hmoved : Held nested' l.base (p.old.take l.saves) := by
    apply h.moved.congr
    intro j hge hlt
    have hsaves := h.saves_le
    rw [List.length_take] at hlt
    exact hsame j hge (by omega)
  exact { h with moved := hmoved, nested_le := by rw [hlength]; exact h.nested_le }

/-- The next old children in place move out. -/
lemma stash (h : l.Stands nested p) {n : ℕ} (hn : l.saves + n ≤ l.holds) :
    ∃ out, copyCells nested (l.base + l.saves) l.block.cells (l.keeps + l.saves) n = some out ∧
      Copied nested (l.base + l.saves) l.block.cells (l.keeps + l.saves) n out ∧
      ({ l with saves := l.saves + n } : Level α).Stands out p := by
  have hnested := h.nested_le
  have hroom := h.room_le
  have hholds := h.holds_eq
  obtain ⟨out, hout, hcopied⟩ := copyCells_copied nested l.block.cells (l.base + l.saves)
    (l.keeps + l.saves) n (by omega) (by omega)
  have hsplit : p.old.take (l.saves + n) =
      p.old.take l.saves ++ (p.old.drop l.saves).take n := List.take_add
  have hmoved : Held out l.base (p.old.take (l.saves + n)) := by
    rw [hsplit, Held.append_iff, List.length_take_of_le (by omega)]
    constructor
    · apply hcopied.kept h.moved
      rw [List.length_take_of_le (by omega)]
      exact .inl le_rfl
    · exact hcopied.held (h.still.take n) (List.length_take_le _ _)
  have hstill : Held l.block.cells (l.keeps + (l.saves + n)) (p.old.drop (l.saves + n)) := by
    have hdrop := h.still.drop (n := n) (by rw [List.length_drop]; omega)
    rwa [List.drop_drop, Nat.add_assoc] at hdrop
  have hown : p.own.length ≤ l.saves + n ∨ l.saves + n = l.holds := by
    rcases h.own_le with hle | heq
    · exact .inl (by omega)
    · exact .inr (by omega)
  refine ⟨out, hout, hcopied, ?_⟩
  exact { h with
    saves_le := hn, own_le := hown, moved := hmoved, still := hstill
    nested_le := by rw [hcopied.length_eq]; exact hnested }

/-- A child put among the reading's, where no old child stands in its place. -/
lemma puts (h : l.Stands nested p) (hroom : p.own.length < l.saves ∨ l.saves = l.holds)
    {own : List α} (hown : own.length = p.own.length + 1) {block : Children α}
    (htook : l.block.Took block (p.kept ++ own)) :
    ({ l with block } : Level α).Stands nested { p with own } := by
  have hcount := h.count
  have hle := htook.length_le
  have hlevel := h.room_le
  have hstill : Held block.cells (l.keeps + l.saves) (p.old.drop l.saves) := by
    apply h.still.congr
    intro j hge hlt
    rw [List.length_drop, ← h.holds_eq] at hlt
    exact htook.past j (by omega) (by omega)
  have hown' : own.length ≤ l.saves ∨ l.saves = l.holds := by omega
  exact { h with
    count_eq := htook.count_eq, made := htook.held, sized := htook.sized
    room_le := hlevel.trans hle, own_le := hown', still := hstill }

/-- The reading's last child leaves the block. -/
lemma leaves {kept own old : List α} {last : α} (h : l.Stands nested ⟨kept, own ++ [last], old⟩) :
    ∃ block, l.block.pop = some block ∧
      ({ l with block } : Level α).Stands nested ⟨kept, own, old⟩ := by
  have hcount := h.count
  simp only [List.length_append, List.length_singleton] at hcount
  refine ⟨_, if_neg (by omega), ?_⟩
  have hkeeps : l.keeps = kept.length := h.keeps_eq
  have hmade : Held l.block.cells 0 (kept ++ own) := by
    have hmade := h.made
    rw [Part.made, ← List.append_assoc, Held.append_iff] at hmade
    exact hmade.1
  have hown : own.length ≤ l.saves ∨ l.saves = l.holds := by
    have hown := h.own_le
    simp only [List.length_append, List.length_singleton] at hown
    omega
  have hsized : ({ l.block with count := l.block.count - 1 } : Children α).Sized :=
    ⟨(Nat.sub_le _ _).trans h.sized.count_le, h.sized.room⟩
  exact { h with
    count_eq := by simp only [Part.made, List.length_append]; omega
    made := hmade, sized := hsized, own_le := hown }

end Level.Stands

/-! ### Taking the old children back -/

/-- Where the array has the room or storage can be had, the cells in it stand as they did up to the
count, and the old children in place where they are to follow those that moved out. -/
lemma mendArray_spec (pool : Pool α) {items : Cells α} {count place : ℕ} (target total : ℕ)
    {made kept : List α} (hmade : Held items 0 made) (hcount : made.length = count)
    (hkept : Held items place kept) (hitems : place + kept.length ≤ items.length)
    (hcount_le : count ≤ items.length) (htarget : count ≤ target)
    (htotal : target + kept.length = total) :
    (items.length < total ∧ pool (arrayCapacity total) = none ∧
      mendArray pool items count target place kept.length total = some none) ∨
      ∃ out, mendArray pool items count target place kept.length total = some (some out) ∧
        Held out 0 made ∧ Held out target kept ∧ total ≤ out.length ∧ items.length ≤ out.length ∧
        (out.length = items.length ∨ ∃ k, out.length = 2 ^ (k + 1)) := by
  rw [mendArray]
  by_cases hroom : items.length < total
  · rw [if_pos hroom]
    cases hpool : pool (arrayCapacity total) with
    | none => exact .inl ⟨hroom, rfl, rfl⟩
    | some grown =>
      right
      obtain ⟨k, hk⟩ := arrayCapacity_pow total
      have hlength : grown.1.length = 2 ^ (k + 1) := by rw [grown.2, hk, pow_classes]
      have htotal_le : total ≤ grown.1.length := by
        rw [hlength, ← hk]
        exact le_arrayCapacity total
      obtain ⟨front, hfront, hcopied⟩ := copyCells_copied grown.1 items 0 0 count (by omega)
        (by omega)
      have hsize := hcopied.length_eq
      obtain ⟨out, hout, hcopied'⟩ := copyCells_copied front items target place kept.length
        (by omega) (by omega)
      refine ⟨out, by simp [hfront, hout], ?_, hcopied'.held hkept le_rfl, ?_, ?_, ?_⟩
      · exact hcopied'.kept (hcopied.held hmade hcount.le) (.inl (by omega))
      · rw [hcopied'.length_eq, hsize]
        exact htotal_le
      · rw [hcopied'.length_eq, hsize]
        omega
      · exact .inr ⟨k, by rw [hcopied'.length_eq, hsize, hlength]⟩
  · rw [if_neg hroom]
    right
    split
    · obtain ⟨out, hout, hcopied⟩ := copyCells_copied items items target place kept.length
        (by omega) (by omega)
      have hsize := hcopied.length_eq
      refine ⟨out, by simp [hout], hcopied.kept hmade (.inl (by omega)),
        hcopied.held hkept le_rfl, by omega, by omega, .inl hsize⟩
    · refine ⟨items, rfl, hmade, ?_, by omega, le_rfl, .inl rfl⟩
      rename_i hstays
      rcases Classical.em (target = place) with heq | hne
      · rwa [heq]
      · have hnil : kept = [] := by
          apply List.eq_nil_of_length_eq_zero
          apply Classical.byContradiction
          intro hpos
          exact hstays ⟨hne, hpos⟩
        rw [hnil]
        exact Held.nil

/-- The block after it took its old children back from `first` on, with those passed in the room. -/
structure Level.Mended (l : Level α) (nested : Cells α) (p : Part α) (first : ℕ)
    (block : Children α) (out : Cells α) : Prop where
  count_eq : block.count = (p.made ++ p.old.drop first).length
  held : Held block.cells 0 (p.made ++ p.old.drop first)
  sized : block.Sized
  passed : Held out l.base (p.old.take first)
  length_eq : out.length = nested.length
  outside : ∀ j, j < l.base ∨ l.base + l.holds ≤ j → out[j]? = nested[j]?

lemma set_same {chain : List (Level α)} {level : ℕ} {l : Level α} (h : chain[level]? = some l) :
    chain.set level l = chain := by
  apply List.ext_getElem?
  intro i
  rw [List.getElem?_set]
  split
  · subst_vars
    rw [h, if_pos (List.getElem?_eq_some_iff.mp h).1]
  · rfl

/-- The part of `S_nest_mend` after those passed moved out. -/
lemma Level.Stands.mends {l : Level α} {nested : Cells α} {p : Part α} (h : l.Stands nested p)
    {first : ℕ} (hfirst : first ≤ l.saves) (pool : Pool α) :
    (l.block.cells.length < l.block.count + (l.holds - first) ∧ (∃ n, pool n = none) ∧
      mendArray pool l.block.cells l.block.count (l.block.count + (l.saves - first))
        (l.keeps + l.saves) (l.holds - l.saves) (l.block.count + (l.holds - first)) = some none) ∨
      ∃ items block, mendArray pool l.block.cells l.block.count
          (l.block.count + (l.saves - first)) (l.keeps + l.saves) (l.holds - l.saves)
          (l.block.count + (l.holds - first)) = some (some items) ∧
        (if l.saves - first ≠ 0 then
          copyCells items l.block.count nested (l.base + first) (l.saves - first)
        else some items) = some block ∧
        l.Mended nested p first ⟨block, l.block.count + (l.holds - first)⟩ nested := by
  have hholds := h.holds_eq
  have hsaves := h.saves_le
  have hroom := h.room_le
  have hnested := h.nested_le
  have hkept : (p.old.drop l.saves).length = l.holds - l.saves := by
    rw [List.length_drop, hholds]
  have hpassed : Held nested l.base (p.old.take first) := by
    have htake := h.moved.take first
    rwa [List.take_take, min_eq_left hfirst] at htake
  rcases mendArray_spec pool (l.block.count + (l.saves - first))
      (l.block.count + (l.holds - first)) h.made h.count_eq.symm h.still (by omega)
      h.sized.count_le (by omega) (by omega) with
    ⟨hgrows, hpool, hrefused⟩ | ⟨items, hitems, hmade, hstill, htotal, hle, hsize⟩
  · left
    rw [hkept] at hrefused
    exact ⟨hgrows, ⟨_, hpool⟩, hrefused⟩
  · right
    rw [hkept] at hitems
    -- the old children that follow the reading's: those that moved out, then those in place
    have hsplit : p.old.drop first =
        (p.old.take l.saves).drop first ++ p.old.drop l.saves := by
      have hdrop : (p.old.drop first).drop (l.saves - first) = p.old.drop l.saves := by
        rw [List.drop_drop, Nat.add_sub_cancel' hfirst]
      rw [List.drop_take, ← hdrop, List.take_append_drop]
    have hmovedlen : ((p.old.take l.saves).drop first).length = l.saves - first := by
      rw [List.length_drop, List.length_take_of_le (by omega)]
    have hmoved : Held nested (l.base + first) ((p.old.take l.saves).drop first) := by
      apply h.moved.drop
      rw [List.length_take_of_le (by omega)]
      exact hfirst
    have hcount : l.block.count = p.made.length := h.count_eq
    have hcountall : l.block.count + (l.holds - first) = (p.made ++ p.old.drop first).length := by
      rw [List.length_append, List.length_drop, hcount, hholds]
    have hsized : ∀ block : Cells α, block.length = items.length →
        (⟨block, l.block.count + (l.holds - first)⟩ : Children α).Sized := by
      intro block hblock
      constructor
      · show l.block.count + (l.holds - first) ≤ block.length
        omega
      · show block = [] ∨ ∃ k, block.length = 2 ^ (k + 1)
        rw [hblock]
        rcases hsize with hsame | hpow
        · rcases h.sized.room with hnil | hpow
          · left
            apply List.eq_nil_of_length_eq_zero
            rw [hblock, hsame, hnil, List.length_nil]
          · right
            rwa [hsame]
        · exact .inr hpow
    have hdone : ∀ block : Cells α, block.length = items.length → Held block 0 p.made →
        Held block l.block.count ((p.old.take l.saves).drop first) →
        Held block (l.block.count + (l.saves - first)) (p.old.drop l.saves) →
        l.Mended nested p first ⟨block, l.block.count + (l.holds - first)⟩ nested := by
      intro block hlength hfront hback hlast
      constructor
      · exact hcountall
      · rw [hsplit, ← List.append_assoc, Held.append_iff, Held.append_iff, Nat.zero_add,
          List.length_append, Nat.zero_add, hmovedlen, ← hcount]
        exact ⟨⟨hfront, hback⟩, hlast⟩
      · exact hsized block hlength
      · exact hpassed
      · rfl
      · intro j _
        rfl
    by_cases hmove : l.saves - first ≠ 0
    · obtain ⟨block, hblock, hcopied⟩ := copyCells_copied items nested l.block.count
        (l.base + first) (l.saves - first) (by omega) (by omega)
      refine ⟨items, block, hitems, by rw [if_pos hmove, hblock], ?_⟩
      apply hdone block hcopied.length_eq
      · exact hcopied.kept hmade (.inl (by omega))
      · exact hcopied.held hmoved hmovedlen.le
      · exact hcopied.kept hstill (.inr le_rfl)
    · refine ⟨items, items, hitems, if_neg hmove, ?_⟩
      have hnil : (p.old.take l.saves).drop first = [] := by
        apply List.eq_nil_of_length_eq_zero
        omega
      apply hdone items rfl hmade
      · rw [hnil]
        exact Held.nil
      · exact hstill

/-- Where the array has to grow, the reading made more than it passed, so that none of those it
passed is in place. -/
lemma Level.Stands.saves_of_grows {l : Level α} {nested : Cells α} {p : Part α}
    (h : l.Stands nested p) {first : ℕ} (hfirst : first ≤ l.holds)
    (hgrows : l.block.cells.length < l.block.count + (l.holds - first)) : first ≤ l.saves := by
  have hcount := h.count
  have hroom := h.room_le
  rcases h.own_le with hle | heq <;> omega

/-- The old children from `first` on come back after the block's, or nothing changes. -/
theorem Edit.nestMend_spec {e : Edit α} {level : ℕ} {l : Level α} {p : Part α}
    (hl : e.chain[level]? = some l) (h : l.Stands e.nested p) {first : ℕ} (hfirst : first ≤ l.holds)
    (pool : Pool α) :
    (e.nestMend pool level first = some (false, e) ∧ ∃ n, pool n = none) ∨
      ∃ block nested, e.nestMend pool level first = some (true, { e with
          nested, chain := e.chain.set level { l with block, saves := l.holds } }) ∧
        l.Mended e.nested p first block nested := by
  rw [nestMend, hl, Option.bind_some]
  by_cases hpassed : l.saves < first
  · -- some of those passed are still in place
    obtain ⟨out, hout, hcopied, hstands⟩ := h.stash (n := first - l.saves) (by omega)
    have hsaves : l.saves + (first - l.saves) = first := by omega
    rw [hsaves] at hstands
    rw [if_pos hpassed, hout]
    simp only [Option.map_some, Option.bind_some]
    have hmends := hstands.mends le_rfl pool
    simp only at hmends
    rcases hmends with ⟨hgrows, -⟩ | ⟨items, block, hitems, hblock, hmended⟩
    · have hle := h.saves_of_grows hfirst hgrows
      omega
    · right
      rw [hitems]
      simp only [Option.bind_some]
      rw [hblock]
      refine ⟨⟨block, l.block.count + (l.holds - first)⟩, out, by simp, ?_⟩
      have houtside : ∀ j, j < l.base ∨ l.base + l.holds ≤ j → out[j]? = e.nested[j]? := by
        intro j hj
        exact hcopied.outside j (by omega)
      exact { hmended with length_eq := hcopied.length_eq, outside := houtside }
  · rw [if_neg hpassed]
    simp only [Option.bind_some]
    have hle : first ≤ l.saves := Nat.le_of_not_lt hpassed
    rcases h.mends hle pool with ⟨-, hpool, hrefused⟩ | ⟨items, block, hitems, hblock, hmended⟩
    · left
      rw [hrefused]
      simp only [Option.bind_some, set_same hl]
      exact ⟨trivial, hpool⟩
    · right
      rw [hitems]
      simp only [Option.bind_some]
      rw [hblock]
      exact ⟨_, e.nested, by simp, hmended⟩

end MarkdownCore.Nest
