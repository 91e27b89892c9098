import MarkdownCore.Nest.ChildrenRun

/-!
# The chain through a reading

Each event of a reading makes of the chain's blocks what it makes of lists (`Reading.step`), or
fails for want of storage. The old children of the blocks stand apart in the edit's room, so what
moves out of one leaves the others as they were.
-/

namespace MarkdownCore.Nest

open Storage

variable {α : Type*}

/-! ### Readings of lists -/

/-- The parts of the chain's blocks, and the level of the one the reading writes, none when it is
the root. -/
structure Reading (α : Type*) where
  parts : List (Part α)
  level : Option ℕ

namespace Reading

def below : ℕ → Option ℕ
  | 0 => none
  | level + 1 => some level

/-- The reading's children after an event; none when it names a child the reading did not make. -/
def own (own : List α) : Event α → Option (List α)
  | .settle _ node => some (own ++ [node])
  | .settleBefore _ node => own.getLast?.map fun last => own.dropLast ++ [node, last]
  | .leave => if own.isEmpty then none else some own.dropLast
  | .close => some own

def step (r : Reading α) (event : Event α) : Option (Reading α) :=
  r.level.bind fun level => r.parts[level]?.bind fun p =>
    (own p.own event).map fun own =>
      { parts := r.parts.set level { p with own }
        level := match event with
          | .close => below level
          | _ => some level }

def read (r : Reading α) : List (Event α) → Option (Reading α)
  | [] => some r
  | event :: events => (r.step event).bind (·.read events)

end Reading

/-! ### The chain's blocks -/

/-- The blocks stand as their parts say, each with its own part of the room. -/
structure Edit.Parts (e : Edit α) (parts : List (Part α)) : Prop where
  length_eq : e.chain.length = parts.length
  stands : ∀ (i : ℕ) (l : Level α) (p : Part α), e.chain[i]? = some l → parts[i]? = some p → l.Stands e.nested p
  apart : ∀ (i j : ℕ) (a b : Level α), e.chain[i]? = some a → e.chain[j]? = some b → i < j →
    b.base + b.holds ≤ a.base

/-- The chain stands as the reading of its lists says: nothing of the blocks above the one that
holds the room was written over, and nothing old of those below is in place. -/
structure Edit.Stands (e : Edit α) (r : Reading α) : Prop extends e.Parts r.parts where
  level_eq : e.roomLevel = r.level
  level_lt : ∀ level, r.level = some level → level < e.chain.length
  above : ∀ level, r.level = some level → ∀ i < level, ∀ (l : Level α) (p : Part α),
    e.chain[i]? = some l → r.parts[i]? = some p → l.saves = 0 ∧ p.own = []
  below : ∀ (i : ℕ) (l : Level α), (∀ level, r.level = some level → level < i) → e.chain[i]? = some l →
    l.saves = l.holds
  roomAt_eq : ∀ level (l : Level α), r.level = some level → e.chain[level]? = some l →
    e.roomAt = if l.saves < l.holds then some (l.keeps + l.saves) else none

/-- What a list holds at a place after another was set there. -/
lemma getElem?_set_cases {β : Type*} {xs : List β} {i j : ℕ} {x y : β}
    (h : (xs.set i x)[j]? = some y) : (i = j ∧ y = x) ∨ (i ≠ j ∧ xs[j]? = some y) := by
  rw [List.getElem?_set] at h
  split at h
  · left
    split at h
    · exact ⟨‹_›, (Option.some.inj h).symm⟩
    · cases h
  · exact .inr ⟨‹_›, h⟩

namespace Edit.Parts

variable {e : Edit α} {parts : List (Part α)}

/-- One block changes, and its own part of the room with it. -/
lemma set (h : e.Parts parts) {level : ℕ} {l l' : Level α} {p' : Part α} {nested : Cells α}
    (hl : e.chain[level]? = some l) (hbase : l'.base = l.base) (hholds : l'.holds = l.holds)
    (hlength : nested.length = e.nested.length)
    (houtside : ∀ j, j < l.base ∨ l.base + l.holds ≤ j → nested[j]? = e.nested[j]?)
    (hstands : l'.Stands nested p') {roomLevel roomAt : Option ℕ} :
    ({ e with nested, chain := e.chain.set level l', roomLevel, roomAt } : Edit α).Parts
      (parts.set level p') := by
  constructor
  · simp only [List.length_set]
    exact h.length_eq
  · intro i a p ha hp
    rcases getElem?_set_cases ha with ⟨rfl, rfl⟩ | ⟨hne, ha⟩
    · rcases getElem?_set_cases hp with ⟨-, rfl⟩ | ⟨hne, -⟩
      · exact hstands
      · exact absurd rfl hne
    · rcases getElem?_set_cases hp with ⟨heq, -⟩ | ⟨-, hp⟩
      · exact absurd heq hne
      · apply (h.stands i a p ha hp).frame hlength
        intro j hge hlt
        apply houtside
        rcases Nat.lt_or_gt_of_ne hne with hlt' | hgt
        · have hapart := h.apart level i l a hl ha hlt'
          omega
        · have hapart := h.apart i level a l ha hl hgt
          omega
  · intro i j a b ha hb hij
    rcases getElem?_set_cases ha with ⟨rfl, rfl⟩ | ⟨-, ha'⟩
    · rcases getElem?_set_cases hb with ⟨heq, -⟩ | ⟨-, hb'⟩
      · omega
      · rw [hbase]
        exact h.apart _ j l b hl hb' hij
    · rcases getElem?_set_cases hb with ⟨rfl, rfl⟩ | ⟨-, hb'⟩
      · rw [hbase, hholds]
        exact h.apart i _ a l ha' hl hij
      · exact h.apart i j a b ha' hb' hij

end Edit.Parts

namespace Edit.Stands

variable {e : Edit α} {r : Reading α}

lemma part_of_level (h : e.Stands r) {level : ℕ} (hlevel : r.level = some level) :
    ∃ l p, e.chain[level]? = some l ∧ r.parts[level]? = some p ∧ l.Stands e.nested p := by
  have hlt := h.level_lt level hlevel
  have hlt' : level < r.parts.length := by rwa [← h.length_eq]
  have hl : e.chain[level]? = some e.chain[level] := List.getElem?_eq_getElem hlt
  have hp : r.parts[level]? = some r.parts[level] := List.getElem?_eq_getElem hlt'
  exact ⟨_, _, hl, hp, h.stands level _ _ hl hp⟩

/-- The block that holds the room changes. -/
lemma set (h : e.Stands r) {level : ℕ} (hlevel : r.level = some level) {l l' : Level α}
    {p' : Part α} {nested : Cells α} (hl : e.chain[level]? = some l) (hbase : l'.base = l.base)
    (hholds : l'.holds = l.holds) (hlength : nested.length = e.nested.length)
    (houtside : ∀ j, j < l.base ∨ l.base + l.holds ≤ j → nested[j]? = e.nested[j]?)
    (hstands : l'.Stands nested p') (roomAt : Option ℕ)
    (hroomAt : roomAt = if l'.saves < l'.holds then some (l'.keeps + l'.saves) else none) :
    ({ e with nested, chain := e.chain.set level l', roomAt } : Edit α).Stands
      { r with parts := r.parts.set level p' } := by
  refine ⟨h.toParts.set hl hbase hholds hlength houtside hstands, h.level_eq, ?_, ?_, ?_, ?_⟩
  · intro i hi
    simp only [List.length_set]
    exact h.level_lt i hi
  · intro i hi j hj a p ha hp
    have hi : level = i := Option.some.inj (hlevel.symm.trans hi)
    rcases getElem?_set_cases ha with ⟨heq, -⟩ | ⟨-, ha⟩
    · omega
    · rcases getElem?_set_cases hp with ⟨heq, -⟩ | ⟨-, hp⟩
      · omega
      · exact h.above i (hi ▸ hlevel) j hj a p ha hp
  · intro i a hi ha
    have hlt := hi level hlevel
    rcases getElem?_set_cases ha with ⟨heq, -⟩ | ⟨-, ha⟩
    · omega
    · exact h.below i a hi ha
  · intro i a hi ha
    have hi : level = i := Option.some.inj (hlevel.symm.trans hi)
    subst hi
    rcases getElem?_set_cases ha with ⟨-, rfl⟩ | ⟨hne, -⟩
    · exact hroomAt
    · exact absurd rfl hne

lemma set_part (r : Reading α) {level : ℕ} {p : Part α} (hp : r.parts[level]? = some p) :
    r.parts.set level p = r.parts := by
  apply List.ext_getElem?
  intro i
  rw [List.getElem?_set]
  split
  · subst_vars
    rw [hp, if_pos (List.getElem?_eq_some_iff.mp hp).1]
  · rfl

/-- Before the block takes a child, the old one in its place moves out. -/
lemma tailRoom (h : e.Stands r) {level : ℕ} (hlevel : r.level = some level) {p : Part α}
    (hp : r.parts[level]? = some p) :
    ∃ e' l, e.tailRoom level = some e' ∧ e'.chain[level]? = some l ∧ e'.Stands r ∧
      (p.own.length < l.saves ∨ l.saves = l.holds) := by
  obtain ⟨l, q, hl, hq, hstands⟩ := h.part_of_level hlevel
  cases Option.some.inj (hp.symm.trans hq)
  have hroomAt := h.roomAt_eq level l hlevel hl
  have hcount := hstands.count
  have hsaves := hstands.saves_le
  rw [Edit.tailRoom, hl, Option.bind_some]
  by_cases hroom : e.roomAt = some l.block.count ∧ e.roomLevel = some level
  · -- an old child stands where the next one goes
    rw [if_pos hroom, tailStash, hl, Option.bind_some]
    have hlt : l.saves < l.holds ∧ l.keeps + l.saves = l.block.count := by
      rw [hroomAt] at hroom
      split at hroom
      · exact ⟨‹_›, Option.some.inj hroom.1⟩
      · cases hroom.1
    obtain ⟨out, hout, hcopied, hstashed⟩ := hstands.stash (n := 1) hlt.1
    have hroom' : e.roomAt = some (l.keeps + l.saves) := by rw [hroom.1, hlt.2]
    rw [hroom', Option.bind_some, hout]
    have houtside : ∀ j, j < l.base ∨ l.base + l.holds ≤ j → out[j]? = e.nested[j]? := by
      intro j hj
      exact hcopied.outside j (by omega)
    have hset := @set _ _ _ h level hlevel l { l with saves := l.saves + 1 } p out hl rfl rfl
      hcopied.length_eq houtside hstashed
      (if l.saves + 1 < l.holds then some (l.keeps + l.saves + 1) else none) rfl
    rw [set_part r hp] at hset
    refine ⟨_, { l with saves := l.saves + 1 }, rfl, ?_, hset, .inl ?_⟩
    · rw [List.getElem?_set_self (List.getElem?_eq_some_iff.mp hl).1]
    · show p.own.length < l.saves + 1
      omega
  · rw [if_neg hroom]
    refine ⟨e, l, rfl, hl, h, ?_⟩
    rcases hstands.own_le with hle | heq
    · rcases Nat.lt_or_ge l.saves l.holds with hlt | hge
      · left
        rw [if_pos hlt] at hroomAt
        apply lt_of_le_of_ne hle
        intro heq
        apply hroom
        rw [hroomAt, hcount, heq]
        exact ⟨rfl, h.level_eq.trans hlevel⟩
      · exact .inr (le_antisymm hsaves hge)
    · exact .inr heq

/-- A child put among the block's, once the room for it is made. -/
lemma puts (h : e.Stands r) {level : ℕ} (hlevel : r.level = some level) {p : Part α}
    (hp : r.parts[level]? = some p) {put : Children α → Option (Bool × Children α)}
    {own : List α} (hown : own.length = p.own.length + 1)
    (hput : ∀ c : Children α, c.Sized → Held c.cells 0 p.made → c.count = p.made.length →
      put c = some (false, c) ∨ ∃ c', put c = some (true, c') ∧ c.Took c' (p.kept ++ own)) :
    ∃ done e', e.puts put level = some (done, e') ∧
      (done = true → e'.Stands { r with parts := r.parts.set level { p with own } }) := by
  obtain ⟨e', l, he', hl, h', hroom⟩ := h.tailRoom hlevel hp
  have hstands := h'.stands level l p hl hp
  rw [Edit.puts, he', Option.bind_some, hl, Option.bind_some]
  rcases hput l.block hstands.sized hstands.made hstands.count_eq with
    hrefused | ⟨block, htook, hmade⟩
  · rw [hrefused]
    exact ⟨false, _, rfl, by simp⟩
  · rw [htook]
    refine ⟨true, _, rfl, ?_⟩
    intro _
    exact @set _ _ _ h' level hlevel l { l with block } _ e'.nested hl rfl rfl rfl
      (fun j _ => rfl) (hstands.puts hroom hown hmade) e'.roomAt (h'.roomAt_eq level l hlevel hl)

/-- The reading's last child leaves the block. -/
lemma leave (h : e.Stands r) {level : ℕ} (hlevel : r.level = some level) {kept own old : List α}
    {last : α} (hp : r.parts[level]? = some ⟨kept, own ++ [last], old⟩) :
    ∃ e', e.leave level = some e' ∧
      e'.Stands { r with parts := r.parts.set level ⟨kept, own, old⟩ } := by
  obtain ⟨l, q, hl, hq, hstands⟩ := h.part_of_level hlevel
  cases Option.some.inj (hp.symm.trans hq)
  obtain ⟨block, hblock, hleft⟩ := hstands.leaves
  rw [Edit.leave, hl, Option.bind_some, hblock]
  refine ⟨_, rfl, ?_⟩
  exact @set _ _ _ h level hlevel l { l with block } _ e.nested hl rfl rfl rfl
    (fun j _ => rfl) hleft e.roomAt (h.roomAt_eq level l hlevel hl)

/-- The block's old children in place move out as it closes. -/
lemma roomUp_moves (h : e.Stands r) {level : ℕ} (hlevel : r.level = some level) :
    ∃ l p nested, e.chain[level]? = some l ∧ r.parts[level]? = some p ∧
      (if l.saves < l.holds then
        (copyCells e.nested (l.base + l.saves) l.block.cells (l.keeps + l.saves)
          (l.holds - l.saves)).map fun nested =>
            { e with nested, chain := e.chain.set level { l with saves := l.holds } }
      else some e) =
        some { e with nested, chain := e.chain.set level { l with saves := l.holds } } ∧
      nested.length = e.nested.length ∧
      (∀ j, j < l.base ∨ l.base + l.holds ≤ j → nested[j]? = e.nested[j]?) ∧
      ({ l with saves := l.holds } : Level α).Stands nested p := by
  obtain ⟨l, p, hl, hp, hstands⟩ := h.part_of_level hlevel
  have hsaves := hstands.saves_le
  by_cases hlt : l.saves < l.holds
  · obtain ⟨out, hout, hcopied, hstashed⟩ := hstands.stash (n := l.holds - l.saves) (by omega)
    have hall : l.saves + (l.holds - l.saves) = l.holds := by omega
    rw [hall] at hstashed
    refine ⟨l, p, out, hl, hp, ?_, hcopied.length_eq, ?_, hstashed⟩
    · rw [if_pos hlt, hout]
      rfl
    · intro j hj
      exact hcopied.outside j (by omega)
  · have heq : ({ l with saves := l.holds } : Level α) = l := by
      have hall : l.holds = l.saves := by omega
      exact congrArg (fun saves => ({ l with saves } : Level α)) hall
    refine ⟨l, p, e.nested, hl, hp, ?_, rfl, fun j _ => rfl, ?_⟩
    · rw [if_neg hlt, heq, set_same hl]
    · rwa [heq]

/-- The block that holds the room closes, and the one above holds it. -/
lemma roomUp (h : e.Stands r) {level : ℕ} (hlevel : r.level = some level) :
    ∃ e', e.roomUp level = some e' ∧
      e'.Stands { parts := r.parts, level := Reading.below level } := by
  obtain ⟨l, p, nested, hl, hp, hmoves, hlength, houtside, hstands⟩ := h.roomUp_moves hlevel
  have hparts : ∀ roomLevel roomAt, ({ e with
      nested, chain := e.chain.set level { l with saves := l.holds }, roomLevel, roomAt } :
        Edit α).Parts r.parts := by
    intro roomLevel roomAt
    have hset := @Parts.set _ _ _ h.toParts level l { l with saves := l.holds } p nested hl rfl rfl
      hlength houtside hstands roomLevel roomAt
    rwa [set_part r hp] at hset
  have hlt := h.level_lt level hlevel
  -- below the block that holds the room now everything moved out
  have hbelow : ∀ i (a : Level α), level ≤ i →
      (e.chain.set level { l with saves := l.holds })[i]? = some a → a.saves = a.holds := by
    intro i a hi ha
    rcases getElem?_set_cases ha with ⟨-, rfl⟩ | ⟨hne, ha⟩
    · rfl
    · apply h.below i a ?_ ha
      intro level' hlevel'
      have heq : level = level' := Option.some.inj (hlevel.symm.trans hlevel')
      omega
  rw [Edit.roomUp, hl, Option.bind_some, hmoves, Option.bind_some]
  cases level with
  | zero =>
    refine ⟨_, rfl, hparts _ _, rfl, ?_, ?_, ?_, ?_⟩
    · intro level' hlevel'
      cases hlevel'
    · intro level' hlevel'
      cases hlevel'
    · intro i a _ ha
      exact hbelow i a (Nat.zero_le i) ha
    · intro level' a hlevel'
      cases hlevel'
  | succ level =>
    have habove : (e.chain.set (level + 1) { l with saves := l.holds })[level]? =
        some e.chain[level] := by
      rw [List.getElem?_set_ne (by omega), List.getElem?_eq_getElem]
    simp only [habove, Option.map_some]
    refine ⟨_, rfl, hparts _ _, rfl, ?_, ?_, ?_, ?_⟩
    · intro level' hlevel'
      cases hlevel'
      simp only [List.length_set]
      omega
    · intro level' hlevel' i hi a q ha hq
      cases hlevel'
      rcases getElem?_set_cases ha with ⟨heq, -⟩ | ⟨-, ha⟩
      · omega
      · exact h.above (level + 1) hlevel i (by omega) a q ha hq
    · intro i a hi ha
      exact hbelow i a (hi level rfl) ha
    · intro level' a hlevel' ha
      cases hlevel'
      have heq : e.chain[level] = a := Option.some.inj (habove.symm.trans ha)
      have hlt' : level < r.parts.length := by
        rw [← h.length_eq]
        omega
      have hzero := (h.above (level + 1) hlevel level (by omega) e.chain[level] r.parts[level]
        (List.getElem?_eq_getElem _) (List.getElem?_eq_getElem _)).1
      rw [heq] at hzero
      simp only [heq, hzero, Nat.add_zero, Nat.pos_iff_ne_zero]

/-- One event makes of the chain what it makes of the lists, or fails for want of storage. -/
theorem step (h : e.Stands r) {event : Event α} {r' : Reading α} (hr' : r.step event = some r') :
    ∃ done e', e.step event = some (done, e') ∧ (done = true → e'.Stands r') := by
  rw [Reading.step] at hr'
  obtain ⟨level, hlevel, hr'⟩ := Option.bind_eq_some_iff.mp hr'
  obtain ⟨p, hp, hr'⟩ := Option.bind_eq_some_iff.mp hr'
  obtain ⟨own, hown, rfl⟩ := Option.map_eq_some_iff.mp hr'
  rw [Edit.step, h.level_eq, hlevel, Option.bind_some]
  cases event with
  | settle pool node =>
    cases Option.some.inj hown
    rw [← hlevel]
    apply h.puts hlevel hp (by simp)
    intro c hsized hmade hcount
    rw [← List.append_assoc]
    exact hsized.push hmade hcount pool node
  | settleBefore pool node =>
    obtain ⟨last, hlast, rfl⟩ := Option.map_eq_some_iff.mp hown
    have hne : p.own ≠ [] := by
      intro hnil
      simp [hnil] at hlast
    have hsplit : p.own.dropLast ++ [last] = p.own := by
      rw [List.getLast?_eq_some_getLast hne] at hlast
      rw [← Option.some.inj hlast, List.dropLast_concat_getLast]
    rw [← hlevel]
    apply h.puts hlevel hp
    · conv_rhs => rw [← hsplit]
      simp
    · intro c hsized hmade hcount
      rw [Part.made, ← hsplit, ← List.append_assoc] at hmade hcount
      rw [← List.append_assoc]
      exact hsized.insertBeforeLast hmade hcount pool node
  | leave =>
    rw [Reading.own] at hown
    split at hown
    · cases hown
    next hne =>
      cases Option.some.inj hown
      have hne : p.own ≠ [] := by simpa using hne
      have hp' : r.parts[level]? =
          some ⟨p.kept, p.own.dropLast ++ [p.own.getLast hne], p.old⟩ := by
        rw [hp, List.dropLast_concat_getLast]
      obtain ⟨e', he', hstands⟩ := h.leave hlevel hp'
      refine ⟨true, e', by simp [he'], ?_⟩
      intro _
      rw [← hlevel]
      exact hstands
  | close =>
    cases Option.some.inj hown
    obtain ⟨e', he', hstands⟩ := h.roomUp hlevel
    refine ⟨true, e', by simp [he'], ?_⟩
    intro _
    rw [show r.parts.set level { p with own := p.own } = r.parts from set_part r hp]
    exact hstands

/-- A reading makes of the chain what it makes of the lists, or fails for want of storage. -/
theorem read {events : List (Event α)} {e : Edit α} {r r' : Reading α} (h : e.Stands r)
    (hr' : r.read events = some r') :
    ∃ done e', e.read events = some (done, e') ∧ (done = true → e'.Stands r') := by
  induction events generalizing e r with
  | nil =>
    cases Option.some.inj hr'
    exact ⟨true, e, rfl, fun _ => h⟩
  | cons event events ih =>
    rw [Reading.read] at hr'
    obtain ⟨next, hnext, hr'⟩ := Option.bind_eq_some_iff.mp hr'
    obtain ⟨done, e', he', hstands⟩ := h.step hnext
    rw [Edit.read, he', Option.bind_some]
    cases done with
    | false => exact ⟨false, e', rfl, by simp⟩
    | true =>
      rw [if_pos rfl]
      exact ih (hstands rfl) hr'

end Edit.Stands

end MarkdownCore.Nest
