import MarkdownCore.Library.ProbeTable

/-!
# The hashed key index

An open-addressed index from byte keys to a word and a 32-bit number, by linear probing. A key new
to the index is entered and then committed; a removal fills the hole it leaves from the run after
it, so that no entry is ever marked deleted. The hash is a parameter, and storage a predicate on
the capacities it can provide.
-/

namespace MarkdownCore.KeyIndex

open Probe

abbrev Key := List UInt8

/-- `markdown_core_key_index_slot`. A slot with no key is vacant, whatever its other fields. -/
structure Slot where
  hash : ℕ
  key : Option Key
  keyLen : ℕ
  extra : ℕ
  value : ℕ
  deriving DecidableEq, Repr

/-- The slot of fresh storage. -/
def Slot.zero : Slot := ⟨0, none, 0, 0, 0⟩

/-- `markdown_core_key_index`. Its capacity is the number of its slots. -/
structure Index where
  slots : List Slot
  size : ℕ
  deriving DecidableEq, Repr

def sizeMax : ℕ := 2 ^ 64 - 1

/-- `sizeof(markdown_core_key_index_slot)`. -/
def slotSize : ℕ := 32

/-- `KEY_INDEX_MIN_CAPACITY`. -/
def minCapacity : ℕ := 16

section Slots

variable (slots : List Slot)

def slotAt (i : ℕ) : Slot := slots.getD i .zero

def wrap (n : ℕ) : ℕ := n &&& (slots.length - 1)

/-- The slot holds the key of a hash. -/
def Slot.matches (slot : Slot) (hash : ℕ) (key : Key) : Bool :=
  slot.hash == hash && slot.keyLen == key.length &&
    slot.key.any fun held => held.take key.length == key

/-- The loop of `find_key_slot`. -/
def findFrom (hash : ℕ) (key : Key) : ℕ → ℕ → Option ℕ
  | 0, _ => none
  | fuel + 1, position =>
    if (slotAt slots position).key = none ∨ (slotAt slots position).matches hash key then
      some position
    else findFrom hash key fuel (wrap slots (position + 1))

/-- `find_key_slot`. -/
def findKeySlot (hash : ℕ) (key : Key) : Option ℕ :=
  findFrom slots hash key slots.length (wrap slots hash)

/-- A difference of two sizes, in 64 bits. -/
def sizeSub (a b : ℕ) : ℕ := (a + 2 ^ 64 - b) % 2 ^ 64

/-- The loop of `markdown_core_key_index_remove`: the slots, and where the hole ends. -/
def removeFrom (slots : List Slot) : ℕ → ℕ → ℕ → List Slot × ℕ
  | 0, hole, _ => (slots, hole)
  | fuel + 1, hole, next =>
    if (slotAt slots next).key = none then (slots, hole)
    else
      let home := wrap slots (slotAt slots next).hash
      if wrap slots (sizeSub next hole) ≤ wrap slots (sizeSub next home) then
        removeFrom (slots.set hole (slotAt slots next)) fuel next (wrap slots (next + 1))
      else removeFrom slots fuel hole (wrap slots (next + 1))

/-- Every entry of a row of slots put where the row of new slots has room for it, as `S_rehash`
does. -/
def moveAll (slots : List Slot) : List Slot → Option (List Slot)
  | [] => some slots
  | source :: old =>
    match source.key with
    | none => moveAll slots old
    | some key =>
      (findKeySlot slots source.hash (key.take source.keyLen)).bind fun destination =>
        moveAll (slots.set destination source) old

end Slots

/-- The doubling of `S_capacity_for`. -/
def doubled (size : ℕ) : ℕ → ℕ → Option ℕ
  | 0, _ => none
  | fuel + 1, capacity =>
    if capacity < size * 2 then
      if sizeMax / 2 < capacity then none else doubled size fuel (capacity * 2)
    else some capacity

/-- `S_capacity_for`. -/
def capacityFor (size : ℕ) : Option ℕ :=
  if sizeMax / 2 < size then none
  else
    (doubled size 64 minCapacity).bind fun capacity =>
      if capacity ≤ sizeMax / slotSize then some capacity else none

namespace Index

variable (hashKey : Key → ℕ) (storage : ℕ → Bool)

def capacity (index : Index) : ℕ := index.slots.length

def empty : Index := ⟨[], 0⟩

/-- `S_rehash`. -/
def rehash (index : Index) (capacity : ℕ) : Option Index :=
  if storage capacity then
    (moveAll (List.replicate capacity .zero) index.slots).map fun slots => { index with slots }
  else none

/-- `markdown_core_key_index_reserve`. -/
def reserve (index : Index) (size : ℕ) : Option Index :=
  if size = 0 then some index
  else
    (capacityFor size).bind fun capacity =>
      if capacity ≤ index.capacity then some index else index.rehash storage capacity

/-- The vacant slot a key is entered in: its hash and its length are written. -/
def enter (index : Index) (position hash : ℕ) (key : Key) : Index :=
  { index with
    slots := index.slots.set position
      { slotAt index.slots position with hash, keyLen := key.length } }

/-- `markdown_core_key_index_entry`, past the first storage of an index. -/
def entryIn (index : Index) (key : Key) : Index × Option ℕ :=
  match findKeySlot index.slots (hashKey key) key with
  | none => (index, none)
  | some position =>
    if (slotAt index.slots position).key ≠ none then (index, some position)
    else if index.capacity / 2 < index.size + 1 then
      match index.reserve storage (index.size + 1) with
      | none => (index, none)
      | some index =>
        match findKeySlot index.slots (hashKey key) key with
        | none => (index, none)
        | some position => (index.enter position (hashKey key) key, some position)
    else (index.enter position (hashKey key) key, some position)

/-- `markdown_core_key_index_entry`. -/
def entry (index : Index) (key : Key) : Index × Option ℕ :=
  if index.capacity = 0 then
    match index.reserve storage 1 with
    | none => (index, none)
    | some index => index.entryIn hashKey storage key
  else index.entryIn hashKey storage key

/-- `markdown_core_key_index_commit`, of an entry whose value and number the caller has written. -/
def commit (index : Index) (position : ℕ) (key : Key) (value extra : ℕ) : Index :=
  { slots := index.slots.set position
      { slotAt index.slots position with key := some key, value, extra }
    size := index.size + 1 }

/-- `markdown_core_key_index_find`. -/
def find (index : Index) (key : Key) : Option ℕ :=
  if index.capacity = 0 then none
  else
    (findKeySlot index.slots (hashKey key) key).filter fun position =>
      (slotAt index.slots position).key.isSome

/-- `markdown_core_key_index_remove`. -/
def remove (index : Index) (position : ℕ) : Index :=
  let moved := removeFrom index.slots index.slots.length position (wrap index.slots (position + 1))
  { slots := moved.1.set moved.2 .zero, size := index.size - 1 }

end Index

/-! ### The entries of the slots -/

/-- What an occupied slot holds. -/
structure Entry where
  key : Key
  value : ℕ
  extra : ℕ
  deriving DecidableEq, Repr

def Slot.entry (slot : Slot) : Option Entry := slot.key.map fun key => ⟨key, slot.value, slot.extra⟩

def view (slots : List Slot) : Table Entry := slots.map Slot.entry

def keys (hashKey : Key → ℕ) : Keys Entry Key := ⟨Entry.key, hashKey⟩

@[simp] lemma keys_key (hashKey : Key → ℕ) (e : Entry) : (keys hashKey).key e = e.key := rfl

@[simp] lemma keys_hash (hashKey : Key → ℕ) (key : Key) : (keys hashKey).hash key = hashKey key :=
  rfl

/-- An occupied slot holds the hash and the length of its key, and a vacant one zero in both the
value and the number. -/
structure Slot.Sound (hashKey : Key → ℕ) (slot : Slot) : Prop where
  occupied : ∀ key, slot.key = some key → slot.hash = hashKey key ∧ slot.keyLen = key.length
  vacant : slot.key = none → slot.value = 0 ∧ slot.extra = 0

section

variable {hashKey : Key → ℕ} {slots : List Slot} {slot : Slot} {key : Key}

@[simp] lemma entry_zero : Slot.zero.entry = none := rfl

lemma sound_zero : Slot.zero.Sound hashKey where
  occupied _ h := absurd h (by simp [Slot.zero])
  vacant _ := ⟨rfl, rfl⟩

@[simp] lemma view_cons (slot : Slot) (slots : List Slot) :
    view (slot :: slots) = slot.entry :: view slots := rfl

@[simp] lemma length_view (slots : List Slot) : (view slots).length = slots.length :=
  List.length_map _

lemma slot_view (slots : List Slot) (i : ℕ) : (view slots).slot i = (slotAt slots i).entry := by
  simp only [Table.slot, view, slotAt, List.getD_eq_getElem?_getD, List.getElem?_map]
  cases slots[i]? with
  | none => rfl
  | some slot => rfl

lemma view_set (slots : List Slot) (i : ℕ) (slot : Slot) :
    view (slots.set i slot) = (view slots).set i slot.entry := List.map_set

lemma wrap_view (slots : List Slot) (n : ℕ) : (view slots).wrap n = wrap slots n := by
  rw [Table.wrap, wrap, length_view]

lemma view_replicate (n : ℕ) : view (List.replicate n .zero) = List.replicate n none :=
  List.map_replicate

lemma entry_eq_none_iff : slot.entry = none ↔ slot.key = none := Option.map_eq_none_iff

lemma slotAt_set (slots : List Slot) (i j : ℕ) (slot : Slot) :
    slotAt (slots.set i slot) j = if i = j ∧ i < slots.length then slot else slotAt slots j := by
  simp only [slotAt, List.getD_eq_getElem?_getD, List.getElem?_set]
  by_cases hij : i = j
  · subst hij
    by_cases hi : i < slots.length
    · simp [hi]
    · simp [hi]
  · simp [hij]

/-- Every slot of a row is sound. -/
def Sound (hashKey : Key → ℕ) (slots : List Slot) : Prop := ∀ slot ∈ slots, slot.Sound hashKey

lemma Sound.slotAt (h : Sound hashKey slots) (i : ℕ) : (slotAt slots i).Sound hashKey := by
  rw [KeyIndex.slotAt, List.getD_eq_getElem?_getD]
  cases hi : slots[i]? with
  | none => exact sound_zero
  | some slot => exact h slot (List.mem_of_getElem? hi)

lemma Sound.set (h : Sound hashKey slots) (i : ℕ) (hslot : slot.Sound hashKey) :
    Sound hashKey (slots.set i slot) := by
  intro other hother
  rcases List.mem_or_eq_of_mem_set hother with hin | rfl
  · exact h other hin
  · exact hslot

lemma sound_replicate (n : ℕ) : Sound hashKey (List.replicate n .zero) := by
  intro slot hslot
  rw [List.eq_of_mem_replicate hslot]
  exact sound_zero

/-- A sound slot that is not vacant matches its own key, and no other. -/
lemma Slot.Sound.matches_iff (h : slot.Sound hashKey) {held : Key} (hheld : slot.key = some held) :
    slot.matches (hashKey key) key = true ↔ hashKey held = hashKey key ∧ held = key := by
  obtain ⟨hhash, hlen⟩ := h.occupied held hheld
  rw [Slot.matches, hheld, hhash, hlen]
  simp only [Bool.and_eq_true, beq_iff_eq, Option.any_some]
  constructor
  · rintro ⟨⟨h₁, h₂⟩, h₃⟩
    rw [← h₂, List.take_length] at h₃
    exact ⟨h₁, h₃⟩
  · rintro ⟨-, rfl⟩
    exact ⟨⟨rfl, rfl⟩, List.take_length⟩

/-! ### Finding a slot -/

/-- The slot found is the one the probe of the entries ends at. -/
lemma probeFrom_of_findFrom (h : Sound hashKey slots) {fuel position found : ℕ}
    (hfound : findFrom slots (hashKey key) key fuel position = some found) :
    Table.probeFrom (keys hashKey) (view slots) key fuel position = found := by
  induction fuel generalizing position with
  | zero => exact absurd hfound (by simp [findFrom])
  | succ fuel ih =>
    rw [findFrom] at hfound
    rw [Table.probeFrom, slot_view, wrap_view, Slot.entry]
    cases hkey : (slotAt slots position).key with
    | none =>
      rw [if_pos (Or.inl hkey)] at hfound
      exact Option.some.inj hfound
    | some held =>
      have hmatches : (slotAt slots position).matches (hashKey key) key = true ↔
          hashKey held = hashKey key ∧ held = key := (h.slotAt position).matches_iff hkey
      rw [hkey] at hfound
      simp only [reduceCtorEq, false_or, hmatches] at hfound
      rw [Option.map_some]
      dsimp only
      split at hfound
      next hand => exact (if_pos hand).trans (Option.some.inj hfound)
      next hand => exact (if_neg hand).trans (ih hfound)

/-- With a slot vacant the search ends. -/
lemma findFrom_isSome (hpower : ∃ m, (view slots).length = 2 ^ m) {hash e fuel position : ℕ}
    (he : e < slots.length) (hempty : (slotAt slots e).key = none)
    (hposition : position < slots.length)
    (hfuel : Table.steps slots.length position e < fuel) :
    ∃ found, findFrom slots hash key fuel position = some found := by
  induction fuel generalizing position with
  | zero => exact absurd hfuel (Nat.not_lt_zero _)
  | succ fuel ih =>
    rw [findFrom]
    split
    · exact ⟨_, rfl⟩
    next hgo =>
      have hne : position ≠ e := by
        rintro rfl
        exact hgo (Or.inl hempty)
      have hstep := Table.steps_wrap_succ hpower (by rwa [length_view]) (by rwa [length_view]) hne
      have hlt := Table.wrap_lt hpower (position + 1)
      rw [length_view, wrap_view] at hstep hlt
      exact ih hlt (by omega)

/-- A search for a key of its own hash ends at the slot its probe ends at. -/
lemma findKeySlot_eq (h : Sound hashKey slots) (hpower : ∃ m, (view slots).length = 2 ^ m)
    (hroom : (view slots).Room) (key : Key) :
    findKeySlot slots (hashKey key) key = some ((view slots).probe (keys hashKey) key) := by
  obtain ⟨e, he, hempty⟩ := hroom
  rw [length_view] at he
  rw [slot_view, entry_eq_none_iff] at hempty
  have hlt := Table.wrap_lt hpower (hashKey key)
  rw [length_view, wrap_view] at hlt
  have hsteps := Table.steps_cases slots.length (wrap slots (hashKey key)) e
  have hends : ∃ found, findFrom slots (hashKey key) key slots.length
      (wrap slots (hashKey key)) = some found :=
    findFrom_isSome hpower he hempty hlt (by omega)
  obtain ⟨found, hfound⟩ := hends
  rw [findKeySlot, hfound, Table.probe, length_view, wrap_view]
  exact congrArg some (probeFrom_of_findFrom h hfound).symm

end

end MarkdownCore.KeyIndex
