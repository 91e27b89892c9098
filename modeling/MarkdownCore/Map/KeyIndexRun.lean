import Mathlib.Data.Finset.Card
import MarkdownCore.Library.History
import MarkdownCore.Map.KeyIndex

/-!
# The hashed key index as a map

What the index holds after a run is read off the keys committed and removed in it
(`Index.map_of_run`). The slots hold a probed table of entries (`Index.Good`), of which every call
is one of the table's operations.
-/

namespace MarkdownCore.KeyIndex

open Probe

variable {hashKey : Key → ℕ} {slots : List Slot} {index : Index}

/-! ### Removing -/

/-- A difference of two places, taken in 64 bits and masked, is the way from one to the other. -/
lemma wrap_sizeSub {n i j : ℕ} (hpower : ∃ m, (view slots).length = 2 ^ m)
    (hn : n = slots.length) (hbounded : n ≤ 2 ^ 59) (hi : i < n) (hj : j < n) :
    wrap slots (sizeSub j i) = Table.steps n i j := by
  have hlength : (view slots).length = n := (length_view slots).trans hn.symm
  rw [← wrap_view, Table.wrap_eq hpower, hlength, sizeSub]
  obtain ⟨m, hm⟩ := hpower
  rw [hlength] at hm
  have hexp : m ≤ 59 := by
    rw [hm] at hbounded
    exact (Nat.pow_le_pow_iff_right (by omega)).mp hbounded
  have hdvd : n ∣ 2 ^ 64 := hm ▸ Nat.pow_dvd_pow 2 (by omega)
  rw [Nat.mod_mod_of_dvd _ hdvd]
  obtain ⟨k, hk⟩ := hdvd
  have hkpos : 0 < k := by
    rcases Nat.eq_zero_or_pos k with rfl | hpos
    · omega
    · exact hpos
  rcases Table.steps_cases n i j with ⟨hle, hsteps⟩ | ⟨hlt, hsteps⟩
  · rw [hsteps, show j + 2 ^ 64 - i = j - i + 2 ^ 64 by omega, hk, Nat.add_mul_mod_self_left]
    exact Nat.mod_eq_of_lt (by omega)
  · obtain ⟨k, rfl⟩ : ∃ l, k = l + 1 := ⟨k - 1, by omega⟩
    have hsplit : j + 2 ^ 64 - i = n + j - i + n * k := by
      rw [hk, Nat.mul_add]
      omega
    rw [hsteps, hsplit, Nat.add_mul_mod_self_left]
    exact Nat.mod_eq_of_lt (by omega)

/-- The loop of a removal is the shift of the entries, its hole empty. -/
lemma removeFrom_view {hole next e : ℕ} (fuel : ℕ) (hsound : Sound hashKey slots)
    (hbounded : slots.length ≤ 2 ^ 59)
    (hshift : Table.Shifting (keys hashKey) ((view slots).set hole none) hole next e) :
    (view (removeFrom slots fuel hole next).1).set (removeFrom slots fuel hole next).2 none =
        Table.shiftFrom (keys hashKey) ((view slots).set hole none) fuel hole next ∧
      Sound hashKey (removeFrom slots fuel hole next).1 ∧
      (removeFrom slots fuel hole next).1.length = slots.length := by
  induction fuel generalizing slots hole next with
  | zero => exact ⟨rfl, hsound, rfl⟩
  | succ fuel ih =>
    have hlength : List.length ((view slots).set hole none) = slots.length := by
      rw [List.length_set, length_view]
    have hpower : ∃ m, (view slots).length = 2 ^ m := by
      rw [length_view, ← hlength]
      exact hshift.power
    have hhole := hshift.at_lt
    have hnext := hshift.next_lt
    rw [hlength] at hhole hnext
    have hne := hshift.ne
    have hslot : Table.slot ((view slots).set hole none) next = (slotAt slots next).entry := by
      rw [Table.slot_set, if_neg fun hand => hne hand.1, slot_view]
    rw [removeFrom, Table.shiftFrom, hslot]
    cases hkey : (slotAt slots next).key with
    | none =>
      rw [if_pos rfl, Slot.entry, hkey]
      exact ⟨rfl, hsound, rfl⟩
    | some held =>
      have hentry : (slotAt slots next).entry =
          some ⟨held, (slotAt slots next).value, (slotAt slots next).extra⟩ := by
        rw [Slot.entry, hkey, Option.map_some]
      have hhash := ((hsound.slotAt next).occupied held hkey).1
      have hwrap : ∀ n, Table.wrap ((view slots).set hole none) n = wrap slots n := by
        intro n
        rw [Table.wrap, wrap, hlength]
      have hhome := Table.wrap_lt hpower (hashKey held)
      rw [length_view, wrap_view] at hhome
      rw [if_neg (by simp), hentry, hhash]
      simp only [keys_key, keys_hash, hwrap, wrap_sizeSub hpower rfl hbounded hhole hnext,
        wrap_sizeSub hpower rfl hbounded hhome hnext]
      have hstays := Table.stays_iff hhole hnext hhome
      have h₁ := Table.steps_cases slots.length hole next
      have h₂ := Table.steps_cases slots.length (wrap slots (hashKey held)) next
      have h₃ := Table.steps_cases slots.length hole (wrap slots (hashKey held))
      have hr : Table.slot ((view slots).set hole none) next =
          some ⟨held, (slotAt slots next).value, (slotAt slots next).extra⟩ :=
        hslot.trans hentry
      by_cases hmoves : Table.stays hole next (wrap slots (hashKey held)) = true
      · rw [if_pos hmoves, if_neg (by have := hstays.mp hmoves; omega)]
        have hkeep := hshift.keep hr (by
          rw [keys_key, keys_hash, hlength, hwrap]
          exact hstays.mp hmoves)
        rw [hwrap] at hkeep
        exact ih hsound hbounded hkeep
      · rw [if_neg hmoves, if_pos (by have := mt hstays.mpr hmoves; omega)]
        have hmoved := hshift.moved hr (by
          rw [keys_key, keys_hash, hlength, hwrap]
          exact mt hstays.mpr hmoves)
        rw [hwrap, List.set_set, ← hentry, ← view_set] at hmoved
        have hset := hsound.set hole (hsound.slotAt next)
        have hlen : (slots.set hole (slotAt slots next)).length = slots.length := List.length_set
        obtain ⟨hview, hsound', hlength'⟩ := ih hset (hlen ▸ hbounded) hmoved
        rw [List.set_set, ← hentry, ← view_set]
        rw [wrap, hlen] at *
        exact ⟨hview, hsound', hlength'.trans hlen⟩

/-! ### More slots -/

/-- Every entry is moved, when there is room for all of them. -/
lemma moveAll_spec {old : List Slot} (hsound : Sound hashKey slots)
    (hok : Table.Ok (keys hashKey) (view slots)) (hold : Sound hashKey old)
    (hroom : (view slots).held + (view old).countP Option.isSome < slots.length) :
    ∃ moved, moveAll slots old = some moved ∧ Sound hashKey moved ∧
      view moved = (view slots).putAll (keys hashKey) (view old) := by
  induction old generalizing slots with
  | nil => exact ⟨slots, rfl, hsound, rfl⟩
  | cons source old ih =>
    have hsource := hold source List.mem_cons_self
    have hrest : Sound hashKey old := fun slot hslot => hold slot (List.mem_cons_of_mem _ hslot)
    rw [view_cons] at hroom
    rw [moveAll, view_cons]
    cases hkey : source.key with
    | none =>
      have hentry : source.entry = none := entry_eq_none_iff.mpr hkey
      rw [hentry, List.countP_cons_of_neg (by simp)] at hroom
      rw [hentry, Table.putAll]
      exact ih hsound hok hrest hroom
    | some key =>
      have hentry : source.entry = some ⟨key, source.value, source.extra⟩ := by
        rw [Slot.entry, hkey, Option.map_some]
      obtain ⟨hhash, hlen⟩ := hsource.occupied key hkey
      rw [hentry, List.countP_cons_of_pos (by simp)] at hroom
      have hempty : (view slots).Room := Table.room_of_held_lt (by rw [length_view]; omega)
      have hfind := findKeySlot_eq hsound hok.power hempty key
      have hput : view (slots.set ((view slots).probe (keys hashKey) key) source) =
          (view slots).put (keys hashKey) ⟨key, source.value, source.extra⟩ := by
        rw [view_set, hentry]
        rfl
      have hheld := Table.held_put hok hempty ⟨key, source.value, source.extra⟩
      dsimp only
      rw [hhash, hlen, List.take_length, hfind, Option.bind_some, hentry, Table.putAll, ← hput]
      apply ih (hsound.set _ hsource)
      · rw [hput]
        exact hok.put hempty _
      · exact hrest
      · rw [hput, List.length_set, hheld]
        split <;> omega

lemma doubled_spec {size fuel capacity c : ℕ} (hdouble : doubled size fuel capacity = some c) :
    (∃ k, c = capacity * 2 ^ k) ∧ size * 2 ≤ c := by
  induction fuel generalizing capacity with
  | zero => exact absurd hdouble (by simp [doubled])
  | succ fuel ih =>
    rw [doubled] at hdouble
    split at hdouble
    next =>
      split at hdouble
      next => exact absurd hdouble (by simp)
      next =>
        obtain ⟨⟨k, hk⟩, hsize⟩ := ih hdouble
        exact ⟨⟨k + 1, by rw [hk, Nat.mul_assoc, ← Nat.pow_succ']⟩, hsize⟩
    next hfits =>
      cases hdouble
      exact ⟨⟨0, (Nat.mul_one _).symm⟩, not_lt.mp hfits⟩

/-- A capacity that holds `size` keys at most half full. -/
lemma capacityFor_spec {size c : ℕ} (hcapacity : capacityFor size = some c) :
    (∃ m, c = 2 ^ m) ∧ size * 2 ≤ c ∧ c ≤ 2 ^ 59 := by
  rw [capacityFor] at hcapacity
  split at hcapacity
  next => exact absurd hcapacity (by simp)
  next =>
    obtain ⟨d, hd, hc⟩ := Option.bind_eq_some_iff.mp hcapacity
    split at hc
    next hle =>
      cases hc
      obtain ⟨⟨k, hk⟩, hsize⟩ := doubled_spec hd
      refine ⟨⟨4 + k, ?_⟩, hsize, hle.trans (by decide)⟩
      rw [hk, Nat.pow_add, minCapacity]
    next => exact absurd hc (by simp)

/-! ### What every call keeps -/

namespace Index

/-- The slots hold a probed table of entries, at most half full. -/
structure Good (hashKey : Key → ℕ) (index : Index) : Prop where
  sound : Sound hashKey index.slots
  ok : index.slots = [] ∨ Table.Ok (keys hashKey) (view index.slots)
  size_eq : index.size = (view index.slots).held
  load : 2 * index.size ≤ index.capacity
  bounded : index.capacity ≤ 2 ^ 59

/-- The index holds an entry. -/
def Holds (index : Index) (e : Entry) : Prop := (view index.slots).Holds e

/-- What storage refused. -/
def Refused (storage : ℕ → Bool) (size : ℕ) : Prop :=
  ∀ c, capacityFor size = some c → storage c = false

lemma good_empty : (empty : Index).Good hashKey where
  sound _ h := absurd h (by simp [empty])
  ok := Or.inl rfl
  size_eq := rfl
  load := le_refl 0
  bounded := Nat.zero_le _

namespace Good

lemma room (h : index.Good hashKey) (hpos : 0 < index.capacity) : (view index.slots).Room := by
  have hload := h.load
  have hsize := h.size_eq
  refine Table.room_of_held_lt ?_
  rw [length_view]
  rw [capacity] at hload hpos
  omega

lemma table (h : index.Good hashKey) (hpos : 0 < index.capacity) :
    Table.Ok (keys hashKey) (view index.slots) := by
  rcases h.ok with hnil | hok
  · rw [capacity, hnil] at hpos
    exact absurd hpos (lt_irrefl 0)
  · exact hok

lemma not_holds (h : index.capacity = 0) (e : Entry) : ¬ index.Holds e := by
  rintro ⟨i, hi⟩
  have hlt := Table.lt_of_slot hi
  rw [length_view] at hlt
  rw [capacity] at h
  omega

/-- More slots hold what the index held. -/
lemma rehash (h : index.Good hashKey) {c m : ℕ} (hc : c = 2 ^ m) (hmore : index.capacity < c)
    (hbounded : c ≤ 2 ^ 59) {storage : ℕ → Bool} (hstorage : storage c = true) :
    ∃ wider, index.rehash storage c = some wider ∧ wider.Good hashKey ∧
      wider.size = index.size ∧ wider.capacity = c ∧ ∀ e, wider.Holds e ↔ index.Holds e := by
  have hload := h.load
  have hsize := h.size_eq
  have hempty : Table.Ok (keys hashKey) (List.replicate c (none : Option Entry)) := by
    rw [hc]
    exact Table.ok_replicate m
  have hroom : Table.held (List.replicate c (none : Option Entry)) +
      (view index.slots).countP Option.isSome < (List.replicate c (none : Option Entry)).length := by
    rw [Table.held_replicate, List.length_replicate]
    rw [Table.held] at hsize
    omega
  have hnone : ∀ e, ¬ Table.Holds (List.replicate c (none : Option Entry)) e := by
    rintro e ⟨i, hi⟩
    rw [Table.slot_replicate] at hi
    exact absurd hi (by simp)
  have hpairwise : (view index.slots).Pairwise fun a b =>
      ∀ r ∈ a, ∀ s ∈ b, (keys hashKey).key r ≠ (keys hashKey).key s := by
    rcases h.ok with hnil | hok
    · rw [hnil]
      exact List.Pairwise.nil
    · exact hok.pairwise
  obtain ⟨hok, hlength, hheld, hholds⟩ := hempty.putAll hroom
    (fun r _ s hs => absurd hs (hnone s)) hpairwise
  have hview := view_replicate c
  obtain ⟨moved, hmoved, hsound, heq⟩ := moveAll_spec (sound_replicate c)
    (by rw [hview]; exact hempty) h.sound
    (by rw [hview, List.length_replicate]; rwa [List.length_replicate] at hroom)
  rw [hview] at heq
  have hcapacity : moved.length = c := by
    rw [← length_view, heq, hlength, List.length_replicate]
  refine ⟨{ index with slots := moved }, ?_, ⟨hsound, Or.inr (heq ▸ hok), ?_, ?_, ?_⟩, rfl,
    hcapacity, fun e => ?_⟩
  · rw [Index.rehash, if_pos hstorage, hmoved, Option.map_some]
  · dsimp only
    rw [heq, hheld, Table.held_replicate, Nat.zero_add, hsize]
    rfl
  · rw [capacity, hcapacity]
    dsimp only
    omega
  · rw [capacity, hcapacity]
    exact hbounded
  · rw [Holds, heq, hholds]
    exact (or_iff_right (hnone e)).trans Table.holds_iff_mem.symm

/-- Room made for `size` keys leaves what the index holds. -/
lemma reserve (h : index.Good hashKey) (storage : ℕ → Bool) {size : ℕ} (hpos : 0 < size) :
    (∃ wider, index.reserve storage size = some wider ∧ wider.Good hashKey ∧
      wider.size = index.size ∧ 2 * size ≤ wider.capacity ∧
      ∀ e, wider.Holds e ↔ index.Holds e) ∨
    (index.reserve storage size = none ∧ Refused storage size) := by
  rw [Index.reserve, if_neg (Nat.pos_iff_ne_zero.mp hpos)]
  cases hcapacity : capacityFor size with
  | none =>
    refine Or.inr ⟨rfl, fun c hc => ?_⟩
    rw [hcapacity] at hc
    exact absurd hc (by simp)
  | some c =>
    obtain ⟨⟨m, hm⟩, hsize, hbounded⟩ := capacityFor_spec hcapacity
    rw [Option.bind_some]
    split
    next hle => exact Or.inl ⟨index, rfl, h, rfl, by omega, fun _ => Iff.rfl⟩
    next hmore =>
      cases hstorage : storage c with
      | false =>
        refine Or.inr ⟨?_, fun d hd => ?_⟩
        · rw [Index.rehash, hstorage]
          rfl
        · rw [hcapacity] at hd
          exact Option.some.inj hd ▸ hstorage
      | true =>
        obtain ⟨wider, heq, hgood, hkept, hcap, hholds⟩ :=
          h.rehash hm (not_le.mp hmore) hbounded hstorage
        exact Or.inl ⟨wider, heq, hgood, hkept, by omega, hholds⟩

/-! ### Finding, entering, committing, removing -/

/-- The slot of an entry, in full. -/
lemma slotAt_eq (h : index.Good hashKey) {p : ℕ} {e : Entry}
    (hentry : (slotAt index.slots p).entry = some e) :
    slotAt index.slots p = ⟨hashKey e.key, some e.key, e.key.length, e.extra, e.value⟩ := by
  have hsound := h.sound.slotAt p
  rw [Slot.entry, Option.map_eq_some_iff] at hentry
  obtain ⟨key, hkey, rfl⟩ := hentry
  obtain ⟨hhash, hlen⟩ := hsound.occupied key hkey
  dsimp only
  rw [← hhash, ← hlen, ← hkey]

/-- The slot a key is found at holds its entry, and a key with an entry is found. -/
theorem find_eq_some_iff (h : index.Good hashKey) {key : Key} {p : ℕ} :
    index.find hashKey key = some p ↔
      ∃ e, e.key = key ∧ (slotAt index.slots p).entry = some e := by
  rw [find]
  split
  next hzero =>
    constructor
    · intro hfound
      exact absurd hfound (by simp)
    · rintro ⟨e, -, hentry⟩
      refine absurd ⟨p, ?_⟩ (not_holds hzero e)
      rw [slot_view, hentry]
  next hpos =>
    have hroom := h.room (Nat.pos_of_ne_zero hpos)
    have hok := h.table (Nat.pos_of_ne_zero hpos)
    rw [findKeySlot_eq h.sound hok.power hroom key, Option.filter_some]
    constructor
    · intro hfound
      split at hfound
      next hsome =>
        have hp := Option.some.inj hfound
        subst hp
        obtain ⟨-, -, hkey⟩ := Table.probe_spec (K := keys hashKey) hok.power hroom key
        rw [slot_view] at hkey
        rw [← Option.isSome_map (f := fun held => Entry.mk held _ _)] at hsome
        obtain ⟨e, hentry⟩ := Option.isSome_iff_exists.mp hsome
        exact ⟨e, hkey e hentry, hentry⟩
      next => exact absurd hfound (by simp)
    · rintro ⟨e, rfl, hentry⟩
      have hslot : (view index.slots).slot p = some e := by rw [slot_view, hentry]
      have hprobe : (view index.slots).probe (keys hashKey) e.key = p :=
        hok.probe_eq hroom hslot
      obtain ⟨key, hkey, -⟩ := Option.map_eq_some_iff.mp hentry
      rw [hprobe, hkey]
      rfl

/-- A key is found when the index holds an entry of it. -/
lemma find_eq_none_iff (h : index.Good hashKey) {key : Key} :
    index.find hashKey key = none ↔ ∀ e, index.Holds e → e.key ≠ key := by
  constructor
  · rintro hnone e ⟨p, hp⟩ hkey
    rw [slot_view] at hp
    rw [h.find_eq_some_iff.mpr ⟨e, hkey, hp⟩] at hnone
    exact absurd hnone (by simp)
  · intro hall
    cases hfound : index.find hashKey key with
    | none => rfl
    | some p =>
      obtain ⟨e, hkey, hentry⟩ := h.find_eq_some_iff.mp hfound
      exact absurd hkey (hall e ⟨p, by rw [slot_view, hentry]⟩)

/-- A vacant slot in which a key was entered, ready to be committed. -/
structure Vacant (hashKey : Key → ℕ) (index : Index) (p : ℕ) (key : Key) : Prop where
  good : index.Good hashKey
  key_eq : (slotAt index.slots p).key = none
  hash_eq : (slotAt index.slots p).hash = hashKey key
  keyLen_eq : (slotAt index.slots p).keyLen = key.length
  probe_eq : (view index.slots).probe (keys hashKey) key = p
  absent : ∀ e, index.Holds e → e.key ≠ key
  room : 2 * (index.size + 1) ≤ index.capacity

/-- A key entered leaves what the index holds. -/
lemma enter (h : index.Good hashKey) {p : ℕ} {key : Key}
    (hvacant : (slotAt index.slots p).key = none)
    (hprobe : (view index.slots).probe (keys hashKey) key = p)
    (hload : 2 * (index.size + 1) ≤ index.capacity) :
    Vacant hashKey (index.enter p (hashKey key) key) p key ∧
      (index.enter p (hashKey key) key).capacity = index.capacity ∧
      ∀ e, (index.enter p (hashKey key) key).Holds e ↔ index.Holds e := by
  have hpos : 0 < index.capacity := by omega
  have hok := h.table hpos
  have hroom := h.room hpos
  obtain ⟨hlt, -, -⟩ := Table.probe_spec (K := keys hashKey) hok.power hroom key
  rw [hprobe, length_view] at hlt
  set slot : Slot := { slotAt index.slots p with hash := hashKey key, keyLen := key.length }
  have hview : view (index.slots.set p slot) = view index.slots := by
    have hentry : slot.entry = (view index.slots).slot p := by
      rw [slot_view]
      rfl
    rw [view_set, hentry, Table.set_slot]
  have hcapacity : (index.enter p (hashKey key) key).capacity = index.capacity := List.length_set
  have hslot : slotAt (index.slots.set p slot) p = slot := by
    rw [slotAt_set, if_pos ⟨rfl, hlt⟩]
  have hholds : ∀ e, (index.enter p (hashKey key) key).Holds e ↔ index.Holds e := by
    intro e
    rw [Holds, Index.enter, hview]
    rfl
  have hgood : (index.enter p (hashKey key) key).Good hashKey := by
    refine ⟨h.sound.set p ⟨?_, ?_⟩, Or.inr ?_, ?_, hcapacity ▸ h.load, hcapacity ▸ h.bounded⟩
    · intro held hheld
      have hkey : (slotAt index.slots p).key = some held := hheld
      rw [hvacant] at hkey
      exact absurd hkey (by simp)
    · exact fun _ => (h.sound.slotAt p).vacant hvacant
    · rw [Index.enter, hview]
      exact hok
    · rw [Index.enter, hview]
      exact h.size_eq
  refine ⟨⟨hgood, ?_, ?_, ?_, ?_, ?_, hcapacity ▸ hload⟩, hcapacity, hholds⟩
  · rw [Index.enter, hslot]
    exact hvacant
  · rw [Index.enter, hslot]
  · rw [Index.enter, hslot]
  · rw [Index.enter, hview]
    exact hprobe
  · intro e he hkey
    have hheld := (hholds e).mp he
    obtain ⟨i, hi⟩ := hheld
    have hi' : (view index.slots).probe (keys hashKey) e.key = i := hok.probe_eq hroom hi
    rw [hkey, hprobe] at hi'
    rw [← hi', slot_view, entry_eq_none_iff.mpr hvacant] at hi
    exact absurd hi (by simp)

/-- What `markdown_core_key_index_entry` gives, when the key is held, when it is not, and when
storage is refused; the index is wider only when one more key would fill more than half of it. -/
inductive Entered (hashKey : Key → ℕ) (storage : ℕ → Bool) (index : Index) (key : Key) :
    Index × Option ℕ → Prop
  | held {p : ℕ} {e : Entry} (hkey : e.key = key)
    (hentry : (slotAt index.slots p).entry = some e) :
    Entered hashKey storage index key (index, some p)
  | vacant {entered : Index} {p : ℕ} (h : Vacant hashKey entered p key)
    (hsize : entered.size = index.size) (hholds : ∀ e, entered.Holds e ↔ index.Holds e)
    (hcapacity : 2 * (index.size + 1) ≤ index.capacity → entered.capacity = index.capacity) :
    Entered hashKey storage index key (entered, some p)
  | refused {size : ℕ} (h : Refused storage size) (hfull : index.capacity < 2 * (index.size + 1))
    (habsent : ∀ e, index.Holds e → e.key ≠ key) : Entered hashKey storage index key (index, none)

lemma entryIn (h : index.Good hashKey) (storage : ℕ → Bool) (key : Key)
    (hpos : 0 < index.capacity) :
    Entered hashKey storage index key (index.entryIn hashKey storage key) := by
  have hroom := h.room hpos
  have hok := h.table hpos
  rw [Index.entryIn, findKeySlot_eq h.sound hok.power hroom key]
  dsimp only
  set p := (view index.slots).probe (keys hashKey) key with hp
  split
  next hheld =>
    rw [Ne, ← entry_eq_none_iff] at hheld
    obtain ⟨e, hentry⟩ := Option.ne_none_iff_exists'.mp hheld
    have hkey := (Table.probe_spec (K := keys hashKey) hok.power hroom key).2.2 e
      (by rw [slot_view, hentry])
    exact Entered.held hkey hentry
  next hvacant =>
    rw [not_not] at hvacant
    have habsent : ∀ e, index.Holds e → e.key ≠ key := by
      rintro e ⟨i, hi⟩ hkey
      have hprobe : (view index.slots).probe (keys hashKey) e.key = i := hok.probe_eq hroom hi
      rw [hkey, ← hp] at hprobe
      rw [← hprobe, slot_view, entry_eq_none_iff.mpr hvacant] at hi
      exact absurd hi (by simp)
    split
    next hfull =>
      rcases h.reserve storage (Nat.succ_pos index.size) with
        ⟨wider, heq, hgood, hsize, hwide, hholds⟩ | ⟨heq, hrefused⟩
      · have hwpos : 0 < wider.capacity := by omega
        have hwroom := hgood.room hwpos
        have hwok := hgood.table hwpos
        rw [heq]
        dsimp only
        rw [findKeySlot_eq hgood.sound hwok.power hwroom key]
        have hempty : (slotAt wider.slots ((view wider.slots).probe (keys hashKey) key)).key =
            none := by
          by_contra hne
          rw [← entry_eq_none_iff] at hne
          obtain ⟨e, hentry⟩ := Option.ne_none_iff_exists'.mp hne
          have hkey := (Table.probe_spec (K := keys hashKey) hwok.power hwroom key).2.2 e
            (by rw [slot_view, hentry])
          exact habsent e ((hholds e).mp ⟨_, by rw [slot_view, hentry]⟩) hkey
        obtain ⟨hentered, -, hkept⟩ := hgood.enter hempty rfl (by omega)
        refine Entered.vacant hentered hsize (fun e => (hkept e).trans (hholds e)) ?_
        intro hroomy
        omega
      · rw [heq]
        exact Entered.refused hrefused (by omega) habsent
    next hroomy =>
      obtain ⟨hentered, hcapacity, hkept⟩ := h.enter hvacant hp.symm (by omega)
      exact Entered.vacant hentered rfl hkept fun _ => hcapacity

/-- Every entry of the index is of one of the three kinds. -/
theorem entry (h : index.Good hashKey) (storage : ℕ → Bool) (key : Key) :
    Entered hashKey storage index key (index.entry hashKey storage key) := by
  rw [Index.entry]
  split
  next hzero =>
    have hload := h.load
    have hnone := not_holds hzero
    rcases h.reserve storage Nat.one_pos with
      ⟨wider, heq, hgood, hsize, hwide, hholds⟩ | ⟨heq, hrefused⟩
    · rw [heq]
      dsimp only
      have hentered := hgood.entryIn storage key (by omega)
      generalize wider.entryIn hashKey storage key = result at hentered
      cases hentered with
      | held hkey hentry =>
        exact absurd ((hholds _).mp ⟨_, by rw [slot_view, hentry]⟩) (hnone _)
      | vacant hvacant hsize' hkept _ =>
        refine Entered.vacant hvacant (hsize'.trans hsize) (fun e => (hkept e).trans (hholds e)) ?_
        intro hroomy
        omega
      | refused _ hfull _ => omega
    · rw [heq]
      exact Entered.refused hrefused (by omega) fun e he => absurd he (hnone e)
  next hpos => exact h.entryIn storage key (Nat.pos_of_ne_zero hpos)

/-- A key committed is held, with its value and its number. -/
theorem commit {p : ℕ} {key : Key} (h : Vacant hashKey index p key) (value extra : ℕ) :
    (index.commit p key value extra).Good hashKey ∧
      (index.commit p key value extra).capacity = index.capacity ∧
      2 * (index.commit p key value extra).size ≤ index.capacity ∧
      ∀ e, (index.commit p key value extra).Holds e ↔ e = ⟨key, value, extra⟩ ∨ index.Holds e := by
  have hload := h.room
  have hpos : 0 < index.capacity := by omega
  have hok := h.good.table hpos
  have hroom := h.good.room hpos
  set slot : Slot := { slotAt index.slots p with key := some key, value, extra }
  have hview : view (index.slots.set p slot) =
      (view index.slots).put (keys hashKey) ⟨key, value, extra⟩ := by
    rw [view_set, Table.put, ← h.probe_eq]
    rfl
  have hcapacity : (index.commit p key value extra).capacity = index.capacity := List.length_set
  have hheld := Table.held_put hok hroom ⟨key, value, extra⟩
  have hnone : (view index.slots).find (keys hashKey) key = none :=
    (hok.find_eq_none_iff hroom).mpr h.absent
  rw [keys_key, hnone] at hheld
  refine ⟨⟨h.good.sound.set p ⟨?_, ?_⟩, Or.inr ?_, ?_, ?_, ?_⟩, hcapacity, hload, fun e => ?_⟩
  · intro held hkey
    cases hkey
    exact ⟨h.hash_eq, h.keyLen_eq⟩
  · intro hkey
    exact absurd hkey (by simp)
  · rw [Index.commit, hview]
    exact hok.put hroom _
  · rw [Index.commit, hview, hheld, ← h.good.size_eq]
    rfl
  · exact hcapacity ▸ hload
  · exact hcapacity ▸ h.good.bounded
  · rw [Holds, Index.commit, hview, Table.holds_put hok hroom]
    constructor
    · rintro (heq | ⟨he, -⟩)
      · exact Or.inl heq
      · exact Or.inr he
    · rintro (heq | he)
      · exact Or.inl heq
      · exact Or.inr ⟨he, h.absent e he⟩

/-- An entry removed is no longer held, and every other is. -/
theorem remove (h : index.Good hashKey) {p : ℕ} {e : Entry}
    (hentry : (slotAt index.slots p).entry = some e) :
    (index.remove p).Good hashKey ∧ (index.remove p).capacity = index.capacity ∧
      (index.remove p).size + 1 = index.size ∧
      ∀ other, (index.remove p).Holds other ↔ index.Holds other ∧ other.key ≠ e.key := by
  have hr : (view index.slots).slot p = some e := by rw [slot_view, hentry]
  have hp := Table.lt_of_slot hr
  rw [length_view] at hp
  have hpos : 0 < index.capacity := lt_of_le_of_lt (Nat.zero_le p) hp
  have hok := h.table hpos
  have hroom := h.room hpos
  obtain ⟨hok', hlength, hheld, hholds⟩ := hok.vacate hr hroom
  obtain ⟨i, hi, hempty⟩ := hroom
  obtain ⟨hshift, -⟩ := hok.shifting hr hi hempty
  rw [wrap_view] at hshift
  obtain ⟨hview, hsound, -⟩ :=
    removeFrom_view index.slots.length h.sound h.bounded hshift
  have hvacate : view (index.remove p).slots = (view index.slots).vacate (keys hashKey) p := by
    rw [Index.remove, view_set, entry_zero, hview, Table.vacate, length_view, wrap_view]
  have hsize := h.size_eq
  have hload := h.load
  have hcapacity : (index.remove p).capacity = index.capacity := by
    rw [capacity, ← length_view, hvacate, hlength, length_view]
    rfl
  have hless : (index.remove p).size + 1 = index.size := by
    rw [Index.remove]
    dsimp only
    omega
  refine ⟨⟨hsound.set _ sound_zero, Or.inr (hvacate ▸ hok'), ?_, ?_, ?_⟩, hcapacity, hless,
    fun other => ?_⟩
  · rw [hvacate]
    omega
  · rw [hcapacity]
    omega
  · exact hcapacity ▸ h.bounded
  · rw [Holds, hvacate]
    exact hholds other

end Good

/-! ### Runs -/

/-- `markdown_core_key_index_init`. -/
def init (storage : ℕ → Bool) (expected : ℕ) : Index := (empty.reserve storage expected).getD empty

end Index

/-- A call of the index: an entry, followed at once by its commit when it is vacant, with the
value and the number the caller writes; or the removal of a held key. -/
inductive Call where
  | take (storage : ℕ → Bool) (key : Key) (value extra : ℕ)
  | remove (key : Key)

/-- What a call changed. -/
inductive Change where
  | commit (key : Key) (value extra : ℕ)
  | remove (key : Key)

namespace Change

def key : Change → Key
  | .commit key _ _ => key
  | .remove key => key

/-- The value and the number of a key after a change. -/
def next (key : Key) (held : Option (ℕ × ℕ)) : Change → Option (ℕ × ℕ)
  | .commit committed value extra => if committed = key then some (value, extra) else held
  | .remove removed => if removed = key then none else held

lemma next_of_ne {key : Key} {change : Change} (hne : change.key ≠ key) (held : Option (ℕ × ℕ)) :
    change.next key held = held := by
  cases change with
  | commit committed value extra => exact if_neg hne
  | remove removed => exact if_neg hne

/-- How the changes of a run read as a history of one key. -/
lemma reads_next (key : Key) :
    History.Reads (fun held change => Change.next key held change)
      (fun change held => change = .commit key held.1 held.2) (fun change => change = .remove key)
      (fun held _ => held) where
  made held hmade := by
    subst hmade
    exact if_pos rfl
  ended held _ hends := by
    subst hends
    exact if_pos rfl
  revised {change} held hnot hends := by
    rw [next_of_ne, Option.map_id']
    rintro rfl
    cases change with
    | commit committed value extra => exact hnot (value, extra) rfl
    | remove removed => exact hends rfl

/-- A key is held with what the last change of it committed, if that is what it did. -/
theorem foldl_next_eq_some_iff {key : Key} {changes : List Change} {value extra : ℕ} :
    changes.foldl (fun held change => change.next key held) none = some (value, extra) ↔
      ∃ before after, changes = before ++ .commit key value extra :: after ∧
        ∀ change ∈ after, change.key ≠ key := by
  have hquiet : ∀ change : Change, ((∀ held : ℕ × ℕ, change ≠ .commit key held.1 held.2) ∧
      change ≠ .remove key) ↔ change.key ≠ key := by
    intro change
    constructor
    · rintro ⟨hcommit, hremove⟩ rfl
      cases change with
      | commit committed value extra => exact hcommit (value, extra) rfl
      | remove removed => exact hremove rfl
    · intro hne
      refine ⟨?_, ?_⟩
      · rintro held rfl
        exact hne rfl
      · rintro rfl
        exact hne rfl
  rw [(reads_next key).foldl_eq_some_iff]
  simp only [← ne_eq, hquiet, List.foldl_fixed]
  constructor
  · rintro ⟨before, change, made, after, heq, rfl, hafter, hmade⟩
    rw [← hmade] at heq
    exact ⟨before, after, heq, hafter⟩
  · rintro ⟨before, after, heq, hafter⟩
    exact ⟨before, _, (value, extra), after, heq, rfl, hafter, rfl⟩

end Change

namespace Index

def step (hashKey : Key → ℕ) (index : Index) : Call → Option Change × Index
  | .take storage key value extra =>
    match index.entry hashKey storage key with
    | (entered, none) => (none, entered)
    | (entered, some p) =>
      if (slotAt entered.slots p).key = none then
        (some (.commit key value extra), entered.commit p key value extra)
      else (none, entered)
  | .remove key =>
    match index.find hashKey key with
    | none => (none, index)
    | some p => (some (.remove key), index.remove p)

/-- The calls one after another: what they changed, and the index left. -/
def run (hashKey : Key → ℕ) : Index → List Call → List Change × Index
  | index, [] => ([], index)
  | index, call :: calls =>
    let step := index.step hashKey call
    let rest := run hashKey step.2 calls
    (step.1.toList ++ rest.1, rest.2)

/-- The value and the number a key is found with. -/
def lookup (hashKey : Key → ℕ) (index : Index) (key : Key) : Option (ℕ × ℕ) :=
  (index.find hashKey key).map fun p =>
    ((slotAt index.slots p).value, (slotAt index.slots p).extra)

namespace Good

lemma lookup_eq_some_iff (h : index.Good hashKey) {key : Key} {value extra : ℕ} :
    index.lookup hashKey key = some (value, extra) ↔ index.Holds ⟨key, value, extra⟩ := by
  rw [lookup, Option.map_eq_some_iff]
  constructor
  · rintro ⟨p, hfind, heq⟩
    obtain ⟨e, rfl, hentry⟩ := h.find_eq_some_iff.mp hfind
    rw [h.slotAt_eq hentry, Prod.mk.injEq] at heq
    obtain ⟨rfl, rfl⟩ := heq
    exact ⟨p, by rw [slot_view, hentry]⟩
  · rintro ⟨p, hp⟩
    rw [slot_view] at hp
    refine ⟨p, h.find_eq_some_iff.mpr ⟨_, rfl, hp⟩, ?_⟩
    rw [h.slotAt_eq hp]

/-- What a lookup gives is what the index holds. -/
lemma lookup_congr {index' : Index} (h : index.Good hashKey) (h' : index'.Good hashKey)
    {key : Key} (hholds : ∀ value extra,
      (index'.Holds ⟨key, value, extra⟩ ↔ index.Holds ⟨key, value, extra⟩)) :
    index'.lookup hashKey key = index.lookup hashKey key := by
  refine Option.ext fun held => ?_
  obtain ⟨value, extra⟩ := held
  rw [h'.lookup_eq_some_iff, h.lookup_eq_some_iff]
  exact hholds value extra

/-- A call keeps the index, and what a key is found with after is what the call changed of what it
was found with before. -/
theorem step (h : index.Good hashKey) (call : Call) :
    (index.step hashKey call).2.Good hashKey ∧
      ∀ key, (index.step hashKey call).2.lookup hashKey key =
        (index.step hashKey call).1.toList.foldl (fun held change => change.next key held)
          (index.lookup hashKey key) := by
  cases call with
  | take storage key value extra =>
    rw [Index.step]
    have hentered := h.entry storage key
    generalize index.entry hashKey storage key = result at hentered
    cases hentered with
    | held hkey hentry =>
      dsimp only
      rw [if_neg fun hnone => by
        rw [entry_eq_none_iff.mpr hnone] at hentry
        exact absurd hentry (by simp)]
      exact ⟨h, fun _ => rfl⟩
    | vacant hvacant hsize hholds _ =>
      dsimp only
      rw [if_pos hvacant.key_eq]
      obtain ⟨hgood, -, -, hcommit⟩ := commit hvacant value extra
      refine ⟨hgood, fun other => ?_⟩
      rw [Option.toList_some, List.foldl_cons, List.foldl_nil, Change.next]
      split
      next heq =>
        subst heq
        rw [hgood.lookup_eq_some_iff, hcommit]
        exact Or.inl rfl
      next hne =>
        refine h.lookup_congr hgood fun v e => (hcommit _).trans ?_
        rw [hholds, or_iff_right]
        intro heq
        exact hne (congrArg Entry.key heq).symm
    | refused _ _ _ => exact ⟨h, fun _ => rfl⟩
  | remove key =>
    rw [Index.step]
    cases hfind : index.find hashKey key with
    | none => exact ⟨h, fun _ => rfl⟩
    | some p =>
      obtain ⟨e, rfl, hentry⟩ := h.find_eq_some_iff.mp hfind
      obtain ⟨hgood, -, -, hremove⟩ := h.remove hentry
      refine ⟨hgood, fun other => ?_⟩
      dsimp only
      rw [Option.toList_some, List.foldl_cons, List.foldl_nil, Change.next]
      split
      next heq =>
        subst heq
        cases hlookup : (index.remove p).lookup hashKey e.key with
        | none => rfl
        | some held =>
          obtain ⟨value, extra⟩ := held
          rw [hgood.lookup_eq_some_iff, hremove] at hlookup
          exact absurd rfl hlookup.2
      next hne =>
        refine h.lookup_congr hgood fun v w => (hremove _).trans ?_
        rw [and_iff_left]
        exact fun heq => hne heq.symm

/-- A run keeps the index, and what a key is found with after is what its changes leave. -/
theorem run (h : index.Good hashKey) (calls : List Call) :
    (index.run hashKey calls).2.Good hashKey ∧
      ∀ key, (index.run hashKey calls).2.lookup hashKey key =
        (index.run hashKey calls).1.foldl (fun held change => change.next key held)
          (index.lookup hashKey key) := by
  induction calls generalizing index with
  | nil => exact ⟨h, fun _ => rfl⟩
  | cons call calls ih =>
    obtain ⟨hgood, hlookup⟩ := h.step call
    obtain ⟨hgood', hlookup'⟩ := ih hgood
    refine ⟨hgood', fun key => (hlookup' key).trans ?_⟩
    rw [hlookup, Index.run, List.foldl_append]

/-- The held keys are as many as the index counts. -/
lemma held_keys (h : index.Good hashKey) :
    ∃ held : Finset Key, (∀ key, key ∈ held ↔ (index.find hashKey key).isSome = true) ∧
      index.size = held.card := by
  refine ⟨((view index.slots).records.map Entry.key).toFinset, fun key => ?_, ?_⟩
  · rw [List.mem_toFinset, List.mem_map, Option.isSome_iff_exists]
    constructor
    · rintro ⟨e, he, hkey⟩
      obtain ⟨p, hp⟩ := Table.mem_records.mp he
      rw [slot_view] at hp
      exact ⟨p, h.find_eq_some_iff.mpr ⟨e, hkey, hp⟩⟩
    · rintro ⟨p, hp⟩
      obtain ⟨e, hkey, hentry⟩ := h.find_eq_some_iff.mp hp
      exact ⟨e, Table.mem_records.mpr ⟨p, by rw [slot_view, hentry]⟩, hkey⟩
  · have hnodup : ((view index.slots).records.map Entry.key).Nodup := by
      rcases h.ok with hnil | hok
      · rw [hnil]
        exact List.nodup_nil
      · exact hok.nodup_keys
    rw [List.toFinset_card_of_nodup hnodup, List.length_map, Table.length_records, h.size_eq]

/-- Every slot from a key's home up to the key is occupied. -/
lemma reached (h : index.Good hashKey) {i : ℕ} {key : Key}
    (hi : (slotAt index.slots i).key = some key) {d : ℕ}
    (hd : d < wrap index.slots (i + index.capacity - wrap index.slots (hashKey key))) :
    (slotAt index.slots (wrap index.slots (hashKey key + d))).key ≠ none := by
  obtain ⟨e, hentry⟩ : ∃ e, (slotAt index.slots i).entry = some e := by
    rw [Slot.entry, hi]
    exact ⟨_, rfl⟩
  have hkey : e.key = key := by
    rw [h.slotAt_eq hentry, Option.some.injEq] at hi
    exact hi
  subst hkey
  have hslot : (view index.slots).slot i = some e := by rw [slot_view, hentry]
  have hlt := Table.lt_of_slot hslot
  rw [length_view] at hlt
  have hpos : 0 < index.capacity := lt_of_le_of_lt (Nat.zero_le i) hlt
  have hok := h.table hpos
  have hmod : ∀ n, wrap index.slots n = n % index.capacity := by
    intro n
    rw [← wrap_view, Table.wrap_eq hok.power, length_view]
    rfl
  have hlength : (view index.slots).length = index.capacity := length_view _
  have hcapacity : index.slots.length = index.capacity := rfl
  have hreached := hok.reached i e hslot
  rw [wrap_view, keys_key, keys_hash, hmod] at hreached
  rw [hmod, hmod] at hd
  rw [hmod, ← Nat.mod_add_mod]
  rw [hlength] at hreached
  rw [hcapacity] at hlt
  have hhome : hashKey e.key % index.capacity < index.capacity := Nat.mod_lt _ hpos
  generalize hashKey e.key % index.capacity = home at hd hhome hreached ⊢
  have hsteps : Table.steps index.capacity home i = (i + index.capacity - home) % index.capacity := by
    rcases Table.steps_cases index.capacity home i with ⟨hle, heq⟩ | ⟨hless, heq⟩
    · rw [heq, show i + index.capacity - home = i - home + index.capacity by omega,
        Nat.add_mod_right]
      exact (Nat.mod_eq_of_lt (by omega)).symm
    · rw [heq, Nat.add_comm i]
      exact (Nat.mod_eq_of_lt (by omega)).symm
  have hless : d < index.capacity := hd.trans (Nat.mod_lt _ hpos)
  have hback : Table.steps index.capacity home ((home + d) % index.capacity) = d := by
    rcases Nat.lt_or_ge (home + d) index.capacity with hsmall | hlarge
    · rw [Nat.mod_eq_of_lt hsmall]
      have := Table.steps_cases index.capacity home (home + d)
      omega
    · have hwrap : (home + d) % index.capacity = home + d - index.capacity := by
        rw [Nat.mod_eq_sub_mod hlarge]
        exact Nat.mod_eq_of_lt (by omega)
      rw [hwrap]
      have := Table.steps_cases index.capacity home (home + d - index.capacity)
      omega
  have htaken := hreached ((home + d) % index.capacity) (Nat.mod_lt _ hpos) (by omega)
  rw [or_false, slot_view] at htaken
  intro hnone
  rw [entry_eq_none_iff.mpr hnone] at htaken
  exact absurd htaken (by simp)

lemma isSome_lookup (hashKey : Key → ℕ) (index : Index) (key : Key) :
    (index.lookup hashKey key).isSome = (index.find hashKey key).isSome := Option.isSome_map

/-- A key taken while there is room for it is held after, whatever storage there is, and the index
is no wider. -/
lemma take (h : index.Good hashKey) (hroom : 2 * (index.size + 1) ≤ index.capacity)
    (storage : ℕ → Bool) (key : Key) (value extra : ℕ) :
    let after := (index.step hashKey (.take storage key value extra)).2
    after.capacity = index.capacity ∧ after.size ≤ index.size + 1 ∧
      ∀ other, other = key ∨ (index.lookup hashKey other).isSome = true →
        (after.lookup hashKey other).isSome = true := by
  rw [Index.step]
  have hentered := h.entry storage key
  generalize index.entry hashKey storage key = result at hentered
  cases hentered with
  | @held p e hkey hentry =>
    dsimp only
    rw [if_neg fun hnone => by
      rw [entry_eq_none_iff.mpr hnone] at hentry
      exact absurd hentry (by simp)]
    refine ⟨rfl, Nat.le_succ _, ?_⟩
    rintro other (rfl | hother)
    · rw [isSome_lookup, h.find_eq_some_iff.mpr ⟨e, hkey, hentry⟩]
      rfl
    · exact hother
  | vacant hvacant hsize hholds hcapacity =>
    dsimp only
    rw [if_pos hvacant.key_eq]
    obtain ⟨hgood, hcap, -, hcommit⟩ := commit hvacant value extra
    refine ⟨hcap.trans (hcapacity hroom), le_of_eq (congrArg Nat.succ hsize), ?_⟩
    rintro other (rfl | hother)
    · rw [hgood.lookup_eq_some_iff.mpr ((hcommit _).mpr (Or.inl rfl))]
      rfl
    · obtain ⟨held, hlookup⟩ := Option.isSome_iff_exists.mp hother
      have hkept := (hholds _).mpr (h.lookup_eq_some_iff.mp hlookup)
      rw [hgood.lookup_eq_some_iff.mpr ((hcommit _).mpr (Or.inr hkept))]
      rfl
  | refused _ hfull _ => omega

/-- Keys taken while there is room for all of them are held after, with no storage, in an index no
wider. -/
lemma takes (h : index.Good hashKey) {keys : List (Key × ℕ × ℕ)}
    (hroom : 2 * (index.size + keys.length) ≤ index.capacity) :
    let after := (index.run hashKey
      (keys.map fun taken => .take (fun _ => false) taken.1 taken.2.1 taken.2.2)).2
    after.capacity = index.capacity ∧
      ∀ key, key ∈ keys.map Prod.fst ∨ (index.lookup hashKey key).isSome = true →
        (after.lookup hashKey key).isSome = true := by
  induction keys generalizing index with
  | nil => exact ⟨rfl, fun key hkey => hkey.resolve_left (by simp)⟩
  | cons taken keys ih =>
    obtain ⟨key, value, extra⟩ := taken
    rw [List.length_cons] at hroom
    obtain ⟨hgood, -⟩ := h.step (.take (fun _ => false) key value extra)
    obtain ⟨hcapacity, hsize, hheld⟩ := h.take (by omega) (fun _ => false) key value extra
    obtain ⟨hcapacity', hheld'⟩ := ih hgood (by omega)
    refine ⟨hcapacity'.trans hcapacity, fun other hother => hheld' other ?_⟩
    rw [List.map_cons, List.mem_cons] at hother
    rcases hother with (heq | hin) | hfound
    · exact Or.inr (hheld other (Or.inl heq))
    · exact Or.inl hin
    · exact Or.inr (hheld other (Or.inr hfound))

/-- Removals leave the capacity, and need nothing. -/
lemma removes (h : index.Good hashKey) (keys : List Key) :
    (index.run hashKey (keys.map .remove)).2.capacity = index.capacity := by
  induction keys generalizing index with
  | nil => rfl
  | cons key keys ih =>
    obtain ⟨hgood, -⟩ := h.step (.remove key)
    refine (ih hgood).trans ?_
    rw [Index.step]
    cases hfind : index.find hashKey key with
    | none => rfl
    | some p =>
      obtain ⟨e, -, hentry⟩ := h.find_eq_some_iff.mp hfind
      exact (h.remove hentry).2.1

end Good

lemma good_init (hashKey : Key → ℕ) (storage : ℕ → Bool) (expected : ℕ) :
    (init storage expected).Good hashKey ∧
      ∀ key, (init storage expected).lookup hashKey key = none := by
  have hnone : ∀ {index : Index}, index.Good hashKey → (∀ e, ¬ index.Holds e) →
      ∀ key, index.lookup hashKey key = none := by
    intro index h hall key
    cases hlookup : index.lookup hashKey key with
    | none => rfl
    | some held => exact absurd (h.lookup_eq_some_iff.mp hlookup) (hall _)
  have hempty : ∀ e, ¬ empty.Holds e := Good.not_holds rfl
  rw [init]
  rcases Nat.eq_zero_or_pos expected with rfl | hpos
  · exact ⟨good_empty, hnone good_empty hempty⟩
  · rcases (show (empty : Index).Good hashKey from good_empty).reserve storage hpos with
      ⟨wider, heq, hgood, -, -, hholds⟩ | ⟨heq, -⟩
    · rw [heq]
      exact ⟨hgood, hnone hgood fun e he => hempty e ((hholds e).mp he)⟩
    · rw [heq]
      exact ⟨good_empty, hnone good_empty hempty⟩

/-- The index is a finite map that stays searchable. After every run, for every hash:

* the slot a key is found at is the key's own, and a key is found with a value and a number when
  the last change of the key committed them;
* the size is the number of keys found, and at most half the capacity;
* every slot from the home of an occupied slot up to it is occupied;
* keys are removed and as many taken again without storage, and the capacity stays. -/
theorem map_of_run (hashKey : Key → ℕ) (storage : ℕ → Bool) (expected : ℕ) (calls : List Call) :
    let run := (init storage expected).run hashKey calls
    let index := run.2
    (∀ key p, index.find hashKey key = some p → slotAt index.slots p =
      ⟨hashKey key, some key, key.length, (slotAt index.slots p).extra,
        (slotAt index.slots p).value⟩) ∧
    (∀ key value extra, (∃ p, index.find hashKey key = some p ∧
        (slotAt index.slots p).value = value ∧ (slotAt index.slots p).extra = extra) ↔
      ∃ before after, run.1 = before ++ .commit key value extra :: after ∧
        ∀ change ∈ after, change.key ≠ key) ∧
    (∃ held : Finset Key, (∀ key, key ∈ held ↔ (index.find hashKey key).isSome = true) ∧
      index.size = held.card) ∧
    2 * index.size ≤ index.capacity ∧
    (∀ i key, (slotAt index.slots i).key = some key →
      ∀ d < wrap index.slots (i + index.capacity - wrap index.slots (hashKey key)),
        (slotAt index.slots (wrap index.slots (hashKey key + d))).key ≠ none) ∧
    ∀ (removed : List Key) (taken : List (Key × ℕ × ℕ)),
      let less := (index.run hashKey (removed.map .remove)).2
      let again := (less.run hashKey
        (taken.map fun taken => .take (fun _ => false) taken.1 taken.2.1 taken.2.2)).2
      less.size + taken.length ≤ index.size →
        again.capacity = index.capacity ∧
          ∀ key ∈ taken.map Prod.fst, (again.find hashKey key).isSome = true := by
  intro run index
  obtain ⟨hstart, hnone⟩ := good_init hashKey storage expected
  obtain ⟨hgood, hlookup⟩ := hstart.run calls
  refine ⟨?_, ?_, hgood.held_keys, hgood.load, fun i key hi d hd => hgood.reached hi hd, ?_⟩
  · intro key p hfind
    obtain ⟨e, rfl, hentry⟩ := hgood.find_eq_some_iff.mp hfind
    rw [hgood.slotAt_eq hentry]
  · intro key value extra
    rw [← Change.foldl_next_eq_some_iff, ← hnone key, ← hlookup key, lookup,
      Option.map_eq_some_iff]
    simp only [Prod.mk.injEq]
    exact Iff.rfl
  · intro removed taken less again hfits
    obtain ⟨hless, -⟩ := hgood.run (removed.map .remove)
    have hcapacity : less.capacity = index.capacity := hgood.removes removed
    have hload := hgood.load
    have hroom : 2 * (less.size + taken.length) ≤ less.capacity := by
      rw [hcapacity]
      exact (Nat.mul_le_mul_left 2 hfits).trans hload
    obtain ⟨hkept, hheld⟩ := hless.takes hroom
    refine ⟨hkept.trans hcapacity, fun key hkey => ?_⟩
    rw [← Good.isSome_lookup]
    exact hheld key (Or.inl hkey)

end Index

end MarkdownCore.KeyIndex
