import MarkdownCore.Storage.AheadRun
import MarkdownCore.Storage.Strbuf

/-!
# The list a string buffer holds

`Strbuf.Good` is what every operation keeps: the bytes and their terminator stand at the front of
the cells that the buffer owns, and its place is the sentinel only while there are none. An
operation that asks for storage appends its bytes when the limit allows them and storage is
granted, and poisons the buffer otherwise, its bytes as they were.
-/

namespace MarkdownCore.Storage

lemma sized_eq {n : ℤ} (hlow : -2147483648 ≤ n) (hhigh : n ≤ 2147483647) : sized n = some n :=
  if_pos ⟨hlow, hhigh⟩

@[simp] lemma length_bytesAt (memory : ℕ → UInt8) (len : ℤ) :
    (bytesAt memory len).length = len.toNat := by
  simp [bytesAt]

lemma bytesAt_of_nonpos {len : ℤ} (h : len ≤ 0) (memory : ℕ → UInt8) : bytesAt memory len = [] := by
  rw [bytesAt, Int.toNat_of_nonpos h]
  rfl

/-! ### Storage granted or refused -/

section

variable {α : Type*} {width : Width} (storage : ℕ → Bool)

lemma take_storage (places : ℕ) :
    (take storage width places : Option (Cells α)) = take (fun _ => true) width places ∨
      (take storage width places : Option (Cells α)) = none := by
  rw [take, take]
  split
  · exact Or.inl rfl
  · exact Or.inr rfl

lemma realloc_storage (values : Cells α) (places : ℕ) :
    realloc storage width values places = realloc (fun _ => true) width values places ∨
      realloc storage width values places = none := by
  rw [realloc, realloc]
  split
  · exact Or.inl rfl
  · exact Or.inr rfl

namespace Ahead

lemma copy_storage (a : Ahead α) (held count : ℕ) :
    a.copy storage width held count = a.copy (fun _ => true) width held count ∨
      a.copy storage width held count = some (false, a) := by
  rw [copy, copy]
  split
  · exact Or.inl rfl
  · simp only
    split
    · cases a.next with
      | some next => exact Or.inl rfl
      | none =>
        by_cases hbytes : sizeMax / 2 / width.bytes < a.capacity
        · left
          simp only [hbytes, if_true]
        · simp only [hbytes, if_false]
          rcases @take_storage α width storage (2 * a.capacity) with htake | htake
          · rw [htake]
            exact Or.inl rfl
          · rw [htake]
            exact Or.inr rfl
    · exact Or.inl rfl

lemma extend_storage [DecidableEq α] (a : Ahead α) (held count : ℕ) :
    a.extend storage width true held count = a.extend (fun _ => true) width true held count ∨
      a.extend storage width true held count = some (false, a) := by
  rw [extend, extend]
  split
  · exact copy_storage storage a held count
  · split
    · exact Or.inl rfl
    · simp only
      generalize doubled count 64 (if a.capacity ≠ 0 then a.capacity else max count firstCapacity) =
        larger
      by_cases hswitch : a.next.isSome = true ∧ larger = 2 * a.capacity
      · left
        rw [if_pos hswitch, if_pos hswitch]
      · simp only [hswitch, if_false, if_true]
        rcases @take_storage α width storage larger with htake | htake
        · rw [htake]
          exact Or.inl rfl
        · rw [htake]
          exact Or.inr rfl

/-- An array that is given storage grows to the capacity that the doubling reaches. -/
lemma extend_granted [DecidableEq α] {a : Ahead α} {l : List α} (h : a.Good width l) {count : ℕ}
    (hroom : a.room < count) (hcapacity : a.capacity ≠ 0)
    (hfits : a.capacity ≤ sizeMax / 2 / width.bytes) (hcount : count ≤ sizeMax / 2 / width.bytes) :
    ∃ grown : Ahead α, a.extend (fun _ => true) width true l.length count = some (true, grown) ∧
      grown.Good width l ∧ count ≤ grown.room ∧ grown.capacity = doubled count 64 a.capacity := by
  have hgrown := h.extend (fun _ => true) true hroom
  have hextended : ∀ result, a.extend (fun _ => true) width true l.length count = some result →
      result.1 = true ∧ result.2.capacity = doubled count 64 a.capacity := by
    intro result hresult
    rw [extend] at hresult
    split at hresult
    next hless =>
      have hsame : doubled count 64 a.capacity = a.capacity := by
        rw [doubled, if_neg (not_lt.mpr hless)]
      rw [hsame]
      rw [copy] at hresult
      split at hresult
      · cases hresult
      · simp only at hresult
        split at hresult
        · cases hnext : a.next with
          | some next =>
            rw [hnext] at hresult
            obtain ⟨out, -, rfl⟩ := Option.map_eq_some_iff.mp hresult
            exact ⟨rfl, rfl⟩
          | none =>
            simp only [hnext, if_neg (not_lt.mpr hfits), take, if_true] at hresult
            obtain ⟨out, -, rfl⟩ := Option.map_eq_some_iff.mp hresult
            exact ⟨rfl, rfl⟩
        · cases hresult
          exact ⟨rfl, rfl⟩
    next =>
      rw [if_neg (not_lt.mpr hcount)] at hresult
      simp only [if_true, take, Option.map_some] at hresult
      split at hresult
      next hswitch =>
        rw [switch] at hresult
        split at hresult
        · cases hresult
        · split at hresult
          · cases hresult
          · obtain ⟨out, -, rfl⟩ := Option.map_eq_some_iff.mp hresult
            exact ⟨rfl, hswitch.2.symm⟩
      next =>
        obtain ⟨out, -, rfl⟩ := Option.map_eq_some_iff.mp hresult
        exact ⟨rfl, rfl⟩
  cases hextend : a.extend (fun _ => true) width true l.length count with
  | none =>
    rw [hextend] at hgrown
    cases hgrown
  | some result =>
    obtain ⟨htrue, hdoubled⟩ := hextended result hextend
    rw [hextend] at hgrown
    cases hgrown with
    | refused => cases htrue
    | had good room => exact ⟨_, rfl, good, room, hdoubled⟩

end Ahead

end

/-! ### Storage that holds a list -/

namespace Place

/-- How many of the bytes storage ahead has a copy of. -/
def moved : Place → ℕ
  | .ahead a => a.moved
  | _ => 0

/-- Storage of the buffer's own, with the bytes at its front and room past them for one more. -/
def Stored (l : List UInt8) : Place → Prop
  | .sentinel => False
  | .plain cells =>
    l.map some <+: cells ∧ l.length < cells.length ∧ (cells.length : ℤ) ≤ byteLimit + 1
  | .ahead a => a.Good oneByte l ∧ l.length < a.room ∧ (a.capacity : ℤ) ≤ byteLimit + 1

variable {place : Place} {l l' : List UInt8}

lemma Stored.held (h : place.Stored l) : l.map some <+: place.cells := by
  cases place with
  | sentinel => exact h.elim
  | plain cells => exact h.1
  | ahead a => exact h.1.held

lemma Stored.lt_asize (h : place.Stored l) : l.length < place.asize := by
  cases place with
  | sentinel => exact h.elim
  | plain cells => exact h.2.1
  | ahead a => exact h.2.1

lemma Stored.asize_le (h : place.Stored l) : (place.asize : ℤ) ≤ byteLimit + 1 := by
  cases place with
  | sentinel => exact h.elim
  | plain cells => exact h.2.2
  | ahead a =>
    have hroom : (a.room : ℤ) ≤ a.capacity := by exact_mod_cast h.1.room_le
    exact hroom.trans h.2.2

/-- The room of the storage is its own cells. -/
lemma Stored.asize_le_cells (h : place.Stored l) : place.asize ≤ place.cells.length := by
  cases place with
  | sentinel => exact h.elim
  | plain cells => exact le_rfl
  | ahead a => exact h.1.room_le.trans h.1.length.ge

lemma Stored.moved_le (h : place.Stored l) : place.moved ≤ l.length := by
  cases place with
  | sentinel => exact h.elim
  | plain cells => exact Nat.zero_le _
  | ahead a => exact h.1.moved_le

@[simp] lemma asize_withCells {cells : Cells UInt8} (h : cells.length = place.cells.length) :
    (place.withCells cells).asize = place.asize := by
  cases place with
  | sentinel => rfl
  | plain _ => exact h
  | ahead a => rfl

lemma moved_withCells (cells : Cells UInt8) : (place.withCells cells).moved = place.moved := by
  cases place <;> rfl

lemma withCells_cells : place.withCells place.cells = place := by
  cases place <;> rfl

lemma Stored.cells_withCells (h : place.Stored l) (cells : Cells UInt8) :
    (place.withCells cells).cells = cells := by
  cases place with
  | sentinel => exact h.elim
  | plain _ => rfl
  | ahead a => rfl

/-- Bytes that change past those with a copy in the storage ahead. -/
lemma Stored.withCells (h : place.Stored l) {cells : Cells UInt8} {first : ℕ}
    (hheld : l'.map some <+: cells) (hlength : cells.length = place.cells.length)
    (hroom : l'.length < place.asize) (hmoved : place.moved ≤ first) (hfirst : first ≤ l'.length)
    (hagree : l'.take first = l.take first) : (place.withCells cells).Stored l' := by
  cases place with
  | sentinel => exact h.elim
  | plain _ =>
    have hlength : cells.length = _ := hlength
    refine ⟨hheld, ?_, ?_⟩
    · rw [hlength]
      exact hroom
    · rw [hlength]
      exact h.2.2
  | ahead a =>
    exact ⟨h.1.rewrite hmoved hfirst hagree hheld hlength hroom.le, hroom, h.2.2⟩

/-- Fewer of the bytes, when no copy is of those that go. -/
lemma Stored.take (h : place.Stored l) {n : ℕ} (hmoved : place.moved ≤ n) :
    place.Stored (l.take n) := by
  by_cases hn : n ≤ l.length
  · have hlength : (l.take n).length = n := List.length_take_of_le hn
    have hstored := @Stored.withCells place l (l.take n) h place.cells n (prefix_of_take h.held n)
      rfl (lt_of_le_of_lt (hlength.trans_le hn) h.lt_asize) hmoved hlength.ge
      (by rw [List.take_take, min_self])
    rwa [withCells_cells] at hstored
  · rwa [List.take_of_length_le (not_le.mp hn).le]

end Place

/-! ### A buffer that holds a list -/

namespace Strbuf

open Place (Stored)

/-- The bytes, and their terminator, stand at the front of the buffer's storage; or the buffer has
none, and owns none. -/
structure Good (buf : Strbuf) (l : List UInt8) : Prop where
  size : buf.size = l.length
  stands : buf.place = .sentinel ∧ l = [] ∨
    buf.place.Stored l ∧ (l ++ [0]).map some <+: buf.place.cells

variable {buf : Strbuf} {l : List UInt8}

lemma good_empty : Good empty [] := ⟨rfl, Or.inl ⟨rfl, rfl⟩⟩

lemma Good.stored (h : buf.Good l) (hasize : buf.asize ≠ 0) :
    buf.place.Stored l ∧ (l ++ [0]).map some <+: buf.place.cells := by
  obtain ⟨hplace, -⟩ | hstored := h.stands
  · rw [asize, hplace] at hasize
    exact absurd rfl hasize
  · exact hstored

lemma Good.asize_le (h : buf.Good l) : (buf.asize : ℤ) ≤ byteLimit + 1 := by
  obtain ⟨hplace, -⟩ | ⟨hstored, -⟩ := h.stands
  · rw [asize, hplace]
    decide
  · exact hstored.asize_le

lemma Good.length_le (h : buf.Good l) : (l.length : ℤ) ≤ byteLimit := by
  obtain ⟨-, rfl⟩ | ⟨hstored, -⟩ := h.stands
  · decide
  · have hlt := hstored.lt_asize
    have hle := hstored.asize_le
    omega

lemma Good.length_le_asize (h : buf.Good l) : l.length ≤ buf.asize := by
  obtain ⟨-, rfl⟩ | ⟨hstored, -⟩ := h.stands
  · exact Nat.zero_le _
  · exact hstored.lt_asize.le

/-- A buffer with bytes owns storage. -/
lemma Good.asize_ne_zero (h : buf.Good l) (hl : l ≠ []) : buf.asize ≠ 0 := by
  obtain ⟨-, rfl⟩ | ⟨hstored, -⟩ := h.stands
  · exact absurd rfl hl
  · exact Nat.ne_of_gt (lt_of_le_of_lt (Nat.zero_le _) hstored.lt_asize)

lemma Good.content_eq (h : buf.Good l) : buf.content = l := by
  have hheld : l.map some <+: buf.place.cells := by
    obtain ⟨-, rfl⟩ | ⟨hstored, -⟩ := h.stands
    · exact List.nil_prefix
    · exact hstored.held
  rw [content, h.size, take_of_held hheld le_rfl, List.take_length, List.filterMap_map]
  simp

/-- The bytes of the content and the terminator are there to be read. -/
lemma Good.read_eq (h : buf.Good l) {i : ℕ} (hi : i ≤ l.length) :
    buf.read i = (l ++ [0])[i]? := by
  obtain ⟨hplace, rfl⟩ | ⟨hstored, hheld⟩ := h.stands
  · rw [read, hplace]
    rfl
  · have hcell : (buf.place.cells[i]?).join = (l ++ [0])[i]? := by
      obtain ⟨rest, hrest⟩ := hheld
      have hi' : i < ((l ++ [0]).map some).length := by
        rw [List.length_map, List.length_append]
        exact Nat.lt_succ_of_le hi
      rw [← hrest, List.getElem?_append_left hi', List.getElem?_map]
      cases (l ++ [0])[i]? <;> rfl
    rw [read]
    split
    next hplace =>
      rw [hplace] at hstored
      exact hstored.elim
    next => exact hcell

lemma poison_good (h : buf.Good l) : buf.poison.Good l := ⟨h.size, h.stands⟩

/-! ### Writes -/

/-- A terminator after the bytes, in storage with room for it. -/
lemma terminate_spec (hsize : buf.size = l.length) (h : buf.place.Stored l) :
    ∃ next, buf.terminate = some next ∧ next.Good l ∧ next.oom = buf.oom ∧
      next.asize = buf.asize := by
  have hcells := h.lt_asize.trans_le h.asize_le_cells
  obtain ⟨out, hout, hlength, hheld⟩ := @writeCells_between _ _ l [0] [] h.held List.nil_prefix
    hcells
  rw [List.append_nil] at hheld
  have hstored := @Stored.withCells _ l l h out l.length
    (((List.prefix_append l [0]).map some).trans hheld) hlength h.lt_asize h.moved_le le_rfl rfl
  refine ⟨{ buf with place := buf.place.withCells out }, ?_, ⟨hsize, Or.inr ⟨hstored, ?_⟩⟩, rfl, ?_⟩
  · rw [terminate, write, Place.update, hsize, hout]
    rfl
  · simp only
    rw [h.cells_withCells]
    exact hheld
  · exact Place.asize_withCells hlength

/-- Bytes and a terminator after the content, in storage with room for them. -/
lemma append_spec {bytes : List UInt8} (hsize : buf.size = l.length) (h : buf.place.Stored l)
    (hroom : l.length + bytes.length < buf.asize) :
    ∃ next, buf.append bytes = some next ∧ next.Good (l ++ bytes) ∧ next.oom = buf.oom := by
  have hcells := hroom.le.trans h.asize_le_cells
  obtain ⟨out, hout, hlength, hheld⟩ := @writeCells_between _ _ l bytes [] h.held List.nil_prefix
    hcells
  rw [List.append_nil] at hheld
  have hroom' : (l ++ bytes).length < buf.place.asize := by
    rw [List.length_append]
    exact hroom
  have hstored := @Stored.withCells _ l (l ++ bytes) h out l.length hheld hlength hroom' h.moved_le
    (by simp) (by simp)
  have hle := h.asize_le
  have hsized : sized (buf.size + bytes.length) = some (buf.size + bytes.length : ℤ) := by
    apply sized_eq
    · omega
    · simp only [asize, byteLimit] at hroom hle
      omega
  have hnat : ((buf.size : ℤ) + bytes.length).toNat = (l ++ bytes).length := by
    rw [hsize, List.length_append]
    omega
  obtain ⟨next, hnext, hgood, hoom, -⟩ := @terminate_spec
    { buf with place := buf.place.withCells out, size := (l ++ bytes).length } _ rfl hstored
  refine ⟨next, ?_, hgood, hoom⟩
  have hwrite : buf.write buf.size bytes = some { buf with place := buf.place.withCells out } := by
    rw [write, Place.update, hsize, hout]
    rfl
  rw [append, hwrite]
  simp only [Option.bind_eq_bind, Option.bind_some]
  rw [hsized]
  simp only [Option.bind_some]
  rw [hnat]
  exact hnext

/-! ### Growth -/

/-- An operation that asks for storage: what it gives when storage is granted, and the buffer
poisoned when it is refused. -/
def Granted (buf : Strbuf) (P : Strbuf → Prop) (f : (ℕ → Bool) → Option Strbuf) : Prop :=
  ∃ next, P next ∧ f (fun _ => true) = some next ∧
    ∀ storage, f storage = some next ∨ f storage = some buf.poison

lemma Granted.of_eq {P : Strbuf → Prop} {f : (ℕ → Bool) → Option Strbuf} {next : Strbuf}
    (h : ∀ storage, f storage = some next) (hnext : P next) : Granted buf P f :=
  ⟨next, hnext, h _, fun storage => Or.inl (h storage)⟩

/-- An operation that asks for storage and then works on the buffer, but not when it is poisoned. -/
lemma Granted.bind {P Q : Strbuf → Prop} {f : (ℕ → Bool) → Option Strbuf}
    {g : Strbuf → Option Strbuf} (h : Granted buf P f)
    (hg : ∀ next, P next → ∃ out, g next = some out ∧ Q out)
    (hpoison : g buf.poison = some buf.poison) :
    Granted buf Q fun storage => (f storage).bind g := by
  obtain ⟨next, hnext, hgranted, hstorage⟩ := h
  obtain ⟨out, hout, hQ⟩ := hg next hnext
  refine ⟨out, hQ, ?_, ?_⟩
  · simp only [hgranted, Option.bind_some, hout]
  · intro storage
    rcases hstorage storage with heq | heq
    · simp only [heq, Option.bind_some, hout, true_or]
    · simp only [heq, Option.bind_some, hpoison, or_true]

/-- Storage granted to a buffer that moves whole has the bytes at its front. -/
lemma moveWhole_spec (h : buf.Good l) {places : ℕ} (hplaces : l.length < places)
    (hbytes : (places : ℤ) ≤ byteLimit + 1) :
    ∃ cells : Cells UInt8, buf.moveWhole (fun _ => true) places = some (some cells) ∧
      (Place.plain cells).Stored l ∧ cells.length = places ∧
      ∀ storage, buf.moveWhole storage places = some (some cells) ∨
        buf.moveWhole storage places = none := by
  have hsmall : places * oneByte.bytes < 2 ^ 64 := by
    simp only [oneByte, byteLimit] at hbytes ⊢
    omega
  have hstored : ∀ cells : Cells UInt8, cells.length = places → l.map some <+: cells →
      (Place.plain cells).Stored l := by
    intro cells hlength hheld
    exact ⟨hheld, hlength.symm ▸ hplaces, hlength.symm ▸ hbytes⟩
  -- Storage that the allocator extends keeps the bytes that it held.
  have hextended : ∀ old : Cells UInt8, l.map some <+: old →
      (∀ storage, buf.moveWhole storage places = (realloc storage oneByte old places).map some) →
      ∃ cells : Cells UInt8, buf.moveWhole (fun _ => true) places = some (some cells) ∧
        (Place.plain cells).Stored l ∧ cells.length = places ∧
        ∀ storage, buf.moveWhole storage places = some (some cells) ∨
          buf.moveWhole storage places = none := by
    intro old hold hmove
    obtain ⟨cells, hcells⟩ : ∃ cells, realloc (fun _ => true) oneByte old places = some cells :=
      ⟨_, rfl⟩
    obtain ⟨hlength, hkept⟩ := realloc_eq_some hcells hsmall
    have hheld : l.map some <+: old.take places :=
      List.prefix_take_iff.mpr ⟨hold, by simpa using hplaces.le⟩
    refine ⟨cells, by rw [hmove, hcells, Option.map_some],
      hstored cells hlength (hheld.trans hkept), hlength, ?_⟩
    intro storage
    rcases @realloc_storage UInt8 oneByte storage old places with heq | heq
    · left
      rw [hmove, heq, hcells, Option.map_some]
    · right
      rw [hmove, heq, Option.map_none]
  cases hplace : buf.place with
  | sentinel =>
    obtain ⟨-, rfl⟩ | ⟨hgood, -⟩ := h.stands
    · refine hextended [] List.nil_prefix ?_
      intro storage
      simp only [moveWhole, hplace, Place.cells]
    · rw [hplace] at hgood
      exact hgood.elim
  | plain old =>
    obtain ⟨hsentinel, -⟩ | ⟨hgood, -⟩ := h.stands
    · rw [hplace] at hsentinel
      cases hsentinel
    · rw [hplace] at hgood
      refine hextended old hgood.1 ?_
      intro storage
      simp only [moveWhole, hplace, Place.cells]
  | ahead a =>
    obtain ⟨hsentinel, -⟩ | ⟨hgood, -⟩ := h.stands
    · rw [hplace] at hsentinel
      cases hsentinel
    · rw [hplace] at hgood
      set fresh : Cells UInt8 := List.replicate (placesOf oneByte places) none with hfresh
      have hlength : fresh.length = places := by
        rw [hfresh, List.length_replicate, placesOf_eq hsmall]
      have htake : take (fun _ => true) oneByte places = some fresh := rfl
      obtain ⟨out, hout, houtlen, hheld⟩ := @copyCells_copies _ fresh a.values l 0 l.length
        List.nil_prefix hgood.1.held (Nat.zero_le _) le_rfl (hlength.ge.trans' hplaces.le)
      rw [List.take_length] at hheld
      rw [Nat.sub_zero] at hout
      have hout' : buf.moveWhole (fun _ => true) places = some (some out) := by
        simp only [moveWhole, hplace, htake, Option.map_some, h.size, hout]
      refine ⟨out, hout', hstored out (houtlen.trans hlength) hheld, houtlen.trans hlength, ?_⟩
      intro storage
      rcases @take_storage UInt8 oneByte storage places with heq | heq
      · left
        rw [← hout']
        simp only [moveWhole, hplace, heq]
      · right
        simp only [moveWhole, hplace, heq, Option.map_none]

/-- The size that a growth asks for is past its target, and a size. -/
lemma newSize_spec {target : ℤ} (hpos : 0 < target) (hlimit : target ≤ byteLimit) :
    ∃ n : ℕ, newSize target = some n ∧ target < n ∧ (n : ℤ) ≤ byteLimit + 1 := by
  simp only [byteLimit] at hlimit
  have hsize : newSize target = some (if (target + target / 2 + 1 + 7) / 8 * 8 > byteLimit + 1 then
      byteLimit + 1 else (target + target / 2 + 1 + 7) / 8 * 8).toNat := by
    rw [newSize, sized_eq (by omega) (by omega)]
    simp only [Option.bind_eq_bind, Option.bind_some]
    rw [sized_eq (by omega) (by omega)]
    simp only [Option.bind_some]
    rw [sized_eq (by omega) (by omega), Option.bind_some]
  by_cases hbig : (target + target / 2 + 1 + 7) / 8 * 8 > byteLimit + 1
  · rw [if_pos hbig] at hsize
    refine ⟨_, hsize, ?_⟩
    simp only [byteLimit]
    omega
  · rw [if_neg hbig] at hsize
    refine ⟨_, hsize, ?_⟩
    simp only [byteLimit] at hbig ⊢
    omega

/-- Growth to a size that the limit allows. -/
theorem grow_granted (h : buf.Good l) (hoom : buf.oom = false) {target : ℤ} (hpos : 0 < target)
    (hlimit : target ≤ byteLimit) :
    Granted buf
      (fun next => next.Good l ∧ next.oom = false ∧ next.place.Stored l ∧ target < next.asize)
      (fun storage => buf.grow storage target) := by
  by_cases hsmall : target < buf.asize
  · have hasize : buf.asize ≠ 0 := by omega
    refine @Granted.of_eq buf _ _ buf ?_ ⟨h, hoom, (h.stored hasize).1, hsmall⟩
    intro storage
    rw [grow, if_neg (not_le.mpr hpos), if_pos (Or.inr hsmall)]
  · have hfront := h.length_le_asize
    obtain ⟨n, hsize, hn, hbytes⟩ := newSize_spec hpos hlimit
    obtain ⟨cells, hcells, hstored, hlength, hstorage⟩ :=
      @moveWhole_spec buf l h n (by omega) hbytes
    have hgrow : ∀ storage, buf.grow storage target = buf.movedTo (buf.moveWhole storage n) := by
      intro storage
      rw [grow, if_neg (not_le.mpr hpos), if_neg (by simp [hoom, hsmall]),
        if_neg (not_lt.mpr hlimit), hsize, Option.bind_some]
    obtain ⟨next, hnext, hgood, hoom', hasize⟩ :=
      @terminate_spec { buf with place := .plain cells } l h.size hstored
    have hroom : target < next.asize := by
      rw [hasize]
      simp only [asize, Place.asize, hlength]
      exact hn
    have hmoved : buf.movedTo (some (some cells)) = some next := hnext
    refine ⟨next, ⟨hgood, hoom'.trans hoom, (hgood.stored (by omega)).1, hroom⟩, ?_, ?_⟩
    · simp only [hgrow, hcells, hmoved]
    · intro storage
      simp only [hgrow]
      rcases hstorage storage with heq | heq
      · rw [heq]
        exact Or.inl hmoved
      · rw [heq]
        exact Or.inr rfl

/-- Growth for bytes to be appended, which the limit allows. -/
theorem growBy_granted (h : buf.Good l) (hoom : buf.oom = false) {add : ℤ} (hpos : 0 < add)
    (hlimit : l.length + add ≤ byteLimit) :
    Granted buf
      (fun next => next.Good l ∧ next.oom = false ∧ next.place.Stored l ∧
        l.length + add < next.asize)
      (fun storage => buf.growBy storage add) := by
  have hsize : sized (buf.size + add) = some (l.length + add) := by
    rw [h.size]
    simp only [byteLimit] at hlimit
    exact sized_eq (by omega) (by omega)
  have hroom : ¬ (add < 0 ∨ add > byteLimit - buf.size) := by
    rw [h.size]
    omega
  have hgrowBy : ∀ storage, buf.growBy storage add =
      if (l.length : ℤ) + add ≥ buf.asize then buf.grow storage (l.length + add) else some buf := by
    intro storage
    rw [growBy, if_neg hroom, hsize]
    rfl
  by_cases hfits : (l.length : ℤ) + add ≥ buf.asize
  · have hgranted := @grow_granted buf l h hoom (l.length + add) (by omega) hlimit
    simp only [hgrowBy, if_pos hfits]
    exact hgranted
  · refine @Granted.of_eq buf _ _ buf ?_
      ⟨h, hoom, (h.stored (by omega)).1, not_le.mp hfits⟩
    intro storage
    rw [hgrowBy, if_neg hfits]

/-! ### Appends -/

/-- What an append gives: the bytes after those that stand there. -/
def Appended (buf : Strbuf) (l : List UInt8) (f : (ℕ → Bool) → Option Strbuf) : Prop :=
  Granted buf (fun next => next.Good l ∧ next.oom = false) f

lemma putGrown_granted (h : buf.Good l) (hoom : buf.oom = false) (memory : ℕ → UInt8) {len : ℤ}
    (hpos : 0 < len) (hlimit : l.length + len ≤ byteLimit) :
    Appended buf (l ++ bytesAt memory len) fun storage => buf.putGrown storage memory len := by
  refine (growBy_granted h hoom hpos hlimit).bind ?_ (if_pos rfl)
  rintro next ⟨hgood, hnext, hstored, hroom⟩
  obtain ⟨out, hout, hgood', hoom'⟩ := @append_spec next l (bytesAt memory len) hgood.size hstored
    (by rw [length_bytesAt]; omega)
  refine ⟨out, ?_, hgood', hoom'.trans hnext⟩
  rw [if_neg (by simp [hnext])]
  exact hout

/-- An append that the room of the buffer has place for. -/
lemma append_granted (h : buf.Good l) (hoom : buf.oom = false) (bytes : List UInt8)
    (hroom : (l.length : ℤ) + bytes.length < buf.asize) :
    Appended buf (l ++ bytes) fun _ => buf.append bytes := by
  obtain ⟨next, hnext, hgood, hoom'⟩ := append_spec h.size (h.stored (by omega)).1
    (show l.length + bytes.length < buf.asize by omega)
  exact Granted.of_eq (fun _ => hnext) ⟨hgood, hoom'.trans hoom⟩

/-- An append that nothing is written by. -/
lemma put_granted_of_nonpos (h : buf.Good l) (hoom : buf.oom = false) {len : ℤ} (hlen : len ≤ 0)
    (memory : ℕ → UInt8) : Appended buf (l ++ bytesAt memory len) fun _ => some buf := by
  rw [bytesAt_of_nonpos hlen, List.append_nil]
  exact Granted.of_eq (fun _ => rfl) ⟨h, hoom⟩

theorem put_granted (h : buf.Good l) (hoom : buf.oom = false) (memory : ℕ → UInt8) {len : ℤ}
    (hlimit : l.length + len ≤ byteLimit) :
    Appended buf (l ++ bytesAt memory len) fun storage => buf.put storage memory len := by
  by_cases hlen : len ≤ 0
  · simp only [put, if_pos hlen]
    exact put_granted_of_nonpos h hoom hlen memory
  · by_cases hroom : len < (buf.asize : ℤ) - buf.size
    · have hfits : len < (buf.asize : ℤ) - buf.size ∧ ¬ buf.oom := ⟨hroom, by simp [hoom]⟩
      simp only [put, if_neg hlen, if_pos hfits]
      refine append_granted h hoom _ ?_
      rw [length_bytesAt]
      rw [h.size] at hroom
      omega
    · have hshort : ¬ (len < (buf.asize : ℤ) - buf.size ∧ ¬ buf.oom) := fun hfits => hroom hfits.1
      simp only [put, if_neg hlen, if_neg hshort]
      exact putGrown_granted h hoom memory (not_le.mp hlen) hlimit

lemma putc_granted (h : buf.Good l) (hoom : buf.oom = false) (c : ℤ)
    (hlimit : (l.length : ℤ) + 1 ≤ byteLimit) :
    Appended buf (l ++ [UInt8.ofNat (c % 256).toNat]) fun storage => buf.putc storage c := by
  have hsize : sized (buf.size + 1) = some ((l.length : ℤ) + 1) := by
    rw [h.size]
    simp only [byteLimit] at hlimit
    exact sized_eq (by omega) (by omega)
  have hputc : ∀ storage, buf.putc storage c =
      if (l.length : ℤ) + 1 < buf.asize ∧ ¬ buf.oom then buf.append [UInt8.ofNat (c % 256).toNat]
      else buf.putGrown storage (fun _ => UInt8.ofNat (c % 256).toNat) 1 := by
    intro storage
    rw [putc, hsize]
    rfl
  simp only [hputc]
  by_cases hroom : (l.length : ℤ) + 1 < buf.asize ∧ ¬ buf.oom
  · simp only [if_pos hroom]
    exact append_granted h hoom _ hroom.1
  · simp only [if_neg hroom]
    exact putGrown_granted h hoom (fun _ => UInt8.ofNat (c % 256).toNat) Int.one_pos hlimit

/-- A buffer that grows ahead, or starts to, has room for an append when storage is granted. -/
lemma extendAhead_granted (h : buf.Good l) {total : ℕ} (hl : l.length < total)
    (hroom : buf.asize < total) (hasize : buf.asize ≠ 0) (hlimit : (total : ℤ) ≤ byteLimit + 1)
    (hlarger : (Ahead.doubled total 64 buf.place.capacity : ℤ) ≤ byteLimit + 1) :
    ∃ grown : Ahead UInt8,
      buf.extendAhead (fun _ => true) total (Ahead.doubled total 64 buf.place.capacity) =
          some (true, grown) ∧
        (Place.ahead grown).Stored l ∧ total ≤ grown.room ∧
        ∀ storage, buf.extendAhead storage total (Ahead.doubled total 64 buf.place.capacity) =
            some (true, grown) ∨
          ∃ left, buf.extendAhead storage total (Ahead.doubled total 64 buf.place.capacity) =
            some (false, left) := by
  have hstored := (h.stored hasize).1
  have hheaded : headed (fun _ => true) = fun _ => true := rfl
  cases hplace : buf.place with
  | sentinel =>
    rw [hplace] at hstored
    exact hstored.elim
  | plain cells =>
    rw [hplace] at hstored hlarger
    set larger := Ahead.doubled total 64 (Place.plain cells).capacity with hdoubled
    have hsmall : larger * oneByte.bytes < 2 ^ 64 := by
      simp only [oneByte, byteLimit] at hlarger ⊢
      omega
    have htotal : total ≤ larger := by
      have hpos : 0 < cells.length := lt_of_le_of_lt (Nat.zero_le _) hstored.2.1
      have hle : total ≤ 2 ^ 64 := by
        simp only [byteLimit] at hlimit
        omega
      apply Ahead.count_le_doubled
      exact hle.trans (Nat.le_mul_of_pos_left _ hpos)
    set fresh : Cells UInt8 := List.replicate (placesOf oneByte larger) none with hfresh
    have hlength : fresh.length = larger := by
      rw [hfresh, List.length_replicate, placesOf_eq hsmall]
    have htake : take (fun _ => true) oneByte larger = some fresh := rfl
    obtain ⟨out, hout, houtlen, hheld⟩ := @copyCells_copies _ fresh cells l 0 l.length
      List.nil_prefix hstored.1 (Nat.zero_le _) le_rfl (by omega)
    rw [List.take_length] at hheld
    rw [Nat.sub_zero] at hout
    have hgood := @Ahead.Good.fresh oneByte _ l out larger total hheld (houtlen.trans hlength)
      hsmall hl.le htotal
    have hextend : buf.extendAhead (fun _ => true) total larger =
        some (true, ⟨out, aheadRoom larger total oneByte, larger, none, 0⟩) := by
      simp only [extendAhead, hplace, hheaded, htake, Place.cells, h.size, hout, Option.map_some]
    refine ⟨_, hextend, ⟨hgood, hl.trans_le (le_aheadRoom htotal), hlarger⟩,
      le_aheadRoom htotal, ?_⟩
    intro storage
    rcases @take_storage UInt8 oneByte (headed storage) larger with heq | heq
    · left
      rw [← hextend]
      simp only [extendAhead, hplace, heq, hheaded]
    · right
      exact ⟨_, by simp only [extendAhead, hplace, heq]; rfl⟩
  | ahead a =>
    rw [hplace] at hstored hlarger
    have hasize' : buf.asize = a.room := by rw [asize, hplace]; rfl
    have hcapacity : a.capacity ≠ 0 := by
      have hle := hstored.1.room_le
      omega
    have hle : (a.capacity : ℤ) ≤ byteLimit + 1 := hstored.2.2
    have htotal : total ≤ 2 ^ 62 := by
      simp only [byteLimit] at hlimit
      omega
    obtain ⟨grown, hextend, hgood, hroom', hgrown⟩ :=
      @Ahead.extend_granted UInt8 oneByte _ a l hstored.1 total (by omega) hcapacity
        (by simp only [sizeMax, oneByte, byteLimit] at hle ⊢; omega)
        (by simp only [sizeMax, oneByte]; omega)
    refine ⟨grown, ?_, ⟨hgood, by omega, ?_⟩, hroom', ?_⟩
    · simp only [extendAhead, hplace, hheaded, h.size]
      exact hextend
    · rw [hgrown]
      exact hlarger
    · intro storage
      rcases @Ahead.extend_storage UInt8 oneByte (headed storage) _ a l.length total with heq | heq
      · left
        simp only [extendAhead, hplace, h.size]
        rw [heq]
        exact hextend
      · right
        refine ⟨a, ?_⟩
        simp only [extendAhead, hplace, h.size]
        exact heq

lemma putAheadGrown_granted (h : buf.Good l) (hoom : buf.oom = false) (memory : ℕ → UInt8) {len : ℤ}
    (hpos : 0 < len) (hlimit : l.length + len ≤ byteLimit)
    (hroom : (buf.asize : ℤ) ≤ l.length + len) :
    Appended buf (l ++ bytesAt memory len) fun storage => buf.putAheadGrown storage memory len := by
  by_cases hwhole : ¬ buf.place.growsAhead ∧ buf.asize ≤ 2 * aheadSlice oneByte
  · simp only [putAheadGrown, if_pos hwhole]
    exact putGrown_granted h hoom memory hpos hlimit
  · have hwrites : ¬ (len ≤ 0 ∨ buf.oom) := by simp [hoom, hpos]
    have hfits : ¬ len > byteLimit - buf.size := by
      rw [h.size]
      omega
    simp only [putAheadGrown, if_neg hwhole, if_neg hwrites, if_neg hfits]
    by_cases hlarger : (Ahead.doubled (buf.size + len.toNat + 1) 64 buf.place.capacity : ℤ) >
        byteLimit + 1
    · simp only [if_pos hlarger]
      exact putGrown_granted h hoom memory hpos hlimit
    · simp only [if_neg hlarger]
      have hasize : buf.asize ≠ 0 := by
        intro hzero
        obtain ⟨hplace, -⟩ | ⟨hstored, -⟩ := h.stands
        · exact hwhole ⟨by simp [hplace, Place.growsAhead], by omega⟩
        · have := hstored.lt_asize
          rw [asize] at hzero
          omega
      have hsize := h.size
      obtain ⟨grown, hextend, hstored, htotal, hstorage⟩ :=
        @extendAhead_granted buf l h (buf.size + len.toNat + 1) (by omega) (by omega) hasize
          (by omega) (not_lt.mp hlarger)
      have hbytes : l.length + (bytesAt memory len).length < grown.room := by
        rw [length_bytesAt]
        omega
      obtain ⟨next, hnext, hgood, hoom'⟩ :=
        @append_spec { buf with place := .ahead grown } l (bytesAt memory len) h.size hstored hbytes
      refine ⟨next, ⟨hgood, hoom'.trans hoom⟩, ?_, ?_⟩
      · simp only [hextend, Option.bind_some, if_true]
        exact hnext
      · intro storage
        rcases hstorage storage with heq | ⟨left, heq⟩
        · left
          simp only [heq, Option.bind_some, if_true]
          exact hnext
        · right
          simp only [heq, Option.bind_some]
          rfl

theorem putAhead_granted (h : buf.Good l) (hoom : buf.oom = false) (memory : ℕ → UInt8) {len : ℤ}
    (hlimit : l.length + len ≤ byteLimit) :
    Appended buf (l ++ bytesAt memory len) fun storage => buf.putAhead storage memory len := by
  by_cases hlen : len ≤ 0
  · simp only [putAhead, if_pos hlen]
    exact put_granted_of_nonpos h hoom hlen memory
  · by_cases hroom : len < (buf.asize : ℤ) - buf.size
    · have hfits : len < (buf.asize : ℤ) - buf.size ∧ ¬ buf.oom := ⟨hroom, by simp [hoom]⟩
      simp only [putAhead, if_neg hlen, if_pos hfits]
      refine append_granted h hoom _ ?_
      rw [length_bytesAt]
      rw [h.size] at hroom
      omega
    · have hshort : ¬ (len < (buf.asize : ℤ) - buf.size ∧ ¬ buf.oom) := fun hfits => hroom hfits.1
      simp only [putAhead, if_neg hlen, if_neg hshort]
      refine putAheadGrown_granted h hoom memory (not_le.mp hlen) hlimit ?_
      rw [h.size] at hroom
      omega

/-! ### Writes that are lost -/

lemma poison_eq (hoom : buf.oom = true) : buf.poison = buf := by
  rw [poison, ← hoom]

variable (storage : ℕ → Bool)

lemma grow_lost (h : buf.Good l) {target : ℤ}
    (hlost : buf.oom = true ∨ target ≤ 0 ∨ byteLimit < target) :
    buf.grow storage target = some buf.poison := by
  rw [grow]
  split
  · rfl
  next hpos =>
    split
    next hsame =>
      rcases hsame with hoom | hsmall
      · rw [poison_eq hoom]
      · rcases hlost with hoom | hlow | hhigh
        · rw [poison_eq hoom]
        · exact absurd hlow hpos
        · have := h.asize_le
          omega
    next hsame =>
      have hhigh : target > byteLimit := by
        rcases hlost with hoom | hlow | hhigh
        · exact absurd (Or.inl hoom) hsame
        · exact absurd hlow hpos
        · exact hhigh
      rw [if_pos hhigh]

lemma growBy_lost (h : buf.Good l) {add : ℤ}
    (hlost : buf.oom = true ∨ byteLimit < l.length + add) :
    buf.growBy storage add = some buf.poison := by
  rw [growBy, h.size]
  split
  · rfl
  next hfits =>
    have hoom : buf.oom = true := by
      rcases hlost with hoom | hhigh
      · exact hoom
      · omega
    have hsize : sized (l.length + add) = some (l.length + add) := by
      simp only [byteLimit] at hfits
      exact sized_eq (by omega) (by omega)
    rw [hsize]
    simp only [Option.bind_eq_bind, Option.bind_some]
    split
    · exact grow_lost storage h (Or.inl hoom)
    · rw [poison_eq hoom]

lemma putGrown_lost (h : buf.Good l) (memory : ℕ → UInt8) {len : ℤ}
    (hlost : buf.oom = true ∨ byteLimit < l.length + len) :
    buf.putGrown storage memory len = some buf.poison := by
  rw [putGrown, growBy_lost storage h hlost]
  simp only [Option.bind_eq_bind, Option.bind_some]
  exact if_pos rfl

/-- A write that is lost is one that writes. -/
lemma Good.pos_of_lost (h : buf.Good l) {len : ℤ} (hoom : ¬ buf.oom = true)
    (hlost : buf.oom = true ∨ byteLimit < l.length + len) :
    0 < len ∧ byteLimit < l.length + len := by
  have hlimit := h.length_le
  rcases hlost with hoom' | hhigh
  · exact absurd hoom' hoom
  · exact ⟨by omega, hhigh⟩

lemma put_lost (h : buf.Good l) (memory : ℕ → UInt8) {len : ℤ}
    (hlost : buf.oom = true ∨ byteLimit < l.length + len) :
    buf.put storage memory len = some buf.poison := by
  rw [put]
  split
  next hlen =>
    by_cases hoom : buf.oom = true
    · rw [poison_eq hoom]
    · exact absurd hlen (not_le.mpr (h.pos_of_lost hoom hlost).1)
  next =>
    split
    next hfits =>
      have hhigh := (h.pos_of_lost (by simpa using hfits.2) hlost).2
      have hroom := hfits.1
      have hasize := h.asize_le
      rw [h.size] at hroom
      omega
    next => exact putGrown_lost storage h memory hlost

lemma putc_lost (h : buf.Good l) (c : ℤ)
    (hlost : buf.oom = true ∨ byteLimit < (l.length : ℤ) + 1) :
    buf.putc storage c = some buf.poison := by
  have hlimit := h.length_le
  have hsize : sized (buf.size + 1) = some ((l.length : ℤ) + 1) := by
    rw [h.size]
    simp only [byteLimit] at hlimit
    exact sized_eq (by omega) (by omega)
  rw [putc, hsize]
  simp only [Option.bind_eq_bind, Option.bind_some]
  split
  next hfits =>
    have hhigh := (h.pos_of_lost (by simpa using hfits.2) hlost).2
    have hroom := hfits.1
    have hasize := h.asize_le
    omega
  next => exact putGrown_lost storage h _ hlost

lemma putAhead_lost (h : buf.Good l) (memory : ℕ → UInt8) {len : ℤ}
    (hlost : buf.oom = true ∨ byteLimit < l.length + len) :
    buf.putAhead storage memory len = some buf.poison := by
  rw [putAhead]
  split
  next hlen =>
    by_cases hoom : buf.oom = true
    · rw [poison_eq hoom]
    · exact absurd hlen (not_le.mpr (h.pos_of_lost hoom hlost).1)
  next hpos =>
    split
    next hfits =>
      have hhigh := (h.pos_of_lost (by simpa using hfits.2) hlost).2
      have hroom := hfits.1
      have hasize := h.asize_le
      rw [h.size] at hroom
      omega
    next =>
      rw [putAheadGrown]
      split
      · exact putGrown_lost storage h memory hlost
      · split
        next hnone =>
          rcases hnone with hlen | hoom
          · exact absurd hlen hpos
          · rw [poison_eq hoom]
        next hwrites =>
          have hhigh := (h.pos_of_lost (fun hoom => hwrites (Or.inr hoom)) hlost).2
          rw [if_pos (by rw [h.size]; omega)]

end Strbuf

end MarkdownCore.Storage
