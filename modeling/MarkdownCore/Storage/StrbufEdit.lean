import Mathlib.Data.List.DropRight
import MarkdownCore.Storage.StrbufRun

/-!
# A string buffer written in place

The operations that ask for no storage: each does to the bytes of a buffer what its name says, with
the terminator after them and the copies past the first byte that changed void.
-/

namespace MarkdownCore.Storage

open Inline (isWhitespace ispunct)

namespace Strbuf

open Place (Stored)

variable {buf : Strbuf} {l : List UInt8}

/-! ### Operations in place -/

/-- An operation that asks for no storage, on the bytes and the poison that a buffer has. -/
def Edited (buf : Strbuf) (l : List UInt8) (result : Option Strbuf) : Prop :=
  ∃ next, result = some next ∧ next.Good l ∧ next.oom = buf.oom

@[simp] lemma unsettle_size (first : ℕ) : (buf.unsettle first).size = buf.size := by
  rw [unsettle]
  split <;> rfl

@[simp] lemma unsettle_oom (first : ℕ) : (buf.unsettle first).oom = buf.oom := by
  rw [unsettle]
  split <;> rfl

@[simp] lemma unsettle_asize (first : ℕ) : (buf.unsettle first).asize = buf.asize := by
  rw [unsettle]
  split
  next hplace =>
    rw [asize, asize, hplace]
    rfl
  next => rfl

@[simp] lemma unsettle_cells (first : ℕ) :
    (buf.unsettle first).place.cells = buf.place.cells := by
  rw [unsettle]
  split
  next hplace =>
    rw [hplace]
    rfl
  next => rfl

lemma moved_unsettle_le (first : ℕ) : (buf.unsettle first).place.moved ≤ first := by
  rw [unsettle]
  split
  next a hplace => exact Ahead.unsettle_moved_le first
  next hplace =>
    cases hp : buf.place with
    | ahead a => exact absurd hp (hplace a)
    | _ => exact Nat.zero_le _

lemma stored_unsettle (h : buf.place.Stored l) (first : ℕ) :
    (buf.unsettle first).place.Stored l := by
  rw [unsettle]
  split
  next a hplace =>
    rw [hplace] at h
    exact ⟨h.1.unsettle first, h.2.1, h.2.2⟩
  next => exact h

lemma Good.unsettle (h : buf.Good l) (first : ℕ) : (buf.unsettle first).Good l := by
  refine ⟨(unsettle_size first).trans h.size, ?_⟩
  obtain ⟨hplace, hl⟩ | ⟨hstored, hheld⟩ := h.stands
  · left
    rw [Strbuf.unsettle, hplace]
    exact ⟨hplace, hl⟩
  · right
    rw [unsettle_cells]
    exact ⟨stored_unsettle hstored first, hheld⟩

/-- The first bytes alone, in storage that ends no copy past them. -/
lemma terminate_take {n : ℕ} (hsize : buf.size = n) (hn : n ≤ l.length) (h : buf.place.Stored l)
    (hmoved : buf.place.moved ≤ n) : Edited buf (l.take n) buf.terminate := by
  obtain ⟨next, hnext, hgood, hoom, -⟩ :=
    @terminate_spec buf (l.take n) (hsize.trans (List.length_take_of_le hn).symm) (h.take hmoved)
  exact ⟨next, hnext, hgood, hoom⟩

theorem clear_spec (h : buf.Good l) :
    ∃ next, buf.clear = some next ∧ next.Good [] ∧ next.oom = false := by
  set cleared : Strbuf := { Strbuf.unsettle { buf with size := 0 } 0 with oom := false }
    with hcleared
  have hsize : cleared.size = 0 := unsettle_size 0
  have hasize : cleared.asize = buf.asize := unsettle_asize 0
  have hclear : buf.clear = if cleared.asize > 0 then cleared.write 0 [0] else some cleared := rfl
  by_cases hnone : buf.asize = 0
  · refine ⟨cleared, ?_, ⟨hsize, Or.inl ⟨?_, rfl⟩⟩, rfl⟩
    · rw [hclear, hasize, hnone]
      rfl
    · obtain ⟨hplace, -⟩ | ⟨hstored, -⟩ := h.stands
      · rw [hcleared, Strbuf.unsettle]
        simp only [hplace]
      · have := hstored.lt_asize
        rw [asize] at hnone
        omega
  · have hstored : cleared.place.Stored l :=
      @stored_unsettle { buf with size := 0 } l (h.stored hnone).1 0
    obtain ⟨next, hnext, hgood, hoom⟩ := terminate_take hsize (Nat.zero_le _) hstored
      (@moved_unsettle_le { buf with size := 0 } 0)
    rw [terminate, hsize] at hnext
    refine ⟨next, ?_, hgood, hoom⟩
    rw [hclear, hasize, if_pos (Nat.pos_of_ne_zero hnone)]
    exact hnext

/-- The buffer set to its own first bytes. -/
lemma setOwn_spec (h : buf.Good l) {n : ℕ} (hn : n ≤ l.length) (hpos : 0 < n) :
    Edited buf (l.take n) (terminate { buf.unsettle n with size := n }) := by
  have hl : l ≠ [] := by
    rintro rfl
    exact absurd hn (not_le.mpr hpos)
  have hstored := stored_unsettle (h.stored (h.asize_ne_zero hl)).1 n
  obtain ⟨next, hnext, hgood, hoom⟩ := @terminate_take { buf.unsettle n with size := n } l n rfl hn
    hstored (moved_unsettle_le n)
  exact ⟨next, hnext, hgood, hoom.trans (unsettle_oom n)⟩

theorem truncate_spec (h : buf.Good l) (len : ℤ) :
    Edited buf (l.take len.toNat) (buf.truncate len) := by
  have hlen : (if len < 0 then 0 else len).toNat = len.toNat := by
    split
    next hneg => rw [Int.toNat_of_nonpos hneg.le, Int.toNat_zero]
    next => rfl
  simp only [truncate, hlen, h.size]
  split
  next hshort =>
    have hl : l ≠ [] := by
      rintro rfl
      exact absurd hshort (Nat.not_lt_zero _)
    have hstored := @stored_unsettle { buf with size := len.toNat } l
      (h.stored (h.asize_ne_zero hl)).1 len.toNat
    obtain ⟨next, hnext, hgood, hoom⟩ := terminate_take (unsettle_size _) hshort.le hstored
      (moved_unsettle_le len.toNat)
    exact ⟨next, hnext, hgood, hoom.trans (unsettle_oom _)⟩
  next hlong =>
    rw [List.take_of_length_le (not_lt.mp hlong)]
    exact ⟨buf, rfl, h, rfl⟩

theorem drop_spec (h : buf.Good l) {n : ℤ} (howned : 0 < n → buf.asize ≠ 0) :
    Edited buf (l.drop n.toNat) (buf.drop n) := by
  rw [drop]
  split
  next hpos =>
    set count := (if n > buf.size then (buf.size : ℤ) else n).toNat with hcount
    have hle : count ≤ l.length := by
      rw [hcount, ← h.size]
      split
      · rw [Int.toNat_natCast]
      · omega
    have hdrop : l.drop n.toNat = l.drop count := by
      rw [hcount]
      split
      next hmany =>
        rw [Int.toNat_natCast, h.size, List.drop_length]
        rw [h.size] at hmany
        exact List.drop_of_length_le (by omega)
      next => rfl
    rw [hdrop]
    set left : Strbuf := Strbuf.unsettle { buf with size := buf.size - count } 0 with hleft
    have hstored : left.place.Stored l :=
      @stored_unsettle { buf with size := buf.size - count } l (h.stored (howned hpos)).1 0
    have hsize : left.size = l.length - count := by
      rw [hleft, unsettle_size, h.size]
    have hmoved : left.place.moved ≤ 0 := moved_unsettle_le 0
    have hoom : left.oom = buf.oom := unsettle_oom 0
    simp only
    by_cases hnone : left.size = 0
    · have hempty : l.drop count = l.take 0 := by
        rw [List.take_zero]
        exact List.drop_of_length_le (by omega)
      rw [if_neg (not_not.mpr hnone), Option.bind_some, hempty]
      obtain ⟨next, hnext, hgood, hoom'⟩ := terminate_take hnone (Nat.zero_le _) hstored hmoved
      exact ⟨next, hnext, hgood, hoom'.trans hoom⟩
    · have hcells := length_le_of_held hstored.held
      obtain ⟨out, hout, hlength, -, hheld⟩ :=
        @copyCells_tail _ _ _ hstored.held 0 count hle (by omega)
      rw [List.drop_zero] at hheld
      have hroom : (l.drop count).length < left.place.asize :=
        lt_of_le_of_lt (by rw [List.length_drop]; omega) hstored.lt_asize
      have hstored' := hstored.withCells hheld hlength hroom hmoved (Nat.zero_le _) rfl
      obtain ⟨next, hnext, hgood, hoom', -⟩ := @terminate_spec
        { left with place := left.place.withCells out } (l.drop count)
        (hsize.trans List.length_drop.symm) hstored'
      have hupdate : (left.place.update fun cells => copyCells cells 0 cells count left.size) =
          some (left.place.withCells out) := by
        rw [Place.update, hsize, hout]
        rfl
      refine ⟨next, ?_, hgood, hoom'.trans hoom⟩
      rw [if_pos hnone, hupdate]
      exact hnext
  next hnone =>
    rw [Int.toNat_of_nonpos (not_lt.mp hnone), List.drop_zero]
    exact ⟨buf, rfl, h, rfl⟩

/-- The loop of `rtrim` reads back to the last byte that is not whitespace. -/
lemma rtrimFrom_eq (h : buf.Good l) :
    ∀ n ≤ l.length, buf.rtrimFrom n = some ((l.take n).rdropWhile isWhitespace).length
  | 0, _ => by
    rw [rtrimFrom, List.take_zero, List.rdropWhile_nil]
    rfl
  | n + 1, hn => by
    have hread : buf.read n = some l[n] := by
      rw [h.read_eq (by omega), List.getElem?_append_left hn, List.getElem?_eq_getElem hn]
    have htake : l.take (n + 1) = l.take n ++ [l[n]] := by
      rw [List.take_add_one, List.getElem?_eq_getElem hn, Option.toList_some]
    rw [rtrimFrom, hread, Option.bind_some, htake, List.rdropWhile_concat]
    split
    next hword =>
      rw [List.length_append, List.length_take_of_le (by omega), List.length_singleton]
    next hblank =>
      rw [if_pos (not_not.mp hblank)]
      exact rtrimFrom_eq h n (by omega)

theorem rtrim_spec (h : buf.Good l) : Edited buf (l.rdropWhile isWhitespace) buf.rtrim := by
  rw [rtrim]
  split
  next hnone =>
    have hl : l = [] := List.length_eq_zero_iff.mp (h.size.symm.trans hnone)
    subst hl
    rw [List.rdropWhile_nil]
    exact ⟨buf, rfl, h, rfl⟩
  next hsome =>
    have hl : l ≠ [] := by
      rintro rfl
      exact hsome h.size
    rw [h.size, rtrimFrom_eq h l.length le_rfl, List.take_length, Option.bind_some]
    have hleft := List.rdropWhile_prefix isWhitespace l
    set n := (l.rdropWhile isWhitespace).length with hn
    have htake : l.take n = l.rdropWhile isWhitespace := (List.prefix_iff_eq_take.mp hleft).symm
    have hstored := @stored_unsettle { buf with size := n } l
      (h.stored (h.asize_ne_zero hl)).1 n
    obtain ⟨next, hnext, hgood, hoom⟩ := terminate_take (unsettle_size _) hleft.length_le hstored
      (moved_unsettle_le n)
    rw [htake] at hgood
    exact ⟨next, hnext, hgood, hoom.trans (unsettle_oom _)⟩

/-- The loop of `trim` reads on to the first byte that is not whitespace. -/
lemma trimFrom_eq (h : buf.Good l) :
    ∀ left i, i + left = l.length →
      buf.trimFrom left i = some (i + ((l.drop i).takeWhile isWhitespace).length)
  | 0, i, hi => by
    rw [trimFrom, List.drop_of_length_le (by omega)]
    rfl
  | left + 1, i, hi => by
    have hlt : i < l.length := by omega
    have hread : buf.read i = some l[i] := by
      rw [h.read_eq hlt.le, List.getElem?_append_left hlt, List.getElem?_eq_getElem hlt]
    rw [trimFrom, hread, Option.bind_some, List.drop_eq_getElem_cons hlt, List.takeWhile_cons]
    split
    next hblank =>
      rw [trimFrom_eq h left (i + 1) (by omega), List.length_cons]
      congr 1
      omega
    next => rfl

theorem trim_spec (h : buf.Good l) :
    Edited buf ((l.dropWhile isWhitespace).rdropWhile isWhitespace) buf.trim := by
  rw [trim]
  split
  next hnone =>
    have hl : l = [] := List.length_eq_zero_iff.mp (h.size.symm.trans hnone)
    subst hl
    exact ⟨buf, rfl, h, rfl⟩
  next hsome =>
    have hl : l ≠ [] := by
      rintro rfl
      exact hsome h.size
    rw [trimFrom_eq h buf.size 0 (by rw [h.size, Nat.zero_add]), Option.bind_some, List.drop_zero,
      Nat.zero_add]
    obtain ⟨next, hnext, hgood, hoom⟩ :=
      @drop_spec buf l h (l.takeWhile isWhitespace).length fun _ => h.asize_ne_zero hl
    have hdrop : l.drop (l.takeWhile isWhitespace).length = l.dropWhile isWhitespace :=
      calc l.drop (l.takeWhile isWhitespace).length
        _ = (l.takeWhile isWhitespace ++ l.dropWhile isWhitespace).drop
            (l.takeWhile isWhitespace).length := by rw [List.takeWhile_append_dropWhile]
        _ = l.dropWhile isWhitespace := List.drop_left
    rw [Int.toNat_natCast, hdrop] at hgood
    obtain ⟨out, hout, hgood', hoom'⟩ := rtrim_spec hgood
    refine ⟨out, ?_, hgood', hoom'.trans hoom⟩
    rw [hnext, Option.bind_some, hout]

/-- The cells that hold a list alone, as bytes. -/
lemma filterMap_of_held {l : List UInt8} {cells : Cells UInt8} (h : l.map some <+: cells)
    (hlength : cells.length = l.length) : cells.filterMap id = l := by
  have heq : l.map some = cells := h.eq_of_length (by rw [List.length_map, hlength])
  rw [← heq, List.filterMap_map]
  simp

/-- What a buffer hands over: its bytes and their terminator, or nothing when it is poisoned or
storage is refused. The buffer is empty then, whatever storage there is. -/
theorem detach_spec (h : buf.Good l) :
    ∃ next : Strbuf, next.Good [] ∧ next.oom = false ∧
      ∀ storage, ∃ answer, buf.detach storage = some (answer, next) ∧
        (∀ bytes, answer = some bytes → buf.oom = false ∧ bytes = l ++ [0]) ∧
        (answer = none → buf.oom = true ∨ ∃ bytes, storage bytes = false) := by
  by_cases hoom : buf.oom = true
  · refine ⟨empty, good_empty, rfl, fun storage => ⟨none, ?_, ?_, fun _ => Or.inl hoom⟩⟩
    · rw [detach, if_pos hoom]
    · rintro bytes ⟨⟩
  · have hsound : buf.oom = false := by simpa using hoom
    cases hplace : buf.place with
    | sentinel =>
      obtain ⟨-, rfl⟩ | ⟨hstored, -⟩ := h.stands
      · refine ⟨buf, h, hsound, fun storage => ?_⟩
        cases hone : storage 1 with
        | true =>
          refine ⟨some [0], by simp [detach, hoom, hplace, hone], ?_, by rintro ⟨⟩⟩
          rintro bytes ⟨⟩
          exact ⟨hsound, rfl⟩
        | false =>
          refine ⟨none, by simp [detach, hoom, hplace, hone], ?_, fun _ => Or.inr ⟨1, hone⟩⟩
          rintro bytes ⟨⟩
      · rw [hplace] at hstored
        exact hstored.elim
    | plain cells =>
      obtain ⟨hsentinel, -⟩ | ⟨-, hheld⟩ := h.stands
      · rw [hplace] at hsentinel
        cases hsentinel
      · rw [hplace] at hheld
        have hheld' : (l ++ [0]).map some <+: cells := hheld
        refine ⟨empty, good_empty, rfl, fun storage =>
          ⟨some ((cells.take (buf.size + 1)).filterMap id), ?_, ?_, ?_⟩⟩
        · rw [detach, if_neg hoom, hplace]
        · intro bytes hbytes
          refine ⟨hsound, ?_⟩
          have htake := take_of_held hheld' le_rfl
          rw [List.take_length, List.length_append, List.length_singleton, ← h.size] at htake
          rw [← Option.some.inj hbytes, htake, List.filterMap_map]
          simp
        · rintro ⟨⟩
    | ahead a =>
      obtain ⟨hsentinel, -⟩ | ⟨-, hheld⟩ := h.stands
      · rw [hplace] at hsentinel
        cases hsentinel
      · rw [hplace] at hheld
        have hheld' : (l ++ [0]).map some <+: a.values := hheld
        refine ⟨empty, good_empty, rfl, fun storage => ?_⟩
        cases htake : (take storage oneByte (buf.size + 1) : Option (Cells UInt8)) with
        | none =>
          refine ⟨none, ?_, ?_, fun _ => Or.inr ?_⟩
          · simp only [detach, if_neg hoom, hplace, htake]
          · rintro bytes ⟨⟩
          · by_contra hall
            push Not at hall
            rw [take, if_pos (by simpa using hall _)] at htake
            cases htake
        | some own =>
          have hlimit := h.length_le
          have hsize := h.size
          have hlength : own.length = (l ++ [0]).length := by
            rw [take_eq_some htake (by simp only [oneByte, byteLimit] at hlimit ⊢; omega),
              List.length_append, List.length_singleton, h.size]
          obtain ⟨out, hout, houtlen, hcopied⟩ := @copyCells_copies _ own a.values (l ++ [0]) 0
            (l ++ [0]).length List.nil_prefix hheld' (Nat.zero_le _) le_rfl hlength.ge
          rw [List.take_length] at hcopied
          rw [Nat.sub_zero, List.length_append, List.length_singleton, ← h.size] at hout
          refine ⟨some (l ++ [0]), ?_, ?_, ?_⟩
          · simp only [detach, if_neg hoom, hplace, htake, hout, Option.map_some]
            rw [filterMap_of_held hcopied (houtlen.trans hlength)]
          · rintro bytes ⟨⟩
            exact ⟨hsound, rfl⟩
          · rintro ⟨⟩

/-! ### Setting -/

lemma unsettle_withCells (cells : Cells UInt8) (first : ℕ) :
    unsettle { buf with place := buf.place.withCells cells } first =
      { buf.unsettle first with place := (buf.unsettle first).place.withCells cells } := by
  cases hplace : buf.place with
  | sentinel => simp only [unsettle, hplace, Place.withCells]
  | plain old => simp only [unsettle, hplace, Place.withCells]
  | ahead a => simp only [unsettle, hplace, Place.withCells, Ahead.unsettle]

/-- The bytes written over those that stood there, when there is room for them. -/
lemma setOther_spec (hstored : buf.place.Stored l) (memory : ℕ → UInt8) {len : ℤ} (hpos : 0 < len)
    (hroom : len < buf.asize) :
    ∃ written, buf.write 0 (bytesAt memory len) = some written ∧
      Edited buf (bytesAt memory len)
        (terminate { written.unsettle 0 with size := len.toNat }) := by
  have hcells := hstored.asize_le_cells
  have hlen : (bytesAt memory len).length = len.toNat := length_bytesAt memory len
  have hfits : ([] : List UInt8).length + (bytesAt memory len).length ≤ buf.place.cells.length := by
    rw [List.length_nil, hlen]
    rw [asize] at hroom
    omega
  obtain ⟨out, hout, hlength, hheld⟩ := @writeCells_between _ _ [] (bytesAt memory len) []
    List.nil_prefix List.nil_prefix hfits
  rw [List.append_nil, List.nil_append] at hheld
  have hwrite : buf.write 0 (bytesAt memory len) =
      some { buf with place := buf.place.withCells out } := by
    rw [List.length_nil] at hout
    rw [write, Place.update, hout]
    rfl
  have hroom' : (bytesAt memory len).length < (buf.unsettle 0).place.asize := by
    have hasize : (buf.unsettle 0).place.asize = buf.place.asize := unsettle_asize 0
    rw [hlen, hasize]
    rw [asize] at hroom
    omega
  have hstored' := (stored_unsettle hstored 0).withCells hheld (by rw [unsettle_cells, hlength])
    hroom' (moved_unsettle_le 0) (Nat.zero_le _) rfl
  refine ⟨_, hwrite, ?_⟩
  rw [unsettle_withCells]
  obtain ⟨next, hnext, hgood, hoom, -⟩ := @terminate_spec
    { buf.unsettle 0 with
      place := (buf.unsettle 0).place.withCells out, size := len.toNat }
    (bytesAt memory len) hlen.symm hstored'
  exact ⟨next, hnext, hgood, hoom.trans (unsettle_oom 0)⟩

theorem setOther_granted (h : buf.Good l) (hoom : buf.oom = false) (memory : ℕ → UInt8) {len : ℤ}
    (hpos : 0 < len) (hlimit : len ≤ byteLimit) :
    Appended buf (bytesAt memory len) fun storage => buf.set storage (.other memory) len := by
  have hgrown : Granted buf
      (fun next => next.Good l ∧ next.oom = false ∧ next.place.Stored l ∧ len < next.asize)
      (fun storage => if len ≥ buf.asize then buf.grow storage len else some buf) := by
    by_cases hshort : len ≥ buf.asize
    · simp only [if_pos hshort]
      exact grow_granted h hoom hpos hlimit
    · simp only [if_neg hshort]
      exact Granted.of_eq (fun _ => rfl) ⟨h, hoom, (h.stored (by omega)).1, not_le.mp hshort⟩
  simp only [set, if_neg (not_le.mpr hpos)]
  refine hgrown.bind ?_ ?_
  · rintro next ⟨-, hnext, hstored, hroom⟩
    obtain ⟨written, hwrite, out, hout, hgood, hoom'⟩ := setOther_spec hstored memory hpos hroom
    refine ⟨out, ?_, hgood, hoom'.trans hnext⟩
    rw [if_neg (by simp [hnext, hroom]), hwrite]
    exact hout
  · exact if_pos (Or.inl rfl)

lemma setOther_lost (storage : ℕ → Bool) (h : buf.Good l) (memory : ℕ → UInt8) {len : ℤ}
    (hpos : 0 < len) (hlost : buf.oom = true ∨ byteLimit < len) :
    buf.set storage (.other memory) len = some buf.poison := by
  have hgrown : (if len ≥ buf.asize then buf.grow storage len else some buf) = some buf.poison := by
    split
    · exact grow_lost storage h (hlost.imp id Or.inr)
    next hshort =>
      rcases hlost with hoom | hhigh
      · rw [poison_eq hoom]
      · have := h.asize_le
        omega
  simp only [set, if_neg (not_le.mpr hpos)]
  rw [hgrown, Option.bind_some]
  exact if_pos (Or.inl rfl)

/-! ### Unescaping -/

/-- A list of bytes without the backslashes before punctuation. -/
def unescaped : List UInt8 → List UInt8
  | [] => []
  | [byte] => [byte]
  | byte :: next :: rest =>
    if byte = 0x5c ∧ ispunct next then next :: unescaped rest
    else byte :: unescaped (next :: rest)

lemma not_ispunct_zero : ispunct 0 = false := by decide

/-- Where the byte stands that an escape gives, and what is left past it. -/
lemma escapedAt_eq (h : buf.Good l) {r : ℕ} (hr : r < l.length) :
    ∃ at' byte, buf.escapedAt r = some at' ∧ r ≤ at' ∧ l[at']? = some byte ∧
      unescaped (l.drop r) = byte :: unescaped (l.drop (at' + 1)) := by
  have hread : buf.read r = some l[r] := by
    rw [h.read_eq hr.le, List.getElem?_append_left hr, List.getElem?_eq_getElem hr]
  have hdrop : l.drop r = l[r] :: l.drop (r + 1) := List.drop_eq_getElem_cons hr
  by_cases hslash : l[r] = 0x5c
  · by_cases hlast : r + 1 = l.length
    · -- A backslash at the end: the byte past it is the terminator.
      have hnext : buf.read (r + 1) = some 0 := by
        rw [h.read_eq hlast.le, hlast, List.getElem?_append_right le_rfl, Nat.sub_self]
        rfl
      have hend : l.drop (r + 1) = [] := List.drop_of_length_le hlast.ge
      refine ⟨r, l[r], ?_, le_rfl, List.getElem?_eq_getElem hr, ?_⟩
      · rw [escapedAt, hread, Option.bind_some, if_pos hslash, hnext, Option.map_some,
          not_ispunct_zero]
        rfl
      · rw [hdrop, hend]
        rfl
    · have hr' : r + 1 < l.length := by omega
      have hnext : buf.read (r + 1) = some l[r + 1] := by
        rw [h.read_eq hr'.le, List.getElem?_append_left hr', List.getElem?_eq_getElem hr']
      have hdrop' : l.drop (r + 1) = l[r + 1] :: l.drop (r + 2) := List.drop_eq_getElem_cons hr'
      have hescaped : buf.escapedAt r = some (if ispunct l[r + 1] then r + 1 else r) := by
        rw [escapedAt, hread, Option.bind_some, if_pos hslash, hnext, Option.map_some]
      by_cases hpunct : ispunct l[r + 1]
      · rw [if_pos hpunct] at hescaped
        refine ⟨r + 1, l[r + 1], hescaped, Nat.le_succ r, List.getElem?_eq_getElem hr', ?_⟩
        rw [hdrop, hdrop', unescaped, if_pos ⟨hslash, hpunct⟩]
      · rw [if_neg hpunct] at hescaped
        refine ⟨r, l[r], hescaped, le_rfl, List.getElem?_eq_getElem hr, ?_⟩
        rw [hdrop, hdrop', unescaped, if_neg fun hboth => hpunct hboth.2]
  · refine ⟨r, l[r], ?_, le_rfl, List.getElem?_eq_getElem hr, ?_⟩
    · rw [escapedAt, hread, Option.bind_some, if_neg hslash]
    · rw [hdrop]
      cases l.drop (r + 1) with
      | nil => rfl
      | cons next rest => rw [unescaped, if_neg fun hboth => hslash hboth.1]

/-- A byte of the content written over, where the storage ahead has no copy. -/
lemma write_spec (h : buf.Good l) {w : ℕ} (hw : w < l.length) (hmoved : buf.place.moved = 0)
    (byte : UInt8) :
    ∃ next, buf.write w [byte] = some next ∧ next.Good (l.set w byte) ∧ next.oom = buf.oom ∧
      next.place.moved = 0 := by
  have hl : l ≠ [] := by
    rintro rfl
    exact absurd hw (Nat.not_lt_zero _)
  obtain ⟨hstored, hheld⟩ := h.stored (h.asize_ne_zero hl)
  have hfront : ((l.take w).map some) <+: buf.place.cells := prefix_of_take hstored.held w
  have hwidth : (l.take w).length = w := List.length_take_of_le hw.le
  have htail : ((l.drop (w + 1) ++ [0]).map some) <+:
      buf.place.cells.drop ((l.take w).length + [byte].length) := by
    have hdrop := drop_of_held hheld (w + 1)
    rw [List.drop_append_of_le_length hw] at hdrop
    rw [hwidth]
    exact hdrop
  have hcells := length_le_of_held hheld
  rw [List.length_append, List.length_singleton] at hcells
  obtain ⟨out, hout, hlength, hheld'⟩ := writeCells_between hfront htail (by
    rw [hwidth, List.length_singleton]
    omega)
  rw [hwidth] at hout
  have hset : l.take w ++ [byte] ++ (l.drop (w + 1) ++ [0]) = l.set w byte ++ [0] := by
    rw [List.set_eq_take_append_cons_drop, if_pos hw]
    simp
  rw [hset] at hheld'
  have hstored' := @Stored.withCells _ l (l.set w byte) hstored out 0
    (((List.prefix_append _ [0]).map some).trans hheld') hlength
    (by rw [List.length_set]; exact hstored.lt_asize) hmoved.le (Nat.zero_le _) rfl
  refine ⟨{ buf with place := buf.place.withCells out }, ?_,
    ⟨h.size.trans List.length_set.symm, Or.inr ⟨hstored', ?_⟩⟩, rfl, ?_⟩
  · rw [write, Place.update, hout]
    rfl
  · simp only
    rw [hstored.cells_withCells]
    exact hheld'
  · exact (Place.moved_withCells out).trans hmoved

/-- The loop of `unescape` writes what is left of the bytes after those written, and reads no byte
that it wrote. -/
lemma unescapeFrom_spec : ∀ fuel (buf : Strbuf) (l : List UInt8) (r w : ℕ), buf.Good l →
    buf.place.moved = 0 → w ≤ r → r ≤ l.length → l.length ≤ r + fuel →
    ∃ w' next l', unescapeFrom fuel buf r w = some (w', next) ∧ next.Good l' ∧
      next.oom = buf.oom ∧ w' ≤ l'.length ∧ l'.take w' = l.take w ++ unescaped (l.drop r)
  | 0, buf, l, r, w, h, _, hwr, hr, hfuel => by
    refine ⟨w, buf, l, rfl, h, rfl, hwr.trans hr, ?_⟩
    rw [List.drop_of_length_le (by omega), unescaped, List.append_nil]
  | fuel + 1, buf, l, r, w, h, hmoved, hwr, hr, hfuel => by
    by_cases hmore : r < l.length
    · obtain ⟨at', byte, hescaped, hle, hbyte, hunescaped⟩ := escapedAt_eq h hmore
      obtain ⟨hlt, hget⟩ := List.getElem?_eq_some_iff.mp hbyte
      have hread : buf.read at' = some byte := by
        rw [h.read_eq hlt.le, List.getElem?_append_left hlt, hbyte]
      obtain ⟨next, hwrite, hgood, hoom, hmoved'⟩ := write_spec h (hwr.trans_lt hmore) hmoved byte
      obtain ⟨w', out, l', hrun, hgood', hoom', hw', htake⟩ := unescapeFrom_spec fuel next
        (l.set w byte) (at' + 1) (w + 1) hgood hmoved' (by omega) (by rw [List.length_set]; omega)
        (by rw [List.length_set]; omega)
      refine ⟨w', out, l', ?_, hgood', hoom'.trans hoom, hw', ?_⟩
      · rw [unescapeFrom, h.size, if_pos hmore, hescaped]
        simp only [Option.bind_eq_bind, Option.bind_some, hread, hwrite]
        exact hrun
      · have hset : (l.set w byte).take (w + 1) = l.take w ++ [byte] := by
          rw [List.take_add_one, List.getElem?_set_self (hwr.trans_lt hmore), Option.toList_some,
            List.take_set_of_le le_rfl]
        rw [htake, hset, List.drop_set_of_lt (by omega), hunescaped, List.append_assoc]
        rfl
    · refine ⟨w, buf, l, ?_, h, rfl, hwr.trans hr, ?_⟩
      · rw [unescapeFrom, h.size, if_neg hmore]
      · rw [List.drop_of_length_le (not_lt.mp hmore), unescaped, List.append_nil]

theorem unescape_spec (h : buf.Good l) : Edited buf (unescaped l) buf.unescape := by
  obtain ⟨w, next, l', hrun, hgood, hoom, hw, htake⟩ := unescapeFrom_spec (buf.unsettle 0).size
    (buf.unsettle 0) l 0 0 (h.unsettle 0) (Nat.le_zero.mp (moved_unsettle_le 0)) le_rfl
    (Nat.zero_le _) (by rw [unsettle_size, h.size, Nat.zero_add])
  rw [List.take_zero, List.nil_append, List.drop_zero] at htake
  obtain ⟨out, hout, hgood', hoom'⟩ := truncate_spec hgood w
  rw [Int.toNat_natCast, htake] at hgood'
  refine ⟨out, ?_, hgood', hoom'.trans (hoom.trans (unsettle_oom 0))⟩
  simp only [unescape, hrun, Option.bind_some, hout]

end Strbuf

end MarkdownCore.Storage
