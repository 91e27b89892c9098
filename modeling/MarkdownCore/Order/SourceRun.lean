import MarkdownCore.Order.LabelsRun
import MarkdownCore.Order.Source

/-!
# The order of entries is stable

A pass lays the entries out by a byte (`scatter_eq`), which after the passes over the lower bytes
sorts them by it and them; a byte the passes leave out all keys share.
-/

namespace MarkdownCore.Order

open StableSort
open Storage (sizeMax)

variable {α : Type*} {key : α → BitVec 64}

/-! ### Bytes of keys -/

lemma byteOf_lt (k : BitVec 64) (shift : ℕ) : byteOf k shift < 256 := by
  rw [byteOf, BitVec.toNat_and]
  exact lt_of_le_of_lt Nat.and_le_right (by decide)

lemma byteOf_eq (k : BitVec 64) (n : ℕ) : byteOf k (8 * n) = k.toNat / 256 ^ n % 256 := by
  have hmask : (255#64).toNat = 2 ^ 8 - 1 := rfl
  rw [byteOf, BitVec.toNat_and, BitVec.toNat_ushiftRight, hmask, Nat.and_two_pow_sub_one_eq_mod,
    Nat.shiftRight_eq_div_pow, Nat.pow_mul]

/-- A byte in which no key differs from the first is every key's. -/
lemma byteOf_of_same {first last differing : BitVec 64} {ordered : Bool} {keys : List (BitVec 64)}
    {shift : ℕ}
    (h : (scanKeys first last differing ordered keys).1 >>> shift &&& 255#64 = 0#64) :
    differing >>> shift &&& 255#64 = 0#64 ∧
      ∀ k ∈ keys, byteOf k shift = byteOf first shift := by
  induction keys generalizing last differing ordered with
  | nil => exact ⟨h, by simp⟩
  | cons k keys ih =>
    obtain ⟨hor, hrest⟩ := ih h
    have hsplit : (differing >>> shift &&& 255#64) ||| ((k >>> shift &&& 255#64) ^^^
        (first >>> shift &&& 255#64)) = 0#64 := by
      rw [← hor]
      ext i hi
      simp only [BitVec.getElem_or, BitVec.getElem_and, BitVec.getElem_xor,
        BitVec.getElem_ushiftRight, BitVec.getLsbD_or, BitVec.getLsbD_xor]
      cases (255#64)[i] <;> simp
    rw [BitVec.or_eq_zero_iff] at hsplit
    refine ⟨hsplit.1, ?_⟩
    intro k' hk'
    rcases List.mem_cons.mp hk' with rfl | hk'
    · rw [byteOf, byteOf, BitVec.xor_eq_zero_iff.mp hsplit.2]
    · exact hrest k' hk'

/-- Keys found in order are. -/
lemma ordered_of_scanKeys {first last differing : BitVec 64} {ordered : Bool}
    {keys : List (BitVec 64)} (h : (scanKeys first last differing ordered keys).2 = true) :
    ordered = true ∧ (last :: keys).Pairwise fun a b => a.toNat ≤ b.toNat := by
  induction keys generalizing last differing ordered with
  | nil => exact ⟨h, List.pairwise_singleton _ _⟩
  | cons k keys ih =>
    obtain ⟨hand, hrest⟩ := ih h
    obtain ⟨hordered, hle⟩ := Bool.and_eq_true_iff.mp hand
    have hle' : last.toNat ≤ k.toNat := of_decide_eq_true hle
    refine ⟨hordered, List.pairwise_cons.mpr ⟨?_, hrest⟩⟩
    intro k' hk'
    rcases List.mem_cons.mp hk' with rfl | hk'
    · exact hle'
    · exact hle'.trans (List.rel_of_pairwise_cons hrest hk')

/-! ### A pass -/

lemma getElem?_countBytes (digit : BitVec 64 → ℕ) (keys : List (BitVec 64)) (offsets : List ℕ)
    {d n : ℕ} (h : offsets[d]? = some n) :
    (keys.foldl (fun offsets key => offsets.modify (digit key) (· + 1)) offsets)[d]? =
      some (n + (keys.filter fun k => digit k = d).length) := by
  induction keys generalizing offsets n with
  | nil => exact h
  | cons k keys ih =>
    rw [List.foldl_cons, List.filter_cons]
    by_cases hd : digit k = d
    · have hnext : (offsets.modify (digit k) (· + 1))[d]? = some (n + 1) := by
        rw [hd, List.getElem?_modify_eq, h]
        rfl
      rw [ih _ hnext, if_pos (decide_eq_true hd), List.length_cons]
      congr 1
      omega
    · have hnext : (offsets.modify (digit k) (· + 1))[d]? = some n := by
        simp [hd, h]
      rw [ih _ hnext, if_neg (by simpa using hd)]

lemma getElem?_startsFrom {start count : ℕ → ℕ} (hstart : ∀ d, start (d + 1) = start d + count d)
    (offsets : List ℕ) (hoffsets : ∀ d < offsets.length, offsets[d]? = some (count d)) :
    ∀ d < offsets.length, (startsFrom (start 0) offsets)[d]? = some (start d) := by
  induction offsets generalizing start count with
  | nil => exact fun d hd => absurd hd (Nat.not_lt_zero d)
  | cons length offsets ih =>
    have hlength : length = count 0 := Option.some.inj (hoffsets 0 (Nat.zero_lt_succ _))
    intro d hd
    cases d with
    | zero => rfl
    | succ d =>
      rw [startsFrom, List.getElem?_cons_succ, hlength, ← hstart 0]
      exact @ih (fun d => start (d + 1)) (fun d => count (d + 1)) (fun d => hstart (d + 1))
        (fun d hd => hoffsets (d + 1) (Nat.succ_lt_succ hd)) d (Nat.lt_of_succ_lt_succ hd)

/-- What a pass has laid out: the entries of each digit among those it went past stand where the
layout has them. -/
structure Laid {β : Type*} (digit : α → ℕ) (l past : List α) (full target : List β) : Prop where
  length_eq : target.length = full.length
  stands : ∀ d < 256, ∀ j < (past.filter fun a => digit a = d).length,
    target[startOf digit l d + j]? = full[startOf digit l d + j]?

lemma Laid.done {β : Type*} {digit : α → ℕ} {l : List α} {full target : List β}
    (h : Laid digit l l full target) (hfull : full.length = startOf digit l 256) :
    target = full := by
  apply List.ext_getElem?
  intro i
  rcases Nat.lt_or_ge i full.length with hlt | hge
  · rw [hfull] at hlt
    obtain ⟨d, hd, j, hj, rfl⟩ := exists_digit l hlt
    exact h.stands d hd j hj
  · rw [List.getElem?_eq_none hge, List.getElem?_eq_none (h.length_eq.trans_le hge)]

lemma Laid.step {β : Type*} {digit : α → ℕ} {l past : List α} {a : α} {full target : List β} {b : β}
    (h : Laid digit l past full target)
    (hb : full[startOf digit l (digit a) + (past.filter fun c => digit c = digit a).length]? =
      some b) :
    ∃ target', writeAt target
        (startOf digit l (digit a) + (past.filter fun c => digit c = digit a).length) b =
          some target' ∧ Laid digit l (past ++ [a]) full target' := by
  set place := startOf digit l (digit a) + (past.filter fun c => digit c = digit a).length
    with hplace
  obtain ⟨hlt, -⟩ := List.getElem?_eq_some_iff.mp hb
  have hlt' : place < target.length := h.length_eq ▸ hlt
  refine ⟨target.set place b, if_pos hlt', List.length_set.trans h.length_eq, ?_⟩
  intro d hd j hj
  by_cases hat : startOf digit l d + j = place
  · rw [hat, List.getElem?_set_self hlt', hb]
  · rw [List.getElem?_set_ne (Ne.symm hat)]
    apply h.stands d hd
    rw [List.filter_append, List.length_append] at hj
    by_cases heq : digit a = d
    · rw [hplace, heq] at hat
      simp only [List.filter_cons, heq, decide_true, if_true, List.filter_nil,
        List.length_singleton] at hj
      omega
    · simpa [List.filter_cons, heq] using hj

/-- A pass lays the entries and their keys out by the byte at a shift. -/
lemma scatter_eq {shift : ℕ} {entries : List α} {keyTarget : List (BitVec 64)} {target : List α}
    (hkeys : keyTarget.length = entries.length) (htarget : target.length = entries.length) :
    scatter shift (entries.map key) entries
        (startsFrom 0 (countBytes shift (entries.map key))) keyTarget target =
      some ((layout (fun a => byteOf (key a) shift) 256 entries).map key,
        layout (fun a => byteOf (key a) shift) 256 entries) := by
  set digit := fun a => byteOf (key a) shift with hdigit
  have hlt : ∀ a ∈ entries, digit a < 256 := fun a _ => byteOf_lt _ _
  have hperm := perm_layout hlt
  have hlength : (layout digit 256 entries).length = startOf digit entries 256 := rfl
  have hmain : ∀ (rest past : List α) (offsets : List ℕ) (keyTarget : List (BitVec 64))
      (target : List α), entries = past ++ rest → offsets.length = 256 →
      (∀ d < 256, offsets[d]? =
        some (startOf digit entries d + (past.filter fun a => digit a = d).length)) →
      Laid digit entries past ((layout digit 256 entries).map key) keyTarget →
      Laid digit entries past (layout digit 256 entries) target →
      scatter shift (rest.map key) rest offsets keyTarget target =
        some ((layout digit 256 entries).map key, layout digit 256 entries) := by
    intro rest
    induction rest with
    | nil =>
      intro past offsets keyTarget target hsplit _ _ hkeyLaid hlaid
      rw [List.append_nil] at hsplit
      subst hsplit
      rw [List.map_nil, scatter, hlaid.done hlength,
        hkeyLaid.done (by rw [List.length_map, hlength])]
      simp
    | cons a rest ih =>
      intro past offsets keyTarget target hsplit hoffsets hnext hkeyLaid hlaid
      have hda : digit a < 256 := byteOf_lt _ _
      have hfilter : entries.filter (fun c => digit c = digit a) =
          past.filter (fun c => digit c = digit a) ++
            a :: rest.filter fun c => digit c = digit a := by
        rw [hsplit, List.filter_append]
        simp only [List.filter_cons, decide_true, if_true]
      have hat : (layout digit 256 entries)[startOf digit entries (digit a) +
          (past.filter fun c => digit c = digit a).length]? = some a := by
        rw [layout_getElem? entries hda, hfilter, List.getElem?_append_right le_rfl, Nat.sub_self]
        · rfl
        · rw [hfilter, List.length_append, List.length_cons]
          omega
      have hkeyAt : ((layout digit 256 entries).map key)[startOf digit entries (digit a) +
          (past.filter fun c => digit c = digit a).length]? = some (key a) := by
        rw [List.getElem?_map, hat]
        rfl
      obtain ⟨keyTarget', hkeyWrite, hkeyLaid'⟩ := hkeyLaid.step hkeyAt
      obtain ⟨target', hwrite, hlaid'⟩ := hlaid.step hat
      have hbyte : byteOf (key a) shift = digit a := rfl
      rw [List.map_cons, scatter, hbyte, hnext _ hda, Option.bind_some, hkeyWrite,
        Option.bind_some, hwrite, Option.bind_some]
      apply ih (past ++ [a])
      · rw [hsplit, List.append_assoc, List.singleton_append]
      · rw [List.length_modify, hoffsets]
      · intro d hd
        rw [List.filter_append, List.length_append, List.getElem?_modify, hnext d hd]
        by_cases heq : digit a = d
        · simp [heq, Nat.add_assoc]
        · simp [heq]
      · exact hkeyLaid'
      · exact hlaid'
  have hcount : ∀ d < 256, (countBytes shift (entries.map key))[d]? =
      some (entries.filter fun a => digit a = d).length := by
    intro d hd
    have hzero : (List.replicate 256 0)[d]? = some 0 := by
      rw [List.getElem?_replicate, if_pos hd]
    rw [countBytes, getElem?_countBytes _ _ _ hzero, Nat.zero_add, List.filter_map, List.length_map]
    rfl
  have hoffsets : ∀ (n : ℕ) (keys : List (BitVec 64)) (offsets : List ℕ), offsets.length = n →
      (keys.foldl (fun offsets key => offsets.modify (byteOf key shift) (· + 1)) offsets).length =
        n := by
    intro n keys
    induction keys with
    | nil => exact fun _ h => h
    | cons k keys ih => exact fun _ h => ih _ ((List.length_modify _ _ _).trans h)
  have hcountLen : (countBytes shift (entries.map key)).length = 256 :=
    hoffsets 256 _ _ List.length_replicate
  have hstarts := getElem?_startsFrom (fun d => @startOf_succ _ digit entries d)
    (countBytes shift (entries.map key)) (fun d hd => hcount d (hcountLen ▸ hd))
  have hlengths : ∀ (offset : ℕ) (offsets : List ℕ),
      (startsFrom offset offsets).length = offsets.length := by
    intro offset offsets
    induction offsets generalizing offset with
    | nil => rfl
    | cons length offsets ih => rw [startsFrom, List.length_cons, ih, List.length_cons]
  apply hmain entries [] _ _ _ rfl ((hlengths _ _).trans hcountLen)
  · intro d hd
    rw [List.filter_nil, List.length_nil, Nat.add_zero]
    exact hstarts d (hcountLen.symm ▸ hd)
  · refine ⟨?_, fun d _ j hj => absurd hj (Nat.not_lt_zero j)⟩
    rw [hkeys, List.length_map, hperm.length_eq]
  · refine ⟨?_, fun d _ j hj => absurd hj (Nat.not_lt_zero j)⟩
    rw [htarget, hperm.length_eq]

/-! ### The passes -/

/-- What the passes over the bytes below one leave is sorted by those bytes. -/
lemma radixPasses_spec {differing : BitVec 64} {entries : List α}
    (hsame : ∀ n, differing >>> (8 * n) &&& 255#64 = 0#64 →
      ∃ d, ∀ a ∈ entries, byteOf (key a) (8 * n) = d) :
    ∀ (rest n : ℕ) (source : List α) (keyTarget : List (BitVec 64)) (target : List α),
      Sorted (fun a => (key a).toNat % 256 ^ n) entries source →
      keyTarget.length = entries.length → target.length = entries.length →
      ∃ sorted, radixPasses differing ((List.range' n rest).map (8 * ·)) (source.map key) source
          keyTarget target = some sorted ∧
        Sorted (fun a => (key a).toNat % 256 ^ (n + rest)) entries sorted := by
  intro rest
  induction rest with
  | zero =>
    intro n source keyTarget target h _ _
    exact ⟨source, rfl, h⟩
  | succ rest ih =>
    intro n source keyTarget target h hkeys htarget
    have hfull : ∀ a, (key a).toNat % 256 ^ (n + 1) =
        byteOf (key a) (8 * n) * 256 ^ n + (key a).toNat % 256 ^ n := by
      intro a
      rw [byteOf_eq, Nat.mod_pow_succ, Nat.add_comm, Nat.mul_comm]
    have hlength := h.perm.length_eq
    rw [List.range'_succ, List.map_cons, radixPasses]
    split
    next hzero =>
      obtain ⟨d, hd⟩ := hsame n hzero
      have hnext : Sorted (fun a => (key a).toNat % 256 ^ (n + 1)) entries source :=
        h.shared fun a ha => by rw [hfull, hd a ha]
      obtain ⟨sorted, hrun, hsorted⟩ := ih (n + 1) source keyTarget target hnext hkeys htarget
      exact ⟨sorted, hrun, by rwa [Nat.add_assoc, Nat.add_comm 1] at hsorted⟩
    next =>
      have hpow : 0 < 256 ^ n := Nat.pow_pos (by decide)
      have hnext := sorted_layout hfull (fun a => Nat.mod_lt _ hpow)
        (fun a _ => byteOf_lt (key a) (8 * n)) h
      rw [scatter_eq (by rw [hkeys, hlength]) (by rw [htarget, hlength]), Option.bind_some]
      obtain ⟨sorted, hrun, hsorted⟩ := ih (n + 1) _ (source.map key) source hnext
        (by rw [List.length_map, hlength]) hlength
      exact ⟨sorted, hrun, by rwa [Nat.add_assoc, Nat.add_comm 1] at hsorted⟩

/-- Entries in order by key are sorted as they are. -/
lemma sorted_of_scanKeys {entries : List α}
    (h : (scanKeys ((entries.map key).headD 0) ((entries.map key).headD 0) 0 true
      (entries.map key).tail).2 = true) :
    Sorted (fun a => (key a).toNat) entries entries := by
  refine ⟨Stable.refl _, ?_⟩
  cases entries with
  | nil => exact List.Pairwise.nil
  | cons first rest =>
    obtain ⟨-, hordered⟩ := ordered_of_scanKeys h
    have hmap : ((first :: rest).map key).Pairwise fun a b => a.toNat ≤ b.toNat := hordered
    rw [List.pairwise_map] at hmap
    exact hmap

/-- The passes, over all bytes in which some key differs, sort the entries. -/
lemma radixPasses_sorted {entries : List α} {keyTarget : List (BitVec 64)} {target : List α}
    (hkeys : keyTarget.length = entries.length) (htarget : target.length = entries.length) :
    ∃ sorted, radixPasses (scanKeys ((entries.map key).headD 0) ((entries.map key).headD 0) 0 true
        (entries.map key).tail).1 shifts (entries.map key) entries keyTarget target = some sorted ∧
      Sorted (fun a => (key a).toNat) entries sorted := by
  have hsame : ∀ n, (scanKeys ((entries.map key).headD 0) ((entries.map key).headD 0) 0 true
      (entries.map key).tail).1 >>> (8 * n) &&& 255#64 = 0#64 →
      ∃ d, ∀ a ∈ entries, byteOf (key a) (8 * n) = d := by
    intro n hzero
    obtain ⟨-, hbytes⟩ := byteOf_of_same hzero
    refine ⟨byteOf ((entries.map key).headD 0) (8 * n), ?_⟩
    cases entries with
    | nil => exact fun a ha => absurd ha List.not_mem_nil
    | cons first rest =>
      intro a ha
      rcases List.mem_cons.mp ha with rfl | ha
      · rfl
      · exact hbytes (key a) (List.mem_map_of_mem ha)
  have hzero : Sorted (fun a => (key a).toNat % 256 ^ 0) entries entries := by
    refine ⟨Stable.refl _, ?_⟩
    apply List.pairwise_of_forall
    intro a b
    simp only [Nat.pow_zero, Nat.mod_one, le_refl]
  obtain ⟨sorted, hrun, hsorted⟩ := radixPasses_spec hsame 8 0 entries keyTarget target hzero hkeys
    htarget
  have hwhole : ∀ a : α, (key a).toNat % 256 ^ (0 + 8) = (key a).toNat := by
    intro a
    exact Nat.mod_eq_of_lt (lt_of_lt_of_eq (key a).isLt (by norm_num))
  simp only [hwhole] at hsorted
  refine ⟨sorted, ?_, hsorted⟩
  rw [shifts, List.range_eq_range']
  exact hrun

/-- Both sorts are stable sorts. The label sort leaves the entries sorted by label in the array it
returns, whatever runs they fall into and whatever the spare array and the runs' ends held. The
order by key leaves the entries sorted in their own array where it succeeds, which it does wherever
their size is one and storage is had, and as they were where it fails. -/
theorem stable_sorts {V α : Type*} :
    (∀ (entries : List (LabelEntry V)) (spare : ℕ → LabelEntry V) (ends : ℕ → ℕ),
      ∃ sorted other, labelSort entries spare ends = some (sorted, other) ∧
        Sorted (fun entry => numbers entry.key) entries sorted) ∧
    ∀ (key : α → BitVec 64) (stride : ℕ) (keysGranted entriesGranted : Bool)
      (keyRoom : ℕ → BitVec 64) (entryRoom : ℕ → α) (entries : List α),
      ∃ done entries', orderSourceEntries key stride keysGranted entriesGranted keyRoom entryRoom
          entries = some (done, entries') ∧
        (done = true → Sorted (fun a => (key a).toNat) entries entries') ∧
        (done = false → entries' = entries) ∧
        (stride ≠ 0 → entries.length * stride ≤ sizeMax → entries.length * 16 ≤ sizeMax →
          keysGranted = true → entriesGranted = true → done = true) := by
  constructor
  · intro entries spare ends
    obtain ⟨sorted, other, hsort, hsorted⟩ := @sortRuns_spec _ _ _
      (fun entry : LabelEntry V => numbers entry.key) labelBefore
      (fun a b => (labelBefore_eq a b).trans (decide_eq_decide.mpr Iff.rfl)) entries
      ((List.range entries.length).map spare) ((List.range entries.length).map ends)
      (by rw [List.length_map, List.length_range]) (by rw [List.length_map, List.length_range])
    exact ⟨sorted, other, hsort, hsorted⟩
  · intro key stride keysGranted entriesGranted keyRoom entryRoom entries
    rw [orderSourceEntries]
    dsimp only
    split
    next hfew =>
      refine ⟨true, entries, rfl, fun _ => ⟨Stable.refl _, ?_⟩, fun h => (by simp at h),
        fun _ _ _ _ _ => rfl⟩
      rcases entries with _ | ⟨first, _ | ⟨next, rest⟩⟩
      · exact List.Pairwise.nil
      · exact List.pairwise_singleton _ _
      · simp only [List.length_cons] at hfew
        omega
    next =>
      split
      next hsize =>
        refine ⟨false, entries, rfl, fun h => (by simp at h), fun _ => rfl, ?_⟩
        intro hstride hbytes hkeys _ _
        rcases hsize with hzero | hover | hover
        · exact absurd hzero hstride
        · have := (Nat.le_div_iff_mul_le (Nat.pos_of_ne_zero hstride)).mpr hbytes
          omega
        · omega
      next =>
        split
        next hnone =>
          exact ⟨false, entries, rfl, fun h => (by simp at h), fun _ => rfl,
            fun _ _ _ hkeys _ => (by simp [hnone] at hkeys)⟩
        next =>
          split
          next hordered =>
            exact ⟨true, entries, rfl, fun _ => sorted_of_scanKeys hordered,
              fun h => (by simp at h), fun _ _ _ _ _ => rfl⟩
          next =>
            split
            next hnone =>
              exact ⟨false, entries, rfl, fun h => (by simp at h), fun _ => rfl,
                fun _ _ _ _ hentries => (by simp [hnone] at hentries)⟩
            next =>
              obtain ⟨sorted, hrun, hsorted⟩ := @radixPasses_sorted _ key entries
                ((List.range entries.length).map keyRoom)
                ((List.range entries.length).map entryRoom)
                (by rw [List.length_map, List.length_range])
                (by rw [List.length_map, List.length_range])
              rw [hrun, Option.map_some]
              exact ⟨true, sorted, rfl, fun _ => hsorted, fun h => (by simp at h),
                fun _ _ _ _ _ => rfl⟩

/-- Two runs and an odd last one: equal labels keep their order. -/
example : (labelSort [labelEntryOf [98] 'x' 0, labelEntryOf [97] 'y' 1, labelEntryOf [98] 'z' 2,
    labelEntryOf [97] 'w' 3] (fun _ => labelEntryOf [] 'e' 0) (fun _ => 7)).map
      (fun sorted => sorted.1.map LabelEntry.value) = some ['y', 'w', 'x', 'z'] := by
  decide

end MarkdownCore.Order
