import Mathlib.Tactic.Linarith
import MarkdownCore.Heading.Names

/-!
# What a pass finds of a name

The entry a pass finds for a name is its index's, or, in an overlay, the committed one beneath:
`NamePass.view`. Each operation on the entries is described by what it does to the view, and the
two searches along a sequence of names by where in it they end.
-/

namespace MarkdownCore

namespace NamePass

/-- The entry the pass finds for the name. -/
def view (pass : NamePass) (n : Name) : Option Slot :=
  (pass.index.lookup n).or (pass.beneath.bind (·.lookup n))

/-- Who takes the name: zero an explicit anchor, a heading by its place plus one. -/
def holder (pass : NamePass) (n : Name) : Option ℕ := (pass.view n).map (·.extra)

@[simp] lemma index_withIndex (pass : NamePass) (index : KeyIndex) :
    (pass.withIndex index).index = index := rfl

/-! ### Entries -/

lemma view_withIndex_insert (pass : NamePass) (n : Name) (slot : Slot) :
    (pass.withIndex (pass.index.insert n slot)).view = Function.update pass.view n (some slot) := by
  funext m
  rcases eq_or_ne m n with rfl | h
  · simp [view, withIndex]
  · simp [view, withIndex, AList.lookup_insert_ne h, Function.update_of_ne h]

/-- An entry found for a name changes nothing but the index. -/
lemma nameEntry_eq_withIndex (pass : NamePass) (n : Name) :
    pass.nameEntry n = pass.withIndex (pass.nameEntry n).index := by
  unfold nameEntry overlayEntry
  split
  · split <;> rfl
  · rfl

lemma withIndex_nameEntry (pass : NamePass) (n : Name) (index : KeyIndex) :
    (pass.nameEntry n).withIndex index = pass.withIndex index := by
  rw [nameEntry_eq_withIndex]
  rfl

/-- An entry found for a name changes what the pass finds of none. -/
@[simp] lemma view_nameEntry (pass : NamePass) (n : Name) : (pass.nameEntry n).view = pass.view := by
  unfold nameEntry overlayEntry
  split
  · next committed hb =>
    split
    · next slot hnone hslot =>
      rw [view_withIndex_insert]
      refine Function.update_eq_self_iff.mpr ?_
      simp [view, hb, hnone, hslot]
    · rfl
  · rfl

/-- The entry found for a name is the index's from then on. -/
lemma lookup_nameEntry (pass : NamePass) (n : Name) :
    (pass.nameEntry n).index.lookup n = pass.view n := by
  unfold nameEntry overlayEntry view
  split
  · next committed hb =>
    split
    · next slot hnone hslot => simp [hb, hnone, hslot]
    · next h =>
      rcases hi : pass.index.lookup n with _ | slot
      · rcases hc : committed.lookup n with _ | slot
        · simp [hb, hc]
        · exact absurd hc (h slot hi)
      · simp
  · next hb => simp [hb]

/-- Finding an entry for one name loses none of the index's. -/
lemma lookup_nameEntry_of_lookup {pass : NamePass} {m : Name} {slot : Slot} (n : Name)
    (h : pass.index.lookup m = some slot) : (pass.nameEntry n).index.lookup m = some slot := by
  unfold nameEntry overlayEntry
  split
  · split
    · next hnone _ =>
      have hmn : m ≠ n := by rintro rfl; simp [hnone] at h
      simpa [AList.lookup_insert_ne hmn] using h
    · exact h
  · exact h

/-- The pass finds at most `occupied` names: the search along a sequence meets a vacant one. -/
lemma exists_vacant (pass : NamePass) (base : Name) (first : ℕ) :
    ∃ k, first ≤ k ∧ k ≤ first + pass.occupied ∧ pass.view (anchorName base k) = none := by
  classical
  let keys := (pass.index.keys ++ pass.beneath.elim [] (·.keys)).toFinset
  have hcard : keys.card ≤ pass.occupied := by
    refine (List.toFinset_card_le _).trans ?_
    rcases hb : pass.beneath with _ | committed <;> simp [occupied, hb]
  obtain ⟨k, hk, hk', hnot⟩ := anchors.exists_notMem_from keys base first
  refine ⟨k, hk, hk'.trans (Nat.add_le_add_left hcard first), ?_⟩
  have hn : anchorName base k ∉ pass.index ∧
      ∀ committed, pass.beneath = some committed → anchorName base k ∉ committed := by
    simp only [keys, List.mem_toFinset, List.mem_append, not_or, anchors_nth] at hnot
    exact ⟨hnot.1, fun committed hb => by simpa [hb, ← AList.mem_keys] using hnot.2⟩
  simp only [view, AList.lookup_eq_none.mpr hn.1, Option.none_or]
  rcases hb : pass.beneath with _ | committed
  · rfl
  · exact AList.lookup_eq_none.mpr (hn.2 committed hb)

lemma exists_least_vacant (pass : NamePass) (base : Name) (first : ℕ) :
    ∃ k, (first ≤ k ∧ pass.view (anchorName base k) = none) ∧
      (∀ l, first ≤ l → l < k → (pass.view (anchorName base l)).isSome) ∧
      k ≤ first + pass.occupied := by
  classical
  obtain ⟨k, hk, hle, hnone⟩ := pass.exists_vacant base first
  have hex : ∃ k, first ≤ k ∧ pass.view (anchorName base k) = none := ⟨k, hk, hnone⟩
  refine ⟨Nat.find hex, Nat.find_spec hex, fun l hl hlt => ?_,
    (Nat.find_min' hex ⟨hk, hnone⟩).trans hle⟩
  rw [← Option.ne_none_iff_isSome]
  exact fun hl' => Nat.find_min hex hlt ⟨hl, hl'⟩

/-! ### Taking a name -/

lemma claimName_fst (pass : NamePass) (i : ℕ) (n : Name) :
    (pass.claimName i n).1 = pass.withIndex (pass.claimName i n).1.index := by
  unfold claimName
  split <;> rfl

lemma claimName_snd {pass : NamePass} (i : ℕ) {n : Name}
    (h : pass.index.lookup n = pass.view n) :
    (pass.claimName i n).2 = (pass.holder n).getD 0 := by
  unfold claimName holder
  rw [← h]
  cases pass.index.lookup n <;> rfl

/-- A claimed name is the heading's, and the suffix its entry keeps stays, from 1 on. -/
lemma view_claimName (pass : NamePass) (i : ℕ) {n : Name}
    (h : pass.index.lookup n = pass.view n) :
    (pass.claimName i n).1.view = Function.update pass.view n
      (some { value := ((pass.view n).map (·.value)).getD 1, extra := i + 1 }) := by
  unfold claimName
  rw [h]
  split
  · next slot hslot =>
    rw [hslot]
    exact view_withIndex_insert pass n _
  · next hslot =>
    rw [hslot]
    exact view_withIndex_insert pass n _

/-! ### The search for the first vacant name -/

lemma advance_of_lookup {pass : NamePass} {base : Name} {slot : Slot}
    (h : pass.index.lookup base = some slot) :
    pass.advance base = (slot.value, pass.withIndex
      (pass.index.insert base { slot with value := slot.value + 1 })) := by
  simp [advance, h, withIndex]

/-- From an occupied candidate, the search ends at the first vacant suffix from the one the base's
entry keeps, which is then past it. -/
lemma takeLastSearch_spec {fuel : ℕ} {pass : NamePass} {base name : Name} {slot : Slot} {k : ℕ}
    (hname : (pass.index.lookup name).isSome) (hbase : pass.index.lookup base = some slot)
    (hvalue : 0 < slot.value) (hk : slot.value ≤ k) (hfuel : k < slot.value + fuel)
    (hbelow : ∀ l, slot.value ≤ l → l < k → (pass.view (anchorName base l)).isSome)
    (hvacant : pass.view (anchorName base k) = none) :
    (takeLastSearch (fuel + 1) pass base name).2 = anchorName base k ∧
    (takeLastSearch (fuel + 1) pass base name).1 =
      pass.withIndex (takeLastSearch (fuel + 1) pass base name).1.index ∧
    (takeLastSearch (fuel + 1) pass base name).1.index.lookup (anchorName base k) = none ∧
    (takeLastSearch (fuel + 1) pass base name).1.view =
      Function.update pass.view base (some { slot with value := k + 1 }) := by
  induction fuel generalizing pass name slot with
  | zero => omega
  | succ fuel ih =>
    obtain ⟨found, hfound⟩ := Option.isSome_iff_exists.mp hname
    set next := pass.withIndex (pass.index.insert base { slot with value := slot.value + 1 })
      with hnext
    have hview : next.view =
        Function.update pass.view base (some { slot with value := slot.value + 1 }) :=
      view_withIndex_insert pass base _
    have hstep : takeLastSearch (fuel + 2) pass base name = takeLastSearch (fuel + 1)
        (next.nameEntry (anchorName base slot.value)) base (anchorName base slot.value) := by
      rw [takeLastSearch]
      simp only [hfound, advance_of_lookup hbase, ← hnext, anchorName_of_pos base hvalue]
    have hne : ∀ l, 0 < l → anchorName base l ≠ base := fun l hl h =>
      hl.ne' (anchorName_injective base (h.trans (anchorName_zero base).symm))
    have hlookup : (next.nameEntry (anchorName base slot.value)).index.lookup base =
        some { slot with value := slot.value + 1 } :=
      lookup_nameEntry_of_lookup _ (by simp [hnext, withIndex])
    have hsame : ∀ l, 0 < l → next.view (anchorName base l) = pass.view (anchorName base l) :=
      fun l hl => by rw [hview, Function.update_of_ne (hne l hl)]
    rw [hstep]
    rcases eq_or_lt_of_le hk with hkv | hkv
    · -- the candidate is vacant and the search ends at it
      have hend : (next.nameEntry (anchorName base slot.value)).index.lookup
          (anchorName base slot.value) = none := by
        rw [lookup_nameEntry, hsame _ hvalue, hkv, hvacant]
      rw [takeLastSearch]
      simp only [hend]
      refine ⟨by rw [hkv], ?_, hkv ▸ hend, ?_⟩
      · exact nameEntry_eq_withIndex next _
      · rw [view_nameEntry, hview, hkv]
    · have hocc : ((next.nameEntry (anchorName base slot.value)).index.lookup
          (anchorName base slot.value)).isSome := by
        rw [lookup_nameEntry, hsame _ hvalue]
        exact hbelow _ le_rfl hkv
      obtain ⟨h1, h2, hnone, h3⟩ := ih hocc hlookup (Nat.succ_pos _) hkv
        (show k < slot.value + 1 + fuel by omega)
        (fun l hl hlk => by
          rw [view_nameEntry, hsame l (by simp at hl; omega)]
          exact hbelow l (by simp at hl; omega) hlk)
        (by rw [view_nameEntry, hsame k (by omega), hvacant])
      refine ⟨h1, ?_, hnone, ?_⟩
      · exact h2.trans (withIndex_nameEntry next _ _)
      · rw [h3, view_nameEntry, hview, Function.update_idem]

/-! ### The search of a displaced heading -/

/-- The search ends at the first suffix past `suffix` that is vacant or that a heading after `i`
holds, and changes what the pass finds of no name. -/
lemma displaceSearch_spec {fuel : ℕ} {pass : NamePass} {i : ℕ} {base : Name} {suffix : ℕ}
    (hvacant : ∃ k, suffix < k ∧ k ≤ suffix + fuel ∧ pass.view (anchorName base k) = none) :
    ∃ k, suffix < k ∧ (displaceSearch fuel pass i base suffix).2 = anchorName base k ∧
      (∀ l, suffix < l → l < k → ∃ e ≤ i + 1, pass.holder (anchorName base l) = some e) ∧
      (∀ e, pass.holder (anchorName base k) = some e → i + 1 < e) ∧
      (displaceSearch fuel pass i base suffix).1 =
        pass.withIndex (displaceSearch fuel pass i base suffix).1.index ∧
      (displaceSearch fuel pass i base suffix).1.view = pass.view ∧
      (displaceSearch fuel pass i base suffix).1.index.lookup (anchorName base k) =
        pass.view (anchorName base k) := by
  induction fuel generalizing pass suffix with
  | zero =>
    obtain ⟨k, hk, hk', -⟩ := hvacant
    omega
  | succ fuel ih =>
    obtain ⟨k, hk, hk', hnone⟩ := hvacant
    have hlookup := lookup_nameEntry pass (anchorName base (suffix + 1))
    rcases hfound : pass.view (anchorName base (suffix + 1)) with _ | slot
    · have hend : displaceSearch (fuel + 1) pass i base suffix =
          (pass.nameEntry (anchorName base (suffix + 1)), anchorName base (suffix + 1)) := by
        rw [displaceSearch, ← anchorName_succ, hlookup, hfound]
      rw [hend]
      exact ⟨suffix + 1, Nat.lt_succ_self _, rfl, fun l hl hl' => by omega,
        fun e he => by simp [holder, hfound] at he, nameEntry_eq_withIndex _ _,
        view_nameEntry _ _, hlookup⟩
    · have hholder : pass.holder (anchorName base (suffix + 1)) = some slot.extra := by
        simp [holder, hfound]
      have hstep : displaceSearch (fuel + 1) pass i base suffix =
          if slot.extra = 0 ∨ slot.extra ≤ i + 1 then
            displaceSearch fuel (pass.nameEntry (anchorName base (suffix + 1))) i base (suffix + 1)
          else (pass.nameEntry (anchorName base (suffix + 1)), anchorName base (suffix + 1)) := by
        rw [displaceSearch, ← anchorName_succ, hlookup, hfound]
      rw [hstep]
      split_ifs with hheld
      · have hk1 : suffix + 1 < k := by
          refine lt_of_le_of_ne hk ?_
          rintro rfl
          simp [hfound] at hnone
        obtain ⟨k', hlt, hres, hbelow, habove, hidx, hview, hlast⟩ :=
          @ih (pass.nameEntry (anchorName base (suffix + 1))) (suffix + 1)
            ⟨k, hk1, by omega, by rw [view_nameEntry, hnone]⟩
        refine ⟨k', by omega, hres, fun l hl hl' => ?_, fun e he => ?_, ?_, ?_, ?_⟩
        · rcases eq_or_lt_of_le (Nat.succ_le_of_lt hl) with rfl | hl1
          · exact ⟨slot.extra, by omega, hholder⟩
          · simpa [holder] using hbelow l hl1 hl'
        · exact habove e (by simpa [holder] using he)
        · exact hidx.trans (withIndex_nameEntry _ _ _)
        · rw [hview, view_nameEntry]
        · rw [hlast, view_nameEntry]
      · refine ⟨suffix + 1, Nat.lt_succ_self _, rfl, fun l hl hl' => by omega, fun e he => ?_,
          nameEntry_eq_withIndex _ _, view_nameEntry _ _, hlookup⟩
        obtain rfl : slot.extra = e := Option.some.inj (hholder.symm.trans he)
        omega

end NamePass

end MarkdownCore
