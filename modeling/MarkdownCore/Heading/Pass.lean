import MarkdownCore.Heading.Represents

/-!
# The names of one pass

Each record read reserves its name, each heading named takes its first free name, and the pass stays
greedy (`NamePass.NamedTo`) through both.
-/

namespace MarkdownCore

open Naming

namespace NamePass

variable {pass : NamePass} {R R' : Name → Prop} {last earlier : ℕ}

lemma NamedTo.congr (h : pass.NamedTo R last earlier) (hR : ∀ n, R n ↔ R' n) :
    pass.NamedTo R' last earlier := by
  have : R = R' := funext fun n => propext (hR n)
  exact this ▸ h

/-- An index that finds the same names keeps the invariant. -/
lemma NamedTo.withIndex (h : pass.NamedTo R last earlier) {index : KeyIndex}
    (hview : (pass.withIndex index).view = pass.view) :
    (pass.withIndex index).NamedTo R last earlier :=
  ⟨h.le_length, h.entries.withIndex index, hview ▸ h.represents, h.greedy⟩

lemma NamedTo.nameEntry (h : pass.NamedTo R last earlier) (n : Name) :
    (pass.nameEntry n).NamedTo R last earlier := by
  have hview := view_nameEntry pass n
  rw [nameEntry_eq_withIndex] at hview ⊢
  exact h.withIndex hview

lemma keeps_nameEntry (pass : NamePass) (n : Name) (last : ℕ) :
    pass.Keeps (pass.nameEntry n) last := by
  rw [nameEntry_eq_withIndex]
  exact Keeps.withIndex pass _ last

/-! ### Reserving a name -/

/-- A vacant name becomes the record's. -/
lemma NamedTo.reserve_vacant (h : pass.NamedTo R last earlier) {n : Name}
    (hn : pass.view n = none) :
    (pass.withIndex (pass.index.insert n { value := 1, extra := 0 })).NamedTo
      (fun m => R m ∨ m = n) last earlier := by
  refine ⟨h.le_length, h.entries.withIndex _, ?_,
    h.greedy.reserve (h.represents.ne_of_eq_none hn)⟩
  rw [view_withIndex_insert]
  refine h.represents.update (show 0 < 1 by omega) (fun k hk hlt => ?_) (fun m => ?_) fun i m => ?_
  · exact absurd hlt (show ¬ k < 1 by omega)
  · split_ifs with hmn <;> simp [hmn]
  · split_ifs with hmn
    · subst hmn
      exact iff_of_false (h.represents.ne_of_eq_none hn i) (by simp)
    · rfl

/-- A name a heading has becomes the record's, and the heading is displaced from it. -/
lemma NamedTo.reserve_held (h : pass.NamedTo R last earlier) {n : Name} {slot : Slot} {i : ℕ}
    (hn : pass.view n = some slot) (hslot : slot.extra = i + 1) :
    ∃ base k, n = anchorName base k ∧
      (pass.withIndex (pass.index.insert n { slot with extra := 0 })).Displaced
        (fun m => R m ∨ m = n) last earlier i base (k + 1) := by
  have hi : pass.namesTo last i = some n := by
    rw [h.represents.named, hn]
    exact congrArg some hslot
  obtain ⟨base, hbase⟩ := (h.greedy i).1 n hi
  obtain ⟨k, hk⟩ := (h.greedy.isFirst hbase hi).mem
  have hheading := exists_heading h.entries hi hbase
  refine ⟨base, k, hk, h.le_length, h.entries.withIndex _, ?_,
    hk ▸ h.greedy.reserve_held hbase (hk ▸ hi), hheading⟩
  rw [view_withIndex_insert]
  refine h.represents.update (h.represents.suffixes n slot hn).1 (h.represents.suffixes n slot hn).2
    (fun m => ?_) fun j m => ?_
  · split_ifs with hmn <;> simp [hmn]
  · rcases eq_or_ne j i with rfl | hji
    · simp only [Function.update_self]
      split_ifs with hmn
      · simp
      · simpa using fun heq => hmn (Option.some.inj (heq.symm.trans hi))
    · rw [Function.update_of_ne hji]
      split_ifs with hmn
      · subst hmn
        exact iff_of_false (fun heq => hji (h.greedy.injective heq hi)) (by simp)
      · rfl

/-- Reading a declaration reserves its label. -/
theorem NamedTo.readRecord (h : pass.NamedTo R last earlier) (roster : Roster) {record : Record}
    (hseen : pass.fresh = true → roster.seen record = true) (hdeclares : record.withdraws = false) :
    (pass.readRecord roster record).NamedTo (fun n => R n ∨ n = record.label) last earlier ∧
      pass.Keeps (pass.readRecord roster record) last := by
  have hskip : (pass.fresh && !roster.seen record) = false := by
    rcases hf : pass.fresh with _ | _
    · rfl
    · simp [hseen hf]
  have hentry := h.nameEntry record.label
  have hkeeps := keeps_nameEntry pass record.label last
  have hlookup := lookup_nameEntry pass record.label
  rw [← view_nameEntry pass record.label] at hlookup
  unfold NamePass.readRecord
  simp only [hskip, hdeclares, Bool.false_eq_true, if_false, hlookup]
  generalize pass.nameEntry record.label = entered at hentry hkeeps
  rcases hview : entered.view record.label with _ | ⟨value, _ | i⟩
  · exact ⟨hentry.reserve_vacant hview, hkeeps.trans (Keeps.withIndex entered _ _)⟩
  · refine ⟨hentry.congr fun n => ⟨Or.inl, ?_⟩, hkeeps⟩
    rintro (hR | rfl)
    · exact hR
    · rw [hentry.represents.reserved, hview]
      rfl
  · obtain ⟨base, k, hk, hdisplaced⟩ := hentry.reserve_held hview rfl
    have hspec := displace_spec entered.headings.length hdisplaced (Nat.sub_le _ _)
    rw [← hk] at hspec
    exact ⟨hspec.1, hkeeps.trans ((Keeps.withIndex entered _ _).trans hspec.2)⟩

/-! ### Naming the next heading -/

/-- The first free name of a heading after every heading named is the first vacant one. -/
lemma NamedTo.isFirst (h : pass.NamedTo R last earlier) {base : Name} {k : ℕ}
    (hvacant : pass.view (anchorName base k) = none)
    (hbelow : ∀ l < k, (pass.view (anchorName base l)).isSome) :
    IsFirst anchors R (pass.namesTo last) last base (anchorName base k) := by
  refine ⟨k, rfl, ?_, fun l hl => ?_⟩
  · rintro (hR | ⟨j, -, hj⟩)
    · exact h.represents.not_reserved_of_eq_none hvacant hR
    · exact h.represents.ne_of_eq_none hvacant j hj
  · rcases (h.represents.isSome_iff _).mp (hbelow l hl) with hR | ⟨j, hj⟩
    · exact Or.inl hR
    · refine Or.inr ⟨j, ?_, hj⟩
      by_contra hlt
      simp [namesTo, hlt] at hj

/-- The search of the last heading ends at its first vacant name, and moves the suffix its base keeps
past it. -/
lemma NamedTo.takeLastSearch (h : pass.NamedTo R last earlier) (base : Name) :
    ∃ k found, NamePass.takeLastSearch (pass.occupied + 2) (pass.nameEntry base) base base =
        (found, anchorName base k) ∧
      pass.view (anchorName base k) = none ∧ (∀ l < k, (pass.view (anchorName base l)).isSome) ∧
      found = pass.withIndex found.index ∧ found.index.lookup (anchorName base k) = none ∧
      (found.view = pass.view ∨ ∃ slot, pass.view base = some slot ∧
        found.view = Function.update pass.view base (some { slot with value := k + 1 })) := by
  have hlookup := lookup_nameEntry pass base
  rcases hview : pass.view base with _ | slot
  · refine ⟨0, pass.nameEntry base, ?_, hview, fun l hl => absurd hl (Nat.not_lt_zero l),
      nameEntry_eq_withIndex pass base, by simpa using hlookup.trans hview,
      Or.inl (view_nameEntry pass base)⟩
    rw [NamePass.takeLastSearch]
    simp [hlookup, hview]
  · rw [hview] at hlookup
    obtain ⟨hvalue, hkept⟩ := h.represents.suffixes base slot hview
    -- the least suffix from the one kept whose name is vacant
    obtain ⟨k, ⟨hk, hvacant⟩, hmin, hle⟩ := pass.exists_least_vacant base slot.value
    obtain ⟨hname, hindex, hlast, hfound⟩ := @takeLastSearch_spec (pass.occupied + 1) _ base
      base _ k (by simp [hlookup]) hlookup hvalue hk (by omega)
      (by simpa using hmin) (by simpa using hvacant)
    rw [withIndex_nameEntry] at hindex
    rw [view_nameEntry] at hfound
    refine ⟨k, _, Prod.ext rfl hname, hvacant, fun l hl => ?_, hindex, hlast,
      Or.inr ⟨slot, rfl, hfound⟩⟩
    rcases Nat.eq_zero_or_pos l with rfl | hpos
    · simp [hview]
    · rcases lt_or_ge l slot.value with hlt | hge
      · exact hkept l hpos hlt
      · exact hmin l hge hl

/-- What the names and the bases of the headings are with the next one named. -/
lemma namesTo_succ {pass' : NamePass} {n : Name}
    (h : pass'.nameOf = Function.update pass.nameOf last (some n)) :
    pass'.namesTo (last + 1) = Function.update (pass.namesTo last) last (some n) := by
  funext i
  rcases lt_trichotomy i last with hi | rfl | hi
  · simp [namesTo, h, hi, Nat.lt_succ_of_lt hi, Function.update_of_ne hi.ne]
  · simp [namesTo, h]
  · simp [namesTo, Nat.not_lt_of_lt hi, Nat.not_lt_of_le (Nat.succ_le_of_lt hi),
      Function.update_of_ne hi.ne']

lemma basesTo_succ (pass : NamePass) (last : ℕ) :
    pass.basesTo (last + 1) = Function.update (pass.basesTo last) last (pass.baseOf last) := by
  funext i
  rcases lt_trichotomy i last with hi | rfl | hi
  · simp [basesTo, hi, Nat.lt_succ_of_lt hi, Function.update_of_ne hi.ne]
  · simp [basesTo]
  · simp [basesTo, Nat.not_lt_of_lt hi, Nat.not_lt_of_le (Nat.succ_le_of_lt hi),
      Function.update_of_ne hi.ne']

/-- The index once the next heading has the name, and the suffix its base keeps is past it. -/
lemma NamedTo.represents_takeLast (h : pass.NamedTo R last earlier) {base : Name} {k : ℕ}
    {view : Name → Option Slot} (hvacant : pass.view (anchorName base k) = none)
    (hbelow : ∀ l < k, (pass.view (anchorName base l)).isSome)
    (hview : view = pass.view ∨ ∃ slot, pass.view base = some slot ∧
      view = Function.update pass.view base (some { slot with value := k + 1 })) :
    view (anchorName base k) = none ∧
      Represents (Function.update view (anchorName base k) (some { value := 1, extra := last + 1 }))
        R (Function.update (pass.namesTo last) last (some (anchorName base k))) := by
  have hclaim := h.represents.claim_vacant (i := last) (by simp [namesTo]) hvacant
  rcases hview with rfl | ⟨slot, hslot, rfl⟩
  · exact ⟨hvacant, hclaim⟩
  · have hne : base ≠ anchorName base k := fun heq => by
      rw [← heq, hslot] at hvacant
      simp at hvacant
    refine ⟨by rw [Function.update_of_ne hne.symm, hvacant], ?_⟩
    rw [Function.update_comm hne]
    refine hclaim.advance (by rw [Function.update_of_ne hne, hslot]) (Nat.succ_pos k)
      fun l _ hlt => ?_
    rcases Nat.lt_succ_iff_lt_or_eq.mp hlt with hlt | rfl
    · have hnek : anchorName base l ≠ anchorName base k :=
        fun heq => hlt.ne (anchorName_injective base heq)
      rw [Function.update_of_ne hnek]
      exact hbelow l hlt
    · simp

/-- The next heading takes its first free name. -/
theorem NamedTo.takeLast (h : pass.NamedTo R last earlier) {heading : Heading}
    (hi : pass.headings[last]? = some heading) (hauth : heading.authored = false)
    (hholds : heading.holdsName = false) (hcommitted : pass.committed last = false) :
    (pass.takeLast last heading.base).NamedTo R (last + 1) earlier ∧
      pass.Keeps (pass.takeLast last heading.base) (last + 1) := by
  obtain ⟨k, found, hsearch, hvacant, hbelow, hindex, hlookup, hview⟩ :=
    h.takeLastSearch heading.base
  have hentries : found.Entries earlier := hindex ▸ h.entries.withIndex _
  have hkeeps : pass.Keeps found (last + 1) := hindex ▸ Keeps.withIndex pass _ _
  have hnames : found.nameOf = pass.nameOf := by rw [hindex]; rfl
  have hheading : found.headings[last]? = some heading := by rw [hindex]; exact hi
  obtain ⟨hentries', hkeeps', hview', hindex', hnames'⟩ := handName_spec (k := k) hentries hheading
    hauth hholds (by rw [hkeeps.committed, hcommitted])
  obtain ⟨hfound, hrepresents⟩ := h.represents_takeLast hvacant hbelow hview
  have htake : pass.takeLast last heading.base =
      ((found.handName last heading.base.length (anchorName heading.base k)).claimName last
        (anchorName heading.base k)).1 := by
    rw [NamePass.takeLast, hsearch]
  rw [htake]
  generalize found.handName last heading.base.length (anchorName heading.base k) = given at *
  have hclaim := view_claimName given last (n := anchorName heading.base k)
    (by rw [hindex', hview', hfound, hlookup])
  rw [hview', hfound] at hclaim
  rw [claimName_fst] at hclaim ⊢
  generalize (given.claimName last (anchorName heading.base k)).1.index = index at hclaim ⊢
  have hkeeps3 : pass.Keeps (given.withIndex index) (last + 1) :=
    (hkeeps.trans hkeeps').trans (Keeps.withIndex _ _ _)
  have hnames3 : (given.withIndex index).namesTo (last + 1) =
      Function.update (pass.namesTo last) last (some (anchorName heading.base k)) :=
    namesTo_succ (hnames'.trans (by rw [hnames]))
  refine ⟨⟨?_, hentries'.withIndex _, ?_, ?_⟩, hkeeps3⟩
  · rw [hkeeps3.length]
    exact (List.getElem?_eq_some_iff.mp hi).1
  · rw [hclaim, hnames3]
    exact hrepresents
  · have hbase : pass.baseOf last = some heading.base := by simp [baseOf, hi, hauth]
    rw [hnames3, basesTo_congr hkeeps3.baseOf, basesTo_succ, hbase]
    exact h.greedy.append (fun j hj => by simp [basesTo, Nat.not_lt_of_le hj])
      (h.isFirst hvacant hbelow)

/-- A heading that authors its anchor takes no name. -/
lemma NamedTo.skip (h : pass.NamedTo R last earlier) {heading : Heading}
    (hi : pass.headings[last]? = some heading) (hauth : heading.authored = true) :
    pass.NamedTo R (last + 1) earlier := by
  have hnames : pass.namesTo (last + 1) = pass.namesTo last := by
    funext i
    rcases lt_trichotomy i last with hlt | rfl | hlt
    · simp [namesTo, hlt, Nat.lt_succ_of_lt hlt]
    · simp [namesTo, nameOf, hi, hauth]
    · simp [namesTo, Nat.not_lt_of_lt hlt, Nat.not_lt_of_le (Nat.succ_le_of_lt hlt)]
  have hbases : pass.basesTo (last + 1) = pass.basesTo last := by
    rw [basesTo_succ]
    refine Function.update_eq_self_iff.mpr ?_
    simp [baseOf, basesTo, hi, hauth]
  exact ⟨(List.getElem?_eq_some_iff.mp hi).1, h.entries, hnames ▸ h.represents,
    by rw [hnames, hbases]; exact h.greedy⟩

/-- The next heading named, past those committed. -/
lemma NamedTo.nameHeading (h : pass.NamedTo R last earlier) (hnamed : pass.named ≤ last)
    (hlast : last < pass.headings.length) :
    (pass.nameHeading last).NamedTo R (last + 1) earlier ∧
      pass.Keeps (pass.nameHeading last) (last + 1) := by
  obtain ⟨heading, hi⟩ : ∃ heading, pass.headings[last]? = some heading :=
    ⟨_, List.getElem?_eq_getElem hlast⟩
  have hentry := h.entries.entry last heading hi
  have hcommitted : pass.committed last = false := by
    by_contra hc
    have := (committed_iff.mp (by simpa using hc)).2
    omega
  have hholds : heading.holdsName = false := by
    by_contra hh
    have := (hentry.holds (by simpa using hh)).1
    omega
  unfold NamePass.nameHeading
  simp only [hi]
  split_ifs with hauth
  · exact ⟨h.skip hi hauth, Keeps.refl _ _⟩
  · have hauth : heading.authored = false := by simpa using hauth
    rw [hentry.coherent.namedFrom]
    exact h.takeLast hi hauth hholds hcommitted

/-- The headings up to `first + count` named. -/
theorem NamedTo.nameHeadings {first : ℕ} (count : ℕ) (h : pass.NamedTo R first earlier)
    (hnamed : pass.named ≤ first) (hlen : first + count ≤ pass.headings.length) :
    (pass.nameHeadings first (first + count)).NamedTo R (first + count) earlier ∧
      pass.Keeps (pass.nameHeadings first (first + count)) (first + count) := by
  have hrange : first + count - first = count := by omega
  unfold NamePass.nameHeadings
  rw [hrange]
  clear hrange
  induction count with
  | zero => exact ⟨h, Keeps.refl _ _⟩
  | succ count ih =>
    obtain ⟨hn, hk⟩ := ih (by omega)
    rw [List.range'_1_concat, List.foldl_append]
    simp only [List.foldl_cons, List.foldl_nil]
    obtain ⟨hn', hk'⟩ := hn.nameHeading (by rw [hk.named]; omega) (by rw [hk.length]; omega)
    exact ⟨hn', (hk.mono (by omega)).trans hk'⟩

end NamePass

end MarkdownCore
