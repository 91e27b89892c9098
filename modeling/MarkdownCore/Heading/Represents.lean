import MarkdownCore.Heading.Entries

/-!
# A pass is greedy

`NamePass.NamedTo` is the invariant of a pass: its headings before `last` have the names one greedy
pass over them gives, past the names reserved, the index finds who takes each, and the suffix a name
keeps has none free below it. Reserving a name and naming the next heading both keep it, whatever
the order of the two; in between, while headings are displaced, one of them is without a name
(`NamePass.Displaced`).
-/

namespace MarkdownCore

open Naming

/-! ### What the index finds -/

/-- The entries found are those of the names reserved and of the names given, and below the suffix
an entry keeps every name of its sequence is taken. -/
structure Represents (view : Name → Option Slot) (R : Name → Prop) (name : ℕ → Option Name) :
    Prop where
  reserved : ∀ n, R n ↔ (view n).map (·.extra) = some 0
  named : ∀ i n, name i = some n ↔ (view n).map (·.extra) = some (i + 1)
  suffixes : ∀ n slot, view n = some slot →
    0 < slot.value ∧ ∀ k, 0 < k → k < slot.value → (view (anchorName n k)).isSome

namespace Represents

variable {view : Name → Option Slot} {R R' : Name → Prop} {name name' : ℕ → Option Name}

lemma isSome_iff (h : Represents view R name) (n : Name) :
    (view n).isSome ↔ R n ∨ ∃ i, name i = some n := by
  simp only [h.reserved, h.named]
  rcases view n with _ | ⟨value, _ | i⟩ <;> simp

lemma eq_none (h : Represents view R name) {n : Name} (hR : ¬ R n)
    (hname : ∀ i, name i ≠ some n) : view n = none := by
  rw [← Option.not_isSome_iff_eq_none, h.isSome_iff]
  rintro (h | ⟨i, h⟩)
  · exact hR h
  · exact hname i h

lemma not_reserved_of_eq_none (h : Represents view R name) {n : Name} (hn : view n = none) :
    ¬ R n := by
  simp [h.reserved, hn]

lemma ne_of_eq_none (h : Represents view R name) {n : Name} (hn : view n = none) (i : ℕ) :
    name i ≠ some n := by
  simp [h.named, hn]

/-- One entry changes, and with it who takes its name. -/
lemma update (h : Represents view R name) {n : Name} {slot : Slot}
    (hvalue : 0 < slot.value)
    (hsuffixes : ∀ k, 0 < k → k < slot.value → (view (anchorName n k)).isSome)
    (hR : ∀ m, R' m ↔ if m = n then slot.extra = 0 else R m)
    (hname : ∀ i m, name' i = some m ↔ if m = n then slot.extra = i + 1 else name i = some m) :
    Represents (Function.update view n (some slot)) R' name' := by
  have hsome : ∀ m, (view m).isSome → (Function.update view n (some slot) m).isSome := by
    intro m hm
    rcases eq_or_ne m n with rfl | hmn
    · simp
    · rwa [Function.update_of_ne hmn]
  refine ⟨fun m => ?_, fun i m => ?_, fun m slot' hslot => ?_⟩
  · rw [hR]
    split_ifs with hmn
    · simp [hmn]
    · rw [Function.update_of_ne hmn, h.reserved]
  · rw [hname]
    split_ifs with hmn
    · simp [hmn]
    · rw [Function.update_of_ne hmn, h.named]
  · rcases eq_or_ne m n with rfl | hmn
    · rw [Function.update_self] at hslot
      obtain rfl := Option.some.inj hslot
      exact ⟨hvalue, fun k hk hlt => hsome _ (hsuffixes k hk hlt)⟩
    · rw [Function.update_of_ne hmn] at hslot
      exact ⟨(h.suffixes m slot' hslot).1, fun k hk hlt =>
        hsome _ ((h.suffixes m slot' hslot).2 k hk hlt)⟩

/-- An item claims a name vacant or held by another, whose suffix stays. -/
lemma claim (h : Represents view R name) {i : ℕ} {n : Name} (hi : name i = none) (hn : ¬ R n)
    (hname : ∀ j, j ≠ i → ∀ m, name' j = some m ↔ m ≠ n ∧ name j = some m)
    (hself : name' i = some n) :
    Represents (Function.update view n
      (some { value := ((view n).map (·.value)).getD 1, extra := i + 1 })) R name' := by
  refine h.update ?_ ?_ (fun m => ?_) fun j m => ?_
  · rcases hv : view n with _ | slot
    · simp
    · simpa [hv] using (h.suffixes n slot hv).1
  · rcases hv : view n with _ | slot
    · intro k hk hlt
      simp at hlt
      omega
    · simpa [hv] using (h.suffixes n slot hv).2
  · split_ifs with hmn
    · simp [hmn, hn]
    · rfl
  · rcases eq_or_ne j i with rfl | hji
    · rw [hself, hi]
      split_ifs with hmn
      · simp [hmn]
      · simp [Ne.symm hmn]
    · rw [hname j hji]
      split_ifs with hmn
      · simp [hmn, hji.symm]
      · simp [hmn]

/-- An item claims a vacant name. -/
lemma claim_vacant (h : Represents view R name) {i : ℕ} {n : Name} (hi : name i = none)
    (hn : view n = none) :
    Represents (Function.update view n (some { value := 1, extra := i + 1 })) R
      (Function.update name i (some n)) := by
  have hclaim : Represents (Function.update view n
      (some { value := ((view n).map (·.value)).getD 1, extra := i + 1 })) R
      (Function.update name i (some n)) := by
    refine h.claim hi (h.not_reserved_of_eq_none hn) (fun j hj m => ?_) (Function.update_self ..)
    rw [Function.update_of_ne hj]
    refine ⟨fun hm => ⟨?_, hm⟩, And.right⟩
    rintro rfl
    exact h.ne_of_eq_none hn j hm
  rw [hn] at hclaim
  exact hclaim

/-- Keeping a greater suffix of a name, all those below it taken, changes who takes none. -/
lemma advance (h : Represents view R name) {n : Name} {slot : Slot} {value : ℕ}
    (hslot : view n = some slot) (hvalue : 0 < value)
    (hbelow : ∀ k, 0 < k → k < value → (view (anchorName n k)).isSome) :
    Represents (Function.update view n (some { slot with value })) R name := by
  refine h.update hvalue hbelow (fun m => ?_) fun i m => ?_
  · split_ifs with hmn
    · rw [hmn, h.reserved, hslot]
      simp
    · rfl
  · split_ifs with hmn
    · rw [hmn, h.named, hslot]
      simp
    · rfl

end Represents

namespace NamePass

/-! ### The invariant -/

/-- The names of the headings before `last`, as the pass gives them. -/
def namesTo (pass : NamePass) (last i : ℕ) : Option Name := if i < last then pass.nameOf i else none

/-- What the headings before `last` are named from. -/
def basesTo (pass : NamePass) (last i : ℕ) : Option Name := if i < last then pass.baseOf i else none

structure NamedTo (pass : NamePass) (R : Name → Prop) (last earlier : ℕ) : Prop where
  le_length : last ≤ pass.headings.length
  entries : pass.Entries earlier
  represents : Represents pass.view R (pass.namesTo last)
  greedy : IsGreedy anchors R (pass.basesTo last) (pass.namesTo last)

/-- Heading `i` is without a name, and finds the names of `base` before the `next`-th taken. -/
structure Displaced (pass : NamePass) (R : Name → Prop) (last earlier i : ℕ) (base : Name)
    (next : ℕ) : Prop where
  le_length : last ≤ pass.headings.length
  entries : pass.Entries earlier
  represents : Represents pass.view R (Function.update (pass.namesTo last) i none)
  greedy : GreedyBut anchors R (pass.basesTo last) (Function.update (pass.namesTo last) i none) i
    base next
  heading : ∃ heading, pass.headings[i]? = some heading ∧ heading.base = base ∧
    heading.name.isSome

lemma basesTo_congr {pass pass' : NamePass} (h : pass'.baseOf = pass.baseOf) (last : ℕ) :
    pass'.basesTo last = pass.basesTo last := by
  funext i
  simp [basesTo, h]

lemma namesTo_update {pass pass' : NamePass} {i last : ℕ} {n : Name}
    (h : pass'.nameOf = Function.update pass.nameOf i (some n)) (hi : i < last) :
    pass'.namesTo last = Function.update (pass.namesTo last) i (some n) := by
  funext j
  rcases eq_or_ne j i with rfl | hji
  · simp [namesTo, h, hi]
  · simp [namesTo, h, Function.update_of_ne hji]

/-- A heading that has a name has an entry that names it, and is named from its base. -/
lemma exists_heading {pass : NamePass} {earlier last i : ℕ} {n b : Name}
    (he : pass.Entries earlier) (hn : pass.namesTo last i = some n)
    (hb : pass.basesTo last i = some b) :
    ∃ heading, pass.headings[i]? = some heading ∧ heading.base = b ∧ heading.name.isSome := by
  have hlt : i < last := by
    by_contra h
    simp [namesTo, h] at hn
  simp only [namesTo, basesTo, hlt, if_true, nameOf, baseOf] at hn hb
  rcases hi : pass.headings[i]? with _ | heading
  · simp [hi] at hn
  · refine ⟨heading, rfl, ?_, ?_⟩
    · simp only [hi, Option.bind_some] at hb
      split_ifs at hb
      exact Option.some.inj hb
    · simp only [hi, Option.bind_some] at hn
      split_ifs at hn with hauth
      unfold Heading.given at hn
      split_ifs at hn with hren
      · exact (he.entry i heading hi).coherent.renamed (Bool.and_eq_true_iff.mp hren).2
      · simp [hn]

/-! ### Displacement -/

/-- What one displacement does: the heading has the first name past its own that no earlier heading
and no anchor has, and the index says so. -/
lemma displaceStep_spec {pass : NamePass} {earlier i : ℕ} {heading : Heading} {k : ℕ}
    (he : pass.Entries earlier) (hi : pass.headings[i]? = some heading)
    (hname : heading.name.isSome) :
    ∃ l, k < l ∧
      (∀ m, k < m → m < l → ∃ e ≤ i + 1, pass.holder (anchorName heading.base m) = some e) ∧
      (∀ e, pass.holder (anchorName heading.base l) = some e → i + 1 < e) ∧
      ∃ pass', pass.displaceStep i heading (anchorName heading.base k) =
          ((pass', (pass.holder (anchorName heading.base l)).getD 0), anchorName heading.base l) ∧
        pass'.Entries earlier ∧ pass.Keeps pass' (i + 1) ∧
        pass'.nameOf = Function.update pass.nameOf i (some (anchorName heading.base l)) ∧
        pass'.view = Function.update pass.view (anchorName heading.base l)
          (some { value := ((pass.view (anchorName heading.base l)).map (·.value)).getD 1,
                  extra := i + 1 }) := by
  have hcoh := (he.entry i heading hi).coherent
  have hsize := hcoh.baseSize_eq hname
  obtain ⟨v, hv1, hv2, hvacant⟩ := pass.exists_vacant heading.base (k + 1)
  obtain ⟨l, hkl, hfound, hbelow, habove, hidx, hview, hlookup⟩ :=
    @displaceSearch_spec (pass.occupied + 1) pass i heading.base k ⟨v, hv1, by omega, hvacant⟩
  refine ⟨l, hkl, hbelow, habove, ?_⟩
  set n := anchorName heading.base l
  obtain ⟨found, hsearch⟩ : ∃ found,
      displaceSearch (pass.occupied + 1) pass i heading.base k = (found, n) :=
    ⟨_, Prod.ext rfl hfound⟩
  simp only [hsearch] at hidx hview hlookup
  have hentries : found.Entries earlier := hidx ▸ he.withIndex _
  have hkeeps : pass.Keeps found (i + 1) := hidx ▸ Keeps.withIndex pass _ _
  have hnames : found.nameOf = pass.nameOf := by rw [hidx]; rfl
  have hheading : found.headings[i]? = some heading := by rw [hidx]; exact hi
  -- the heading given the name found
  obtain ⟨given, hgiven, hentries', hkeeps', hview', hindex', hnames'⟩ : ∃ given, given =
      (if heading.holdsName || found.committed i then found.giveNameApart i heading.base.length n
        else found.handName i heading.base.length n) ∧ given.Entries earlier ∧
      found.Keeps given (i + 1) ∧ given.view = found.view ∧ given.index = found.index ∧
      given.nameOf = Function.update found.nameOf i (some n) := by
    refine ⟨_, rfl, ?_⟩
    split_ifs with hpart
    · exact giveNameApart_spec hentries hheading hname
    · simp only [Bool.or_eq_true, not_or, Bool.not_eq_true] at hpart
      exact handName_spec hentries hheading (hcoh.authored_eq_false hname) hpart.1 hpart.2
  have hlookup' : given.index.lookup n = given.view n := by rw [hindex', hview', hview, hlookup]
  have hstep : pass.displaceStep i heading (anchorName heading.base k) =
      (given.claimName i n, n) := by
    rw [displaceStep, hsize, nameSuffix_anchorName, take_anchorName, hsearch, hgiven]
  have hholder : (given.claimName i n).2 = (pass.holder n).getD 0 := by
    rw [claimName_snd i hlookup', holder, holder, hview', hview]
  refine ⟨(given.claimName i n).1, hstep.trans (by rw [← hholder]), ?_, ?_, ?_, ?_⟩
  · rw [claimName_fst]
    exact hentries'.withIndex _
  · rw [claimName_fst]
    exact (hkeeps.trans hkeeps').trans (Keeps.withIndex _ _ _)
  · rw [claimName_fst]
    exact hnames'.trans (by rw [hnames])
  · rw [view_claimName _ i hlookup', hview', hview]

namespace Displaced

variable {pass pass' : NamePass} {R : Name → Prop} {last earlier i : ℕ} {base : Name} {k l : ℕ}

lemma lt (h : pass.Displaced R last earlier i base k) : i < last := by
  by_contra hlt
  simpa [basesTo, hlt] using h.greedy.base_eq

/-- The names the displacement passes over are taken before the heading. -/
lemma taken (h : pass.Displaced R last earlier i base k)
    (hbelow : ∀ m, k ≤ m → m < l → ∃ e ≤ i + 1, pass.holder (anchorName base m) = some e) (m : ℕ)
    (hkm : k ≤ m) (hml : m < l) :
    Taken R (Function.update (pass.namesTo last) i none) i (anchorName base m) := by
  obtain ⟨e, he, hhold⟩ := hbelow m hkm hml
  rcases e with _ | j
  · exact Or.inl ((h.represents.reserved _).mpr hhold)
  · have hj := (h.represents.named j _).mpr hhold
    refine Or.inr ⟨j, lt_of_le_of_ne (by omega) ?_, hj⟩
    rintro rfl
    simp at hj

variable (h : pass.Displaced R last earlier i base k)
  (hbelow : ∀ m, k ≤ m → m < l → ∃ e ≤ i + 1, pass.holder (anchorName base m) = some e)
  (hentries : pass'.Entries earlier) (hkeeps : pass.Keeps pass' (i + 1))
  (hnames : pass'.nameOf = Function.update pass.nameOf i (some (anchorName base l)))
  (hview : pass'.view = Function.update pass.view (anchorName base l)
    (some { value := ((pass.view (anchorName base l)).map (·.value)).getD 1, extra := i + 1 }))
include h hbelow hentries hkeeps hnames hview

/-- The heading takes a vacant name: every heading has one again. -/
lemma vacant (hfree : pass.holder (anchorName base l) = none) :
    pass'.NamedTo R last earlier := by
  have hnone : pass.view (anchorName base l) = none := by simpa [holder] using hfree
  have hR := h.represents.not_reserved_of_eq_none hnone
  have hne := h.represents.ne_of_eq_none hnone
  refine ⟨hkeeps.length ▸ h.le_length, hentries, ?_, ?_⟩
  · have hclaim := h.represents.claim_vacant (Function.update_self ..) hnone
    rw [Function.update_idem] at hclaim
    rw [hview, namesTo_update hnames h.lt, hnone]
    exact hclaim
  · rw [basesTo_congr hkeeps.baseOf, namesTo_update hnames h.lt]
    have hclaim := h.greedy.claim (h.taken hbelow) hR hne
    rw [Function.update_idem] at hclaim
    exact hclaim

/-- The heading takes the name of a later one, which is then the one displaced. -/
lemma held {j : ℕ} (hij : i < j) (hheld : pass.holder (anchorName base l) = some (j + 1)) :
    ∃ c m, anchorName base l = anchorName c m ∧ pass'.Displaced R last earlier j c (m + 1) := by
  have hj : Function.update (pass.namesTo last) i none j = some (anchorName base l) :=
    (h.represents.named j _).mpr hheld
  have hnj : pass.namesTo last j = some (anchorName base l) := by
    rwa [Function.update_of_ne hij.ne'] at hj
  have hR : ¬ R (anchorName base l) := fun hR => by
    have := (h.represents.reserved _).mp hR
    rw [← holder, hheld] at this
    simp at this
  obtain ⟨c, hc⟩ := h.greedy.base_isSome hj
  obtain ⟨m, hm⟩ := (h.greedy.isFirst hc hj).mem
  have hupdate : Function.update (pass'.namesTo last) j none = Function.update (Function.update
      (Function.update (pass.namesTo last) i none) j none) i (some (anchorName base l)) := by
    rw [namesTo_update hnames h.lt]
    funext x
    rcases eq_or_ne x i with rfl | hxi
    · simp [Function.update_of_ne hij.ne]
    · rcases eq_or_ne x j with rfl | hxj
      · simp [Function.update_of_ne hxi]
      · simp [Function.update_of_ne hxi, Function.update_of_ne hxj]
  refine ⟨c, m, hm, hkeeps.length ▸ h.le_length, hentries, ?_, ?_, ?_⟩
  · rw [hview, hupdate]
    refine h.represents.claim (Function.update_self ..) hR (fun x hx y => ?_)
      (Function.update_self ..)
    rw [Function.update_of_ne hx]
    rcases eq_or_ne x j with rfl | hxj
    · simp only [Function.update_self, hj, Option.some.injEq]
      exact ⟨fun h => by simp at h, fun h => absurd h.2.symm h.1⟩
    · rw [Function.update_of_ne hxj]
      refine ⟨fun hy => ⟨?_, hy⟩, And.right⟩
      rintro rfl
      exact hxj (h.greedy.injective hy hj)
  · rw [basesTo_congr hkeeps.baseOf, hupdate]
    exact h.greedy.claim_held (h.taken hbelow) hij hj hc hm
  · obtain ⟨heading, hheading, hbase, hname⟩ := exists_heading h.entries hnj hc
    exact ⟨heading, (hkeeps.untouched j hij).trans hheading, hbase, hname⟩

end Displaced

/-- Headings displaced in turn, each later than the last, all have names again. -/
theorem displace_spec (fuel : ℕ) {pass : NamePass} {R : Name → Prop} {last earlier i : ℕ}
    {base : Name} {k : ℕ} (h : pass.Displaced R last earlier i base (k + 1))
    (hfuel : pass.headings.length - i ≤ fuel) :
    (displace fuel pass i (anchorName base k)).NamedTo R last earlier ∧
      pass.Keeps (displace fuel pass i (anchorName base k)) last := by
  induction fuel generalizing pass i base k with
  | zero =>
    obtain ⟨heading, hi, -, -⟩ := h.heading
    have := (List.getElem?_eq_some_iff.mp hi).1
    omega
  | succ fuel ih =>
    obtain ⟨heading, hi, rfl, hname⟩ := h.heading
    obtain ⟨l, -, hbelow, habove, pass', hstep, hentries, hkeeps, hnames, hview⟩ :=
      displaceStep_spec (k := k) h.entries hi hname
    rw [displace]
    simp only [hi, hstep]
    rcases hheld : pass.holder (anchorName heading.base l) with _ | e
    · exact ⟨h.vacant hbelow hentries hkeeps hnames hview hheld, hkeeps.mono h.lt⟩
    · have hie := habove e hheld
      obtain ⟨j, rfl⟩ : ∃ j, e = j + 1 := ⟨e - 1, by omega⟩
      obtain ⟨c, m, hm, hnext⟩ :=
        h.held hbelow hentries hkeeps hnames hview (by omega) hheld
      have hlen := hkeeps.length
      obtain ⟨hnamed, hkeeps'⟩ := ih hnext (by omega)
      simp only [Option.getD_some, hm]
      exact ⟨hnamed, (hkeeps.mono h.lt).trans hkeeps'⟩

end NamePass

end MarkdownCore
