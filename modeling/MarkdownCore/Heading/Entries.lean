import MarkdownCore.Heading.View

/-!
# The entries of a pass

What a pass names a heading, `NamePass.nameOf`, is the name its entry keeps, but for a committed
heading a snapshot renamed, whose node shows it. `NamePass.Entries` says that entries and nodes
agree so far as they should; giving a heading a name keeps it, and changes the name of that heading
only.
-/

namespace MarkdownCore

/-- The entry's name is one of its base's names, and so is what the node shows; entry and node agree
unless the entry holds its name. -/
structure Heading.Coherent (heading : Heading) : Prop where
  named : ∀ n, heading.name = some n →
    heading.baseSize = heading.base.length ∧ ∃ k, n = anchorName heading.base k
  agree : heading.holdsName = false → heading.name.isSome → heading.anchor = heading.name
  apart : heading.holdsName = true →
    heading.name.isSome ∧ ∃ k, heading.anchor = some (anchorName heading.base k)
  authored : heading.authored = true → heading.name = none
  renamed : heading.renamed = true → heading.name.isSome

/-- What the heading is named, where an overlay names a committed one apart from its entry. -/
def Heading.given (heading : Heading) (committed : Bool) : Option Name :=
  if committed && heading.renamed then heading.anchor else heading.name

/-- The heading is as it was but for its names, and those of a committed one are too. -/
structure Heading.Same (committed : Prop) (heading heading' : Heading) : Prop where
  start : heading'.start = heading.start
  base : heading'.base = heading.base
  parsed : heading'.parsed = heading.parsed
  authored : heading'.authored = heading.authored
  kept : committed → heading'.name = heading.name ∧ heading'.baseSize = heading.baseSize

@[refl] lemma Heading.Same.refl (committed : Prop) (heading : Heading) :
    heading.Same committed heading :=
  ⟨rfl, rfl, rfl, rfl, fun _ => ⟨rfl, rfl⟩⟩

lemma Heading.Same.trans {committed : Prop} {a b c : Heading} (h : a.Same committed b)
    (h' : b.Same committed c) : a.Same committed c :=
  ⟨h'.start.trans h.start, h'.base.trans h.base, h'.parsed.trans h.parsed,
    h'.authored.trans h.authored,
    fun hc => ⟨(h'.kept hc).1.trans (h.kept hc).1, (h'.kept hc).2.trans (h.kept hc).2⟩⟩

lemma Heading.Same.mono {c c' : Prop} {a b : Heading} (h : a.Same c b) (hc : c' → c) :
    a.Same c' b :=
  { h with kept := fun h' => h.kept (hc h') }

namespace NamePass

lemma committed_iff {pass : NamePass} {i : ℕ} :
    pass.committed i = true ↔ pass.beneath.isSome = true ∧ i < pass.named := by
  simp [committed]

/-- What the pass names heading `i`. -/
def nameOf (pass : NamePass) (i : ℕ) : Option Name :=
  pass.headings[i]?.bind fun heading =>
    if heading.authored then none else heading.given (pass.committed i)

/-- What heading `i` is named from. -/
def baseOf (pass : NamePass) (i : ℕ) : Option Name :=
  pass.headings[i]?.bind fun heading => if heading.authored then none else some heading.base

/-- The entry of heading `i`, where the last snapshot renamed the first `earlier` of the headings
listed. -/
structure Entry (pass : NamePass) (earlier i : ℕ) (heading : Heading) : Prop where
  coherent : heading.Coherent
  holds : heading.holdsName = true →
    i < pass.named ∧ (i ∈ pass.renamed.take earlier ∨ heading.renamed = true)
  renamed : heading.renamed = true → i ∈ pass.renamed.drop earlier ∧ pass.committed i = true

structure Entries (pass : NamePass) (earlier : ℕ) : Prop where
  le_length : earlier ≤ pass.renamed.length
  entry : ∀ i heading, pass.headings[i]? = some heading → pass.Entry earlier i heading

/-- `pass'` has the headings and the committed names of `pass`, and those it names differently come
before `last`. -/
structure Keeps (pass pass' : NamePass) (last : ℕ) : Prop where
  named : pass'.named = pass.named
  beneath : pass'.beneath = pass.beneath
  fresh : pass'.fresh = pass.fresh
  length : pass'.headings.length = pass.headings.length
  renamed : ∃ list, pass'.renamed = pass.renamed ++ list
  same : ∀ i (heading : Heading), pass.headings[i]? = some heading →
    ∃ heading', pass'.headings[i]? = some heading' ∧ heading.Same (pass.committed i) heading'
  untouched : ∀ i, last ≤ i → pass'.headings[i]? = pass.headings[i]?

namespace Keeps

variable {pass pass' pass'' : NamePass} {last : ℕ}

lemma refl (pass : NamePass) (last : ℕ) : pass.Keeps pass last where
  named := rfl
  beneath := rfl
  fresh := rfl
  length := rfl
  renamed := ⟨[], (List.append_nil _).symm⟩
  same := fun _ heading h => ⟨heading, h, .refl _ _⟩
  untouched := fun _ _ => rfl

lemma committed (h : pass.Keeps pass' last) (i : ℕ) : pass'.committed i = pass.committed i := by
  simp [NamePass.committed, h.named, h.beneath]

lemma trans (h : pass.Keeps pass' last) (h' : pass'.Keeps pass'' last) :
    pass.Keeps pass'' last where
  named := h'.named.trans h.named
  beneath := h'.beneath.trans h.beneath
  fresh := h'.fresh.trans h.fresh
  length := h'.length.trans h.length
  renamed := by
    obtain ⟨list, hl⟩ := h.renamed
    obtain ⟨list', hl'⟩ := h'.renamed
    exact ⟨list ++ list', by rw [hl', hl, List.append_assoc]⟩
  same := fun i heading hi => by
    obtain ⟨heading', hi', hs⟩ := h.same i heading hi
    obtain ⟨heading'', hi'', hs'⟩ := h'.same i heading' hi'
    exact ⟨heading'', hi'', hs.trans (h.committed i ▸ hs')⟩
  untouched := fun i hi => (h'.untouched i hi).trans (h.untouched i hi)

lemma mono {last' : ℕ} (h : pass.Keeps pass' last) (hle : last ≤ last') :
    pass.Keeps pass' last' :=
  { h with untouched := fun i hi => h.untouched i (hle.trans hi) }

lemma baseOf (h : pass.Keeps pass' last) : pass'.baseOf = pass.baseOf := by
  funext i
  rcases hi : pass.headings[i]? with _ | heading
  · have hlen : pass'.headings[i]? = none := by
      rw [List.getElem?_eq_none_iff, h.length]
      exact List.getElem?_eq_none_iff.mp hi
    simp [NamePass.baseOf, hi, hlen]
  · obtain ⟨heading', hi', hs⟩ := h.same i heading hi
    simp [NamePass.baseOf, hi, hi', hs.authored, hs.base]

end Keeps

/-- A pass with another index has the same entries. -/
lemma Keeps.withIndex (pass : NamePass) (index : KeyIndex) (last : ℕ) :
    pass.Keeps (pass.withIndex index) last :=
  { Keeps.refl pass last with }

lemma Entries.withIndex {pass : NamePass} {earlier : ℕ} (h : pass.Entries earlier)
    (index : KeyIndex) : (pass.withIndex index).Entries earlier :=
  ⟨h.le_length, fun i heading hi =>
    ⟨(h.entry i heading hi).coherent, (h.entry i heading hi).holds,
      (h.entry i heading hi).renamed⟩⟩

/-! ### A heading given a name -/

/-- Entry `i` alone changes, and `i` may join the headings renamed. -/
structure Gives (pass pass' : NamePass) (i : ℕ) (f : Heading → Heading) : Prop where
  named : pass'.named = pass.named
  beneath : pass'.beneath = pass.beneath
  fresh : pass'.fresh = pass.fresh
  index : pass'.index = pass.index
  headings : pass'.headings = pass.headings.modify i f
  renamed : pass'.renamed = pass.renamed ∨ pass'.renamed = pass.renamed ++ [i]

namespace Gives

variable {pass pass' : NamePass} {i : ℕ} {f : Heading → Heading} {heading : Heading}
  {earlier : ℕ} {n : Name}

lemma committed (h : Gives pass pass' i f) (j : ℕ) : pass'.committed j = pass.committed j := by
  simp [NamePass.committed, h.named, h.beneath]

lemma view (h : Gives pass pass' i f) : pass'.view = pass.view := by
  funext m
  simp [NamePass.view, h.index, h.beneath]

lemma keeps (h : Gives pass pass' i f) (hi : pass.headings[i]? = some heading)
    (hs : heading.Same (pass.committed i) (f heading)) : pass.Keeps pass' (i + 1) where
  named := h.named
  beneath := h.beneath
  fresh := h.fresh
  length := by rw [h.headings, List.length_modify]
  renamed := by
    rcases h.renamed with hr | hr
    · exact ⟨[], by rw [hr, List.append_nil]⟩
    · exact ⟨[i], hr⟩
  same := fun j heading' hj => by
    rw [h.headings]
    rcases eq_or_ne i j with rfl | hij
    · obtain rfl : heading = heading' := Option.some.inj (hi.symm.trans hj)
      exact ⟨f heading, by rw [List.getElem?_modify_eq, hi]; rfl, hs⟩
    · exact ⟨heading', by rw [List.getElem?_modify_ne _ _ hij, hj], .refl _ _⟩
  untouched := fun j hj => by
    rw [h.headings, List.getElem?_modify_ne _ _ (by omega)]

/-- Giving heading `i` a name keeps the entries, when it keeps the heading's. -/
lemma entries (h : Gives pass pass' i f) (he : pass.Entries earlier)
    (hi : pass.headings[i]? = some heading) (hf : pass'.Entry earlier i (f heading)) :
    pass'.Entries earlier := by
  have htake : pass'.renamed.take earlier = pass.renamed.take earlier := by
    rcases h.renamed with hr | hr
    · rw [hr]
    · rw [hr, List.take_append_of_le_length he.le_length]
  have hdrop : ∀ j, j ∈ pass.renamed.drop earlier → j ∈ pass'.renamed.drop earlier := by
    intro j hj
    rcases h.renamed with hr | hr
    · rwa [hr]
    · rw [hr, List.drop_append_of_le_length he.le_length]
      exact List.mem_append_left _ hj
  refine ⟨?_, fun j heading' hj => ?_⟩
  · rcases h.renamed with hr | hr
    · exact hr ▸ he.le_length
    · rw [hr, List.length_append]
      exact he.le_length.trans (Nat.le_add_right _ _)
  · rw [h.headings] at hj
    rcases eq_or_ne i j with rfl | hij
    · rw [List.getElem?_modify_eq, hi] at hj
      obtain rfl : f heading = heading' := Option.some.inj hj
      exact hf
    · rw [List.getElem?_modify_ne _ _ hij] at hj
      obtain ⟨hc, hh, hr⟩ := he.entry j heading' hj
      exact ⟨hc, fun hn => by rw [h.named, htake]; exact hh hn,
        fun hn => ⟨hdrop j (hr hn).1, by rw [h.committed]; exact (hr hn).2⟩⟩

lemma nameOf (h : Gives pass pass' i f) (hi : pass.headings[i]? = some heading)
    (hauth : (f heading).authored = false)
    (hn : (f heading).given (pass.committed i) = some n) :
    pass'.nameOf = Function.update pass.nameOf i (some n) := by
  funext j
  rcases eq_or_ne j i with rfl | hij
  · simp [NamePass.nameOf, h.headings, hi, hauth, h.committed, hn]
  · simp [NamePass.nameOf, h.headings, h.committed, Function.update_of_ne hij, hij.symm]

end Gives

/-! ### Node and entry -/

end NamePass

namespace Heading

section Show

variable (heading : Heading) (n : Name)

@[simp] lemma start_showApart : (heading.showApart n).start = heading.start := by
  unfold showApart; split_ifs <;> rfl

@[simp] lemma base_showApart : (heading.showApart n).base = heading.base := by
  unfold showApart; split_ifs <;> rfl

@[simp] lemma parsed_showApart : (heading.showApart n).parsed = heading.parsed := by
  unfold showApart; split_ifs <;> rfl

@[simp] lemma authored_showApart : (heading.showApart n).authored = heading.authored := by
  unfold showApart; split_ifs <;> rfl

@[simp] lemma name_showApart : (heading.showApart n).name = heading.name := by
  unfold showApart; split_ifs <;> rfl

@[simp] lemma baseSize_showApart : (heading.showApart n).baseSize = heading.baseSize := by
  unfold showApart; split_ifs <;> rfl

@[simp] lemma renamed_showApart : (heading.showApart n).renamed = heading.renamed := by
  unfold showApart; split_ifs <;> rfl

@[simp] lemma start_showName : (heading.showName n).start = heading.start := by
  unfold showName; split_ifs <;> rfl

@[simp] lemma base_showName : (heading.showName n).base = heading.base := by
  unfold showName; split_ifs <;> rfl

@[simp] lemma parsed_showName : (heading.showName n).parsed = heading.parsed := by
  unfold showName; split_ifs <;> rfl

@[simp] lemma authored_showName : (heading.showName n).authored = heading.authored := by
  unfold showName; split_ifs <;> rfl

@[simp] lemma holdsName_showName : (heading.showName n).holdsName = heading.holdsName := by
  unfold showName; split_ifs <;> rfl

@[simp] lemma renamed_showName : (heading.showName n).renamed = heading.renamed := by
  unfold showName; split_ifs <;> rfl

end Show

variable {heading : Heading} {n : Name} {k : ℕ}

namespace Coherent

lemma anchor_showApart (h : heading.Coherent) : (heading.showApart n).anchor = some n := by
  unfold showApart
  split_ifs with hholds hn
  · rfl
  · rw [h.agree (by simpa using hholds) (by simp [hn]), hn]
  · rfl

lemma anchor_showName (h : heading.Coherent) (hholds : heading.holdsName = false) :
    (heading.showName n).anchor = some n := by
  unfold showName
  split_ifs with hn
  · rw [h.agree hholds (by simp [hn]), hn]
  · rfl

/-- A heading shown a name apart holds its own unless they are one. -/
lemma name_eq_of_showApart (h : heading.Coherent) (hname : heading.name.isSome)
    (hholds : (heading.showApart n).holdsName = false) : heading.name = some n := by
  unfold showApart at hholds
  split_ifs at hholds with hh hn
  · simp [hh] at hholds
  · exact hn
  · rw [h.agree (by simpa using hh) hname] at hholds
    simp [hname] at hholds

lemma of_unnamed (hname : heading.name = none) (hholds : heading.holdsName = false)
    (hrenamed : heading.renamed = false) : heading.Coherent where
  named := by simp [hname]
  agree := by simp [hname]
  apart := by simp [hholds]
  authored := fun _ => hname
  renamed := by simp [hrenamed]

lemma baseSize_eq (h : heading.Coherent) (hname : heading.name.isSome) :
    heading.baseSize = heading.base.length := by
  obtain ⟨m, hm⟩ := Option.isSome_iff_exists.mp hname
  exact (h.named m hm).1

lemma namedFrom (h : heading.Coherent) : heading.namedFrom = heading.base := by
  unfold Heading.namedFrom
  split
  · next name hname =>
    obtain ⟨hsize, k, rfl⟩ := h.named name hname
    rw [hsize, take_anchorName]
  · rfl

lemma authored_eq_false (h : heading.Coherent) (hname : heading.name.isSome) :
    heading.authored = false := by
  by_contra hauth
  simp [h.authored (by simpa using hauth)] at hname

/-- An entry and its node name the heading alike. -/
lemma of_agree (hauth : heading.authored = false) (hholds : heading.holdsName = false)
    (hname : heading.name = some n) (hanchor : heading.anchor = some n)
    (hsize : heading.baseSize = heading.base.length) (hn : n = anchorName heading.base k) :
    heading.Coherent where
  named := fun m hm => ⟨hsize, k, (Option.some.inj (hname.symm.trans hm)).symm.trans hn⟩
  agree := fun _ _ => hanchor.trans hname.symm
  apart := fun h => absurd (hholds.symm.trans h) (by simp)
  authored := fun h => absurd (hauth.symm.trans h) (by simp)
  renamed := fun _ => by simp [hname]

/-- A heading keeps its entry while its node shows a name apart. -/
lemma showApart (h : heading.Coherent) (hname : heading.name.isSome) (renamed : Bool) :
    Coherent { heading.showApart (anchorName heading.base k) with renamed } where
  named := fun m hm => by simpa using h.named m (by simpa using hm)
  agree := fun hholds _ =>
    (h.anchor_showApart).trans (by simpa using (h.name_eq_of_showApart hname hholds).symm)
  apart := fun _ => ⟨by simpa using hname, k, by simpa using h.anchor_showApart⟩
  authored := fun hauth => by simpa using h.authored (by simpa using hauth)
  renamed := fun _ => by simpa using hname

end Coherent

end Heading

namespace NamePass

/-! ### The names given -/

lemma gives_handName (pass : NamePass) (i baseSize : ℕ) (n : Name) :
    Gives pass (pass.handName i baseSize n) i
      fun heading => (heading.showName n).keepName n baseSize :=
  ⟨rfl, rfl, rfl, rfl, rfl, Or.inl rfl⟩

/-- A heading whose node and entry agree, and that is not a committed one beneath an overlay, takes
the name in both. -/
lemma handName_spec {pass : NamePass} {earlier i : ℕ} {heading : Heading} {k : ℕ}
    (he : pass.Entries earlier) (hi : pass.headings[i]? = some heading)
    (hauth : heading.authored = false) (hholds : heading.holdsName = false)
    (hcommitted : pass.committed i = false) :
    let pass' := pass.handName i heading.base.length (anchorName heading.base k)
    pass'.Entries earlier ∧ pass.Keeps pass' (i + 1) ∧ pass'.view = pass.view ∧
      pass'.index = pass.index ∧
      pass'.nameOf = Function.update pass.nameOf i (some (anchorName heading.base k)) := by
  intro pass'
  have hentry := he.entry i heading hi
  have hren : heading.renamed = false := by
    by_contra h
    simp [(hentry.renamed (by simpa using h)).2] at hcommitted
  have hg := gives_handName pass i heading.base.length (anchorName heading.base k)
  have hcoh : ((heading.showName (anchorName heading.base k)).keepName
      (anchorName heading.base k) heading.base.length).Coherent :=
    .of_agree (k := k) (by simpa [Heading.keepName] using hauth)
      (by simpa [Heading.keepName] using hholds) rfl (hentry.coherent.anchor_showName hholds)
      (by simp [Heading.keepName]) (by simp [Heading.keepName])
  refine ⟨hg.entries he hi ⟨hcoh, fun h => ?_, fun h => ?_⟩,
    hg.keeps hi ⟨by simp [Heading.keepName], by simp [Heading.keepName],
      by simp [Heading.keepName], by simp [Heading.keepName], fun h => ?_⟩, hg.view, rfl,
    hg.nameOf hi (by simpa [Heading.keepName] using hauth) ?_⟩
  · exact absurd (h : (heading.showName _).holdsName = true) (by simp [Heading.keepName, hholds])
  · exact absurd (h : (heading.showName _).renamed = true) (by simp [Heading.keepName, hren])
  · simp [hcommitted] at h
  · simp [Heading.given, Heading.keepName, hcommitted]

/-- Where node and entry part, the entry of a committed heading beneath an overlay keeps its name
and the heading is listed; any other takes the name the node shows. -/
lemma gives_giveNameApart {pass : NamePass} {i : ℕ} {heading : Heading} (baseSize : ℕ) (n : Name)
    (hi : pass.headings[i]? = some heading) :
    Gives pass (pass.giveNameApart i baseSize n) i fun heading =>
      if pass.committed i then { heading.showApart n with renamed := true }
      else { (heading.showApart n).keepName n baseSize with holdsName := false } := by
  unfold giveNameApart
  have hmod : (pass.modify i (·.showApart n)).headings[i]? = some (heading.showApart n) := by
    simp [modify, hi]
  have hc : (pass.modify i (·.showApart n)).committed i = pass.committed i := rfl
  simp only [hc]
  split_ifs with hcommitted
  · unfold renameCommitted
    simp only [hmod]
    split_ifs with hren
    · refine ⟨rfl, rfl, rfl, rfl, List.ext_getElem? fun j => ?_, Or.inl rfl⟩
      rcases eq_or_ne i j with rfl | hij
      · have hsame : { heading.showApart n with renamed := true } = heading.showApart n := by
          rw [← hren]
        rw [hmod, List.getElem?_modify_eq, hi, Option.map_eq_map, Option.map_some, hsame]
      · simp [modify, List.getElem?_modify_ne _ _ hij]
    · exact ⟨rfl, rfl, rfl, rfl, List.modify_modify_eq _ _ _ _, Or.inr rfl⟩
  · exact ⟨rfl, rfl, rfl, rfl, List.modify_modify_eq _ _ _ _, Or.inl rfl⟩

lemma mem_renamed_giveNameApart {pass : NamePass} {earlier i : ℕ} {heading : Heading}
    (baseSize : ℕ) (n : Name) (he : pass.Entries earlier) (hi : pass.headings[i]? = some heading)
    (hcommitted : pass.committed i = true) :
    i ∈ (pass.giveNameApart i baseSize n).renamed.drop earlier := by
  have hmod : (pass.modify i (·.showApart n)).headings[i]? = some (heading.showApart n) := by
    simp [modify, hi]
  have hc : (pass.modify i (·.showApart n)).committed i = true := hcommitted
  unfold giveNameApart renameCommitted
  simp only [hc, if_true, hmod, Heading.renamed_showApart]
  split_ifs with h
  · exact ((he.entry i heading hi).renamed h).1
  · have hle : earlier ≤ (pass.modify i (·.showApart n)).renamed.length := he.le_length
    rw [List.drop_append_of_le_length hle]
    exact List.mem_append_right _ (List.mem_singleton_self i)

lemma giveNameApart_spec {pass : NamePass} {earlier i : ℕ} {heading : Heading} {k : ℕ}
    (he : pass.Entries earlier) (hi : pass.headings[i]? = some heading)
    (hname : heading.name.isSome) :
    let pass' := pass.giveNameApart i heading.base.length (anchorName heading.base k)
    pass'.Entries earlier ∧ pass.Keeps pass' (i + 1) ∧ pass'.view = pass.view ∧
      pass'.index = pass.index ∧
      pass'.nameOf = Function.update pass.nameOf i (some (anchorName heading.base k)) := by
  intro pass'
  have hentry := he.entry i heading hi
  have hcoh := hentry.coherent
  have hauth := hcoh.authored_eq_false hname
  have hg := gives_giveNameApart heading.base.length (anchorName heading.base k) hi
  rcases hcommitted : pass.committed i with _ | _
  · -- the node shows another name than the entry: both take this one
    simp only [hcommitted, Bool.false_eq_true, if_false] at hg
    have hren : heading.renamed = false := by
      by_contra h
      simp [(hentry.renamed (by simpa using h)).2] at hcommitted
    have hcoh' : Heading.Coherent { (heading.showApart (anchorName heading.base k)).keepName
        (anchorName heading.base k) heading.base.length with holdsName := false } :=
      .of_agree (k := k) (by simpa [Heading.keepName] using hauth) rfl rfl hcoh.anchor_showApart
        (by simp [Heading.keepName]) (by simp [Heading.keepName])
    refine ⟨hg.entries he hi ⟨hcoh', fun h => ?_, fun h => ?_⟩,
      hg.keeps hi ⟨by simp [Heading.keepName], by simp [Heading.keepName],
        by simp [Heading.keepName], by simp [Heading.keepName], fun h => ?_⟩, hg.view, hg.index,
      hg.nameOf hi (by simpa [Heading.keepName] using hauth) ?_⟩
    · exact absurd (h : false = true) (by simp)
    · exact absurd (h : (heading.showApart _).renamed = true) (by simp [Heading.keepName, hren])
    · simp [hcommitted] at h
    · simp [Heading.given, Heading.keepName, hcommitted]
  · -- an overlay names a committed heading: its entry keeps its name
    simp only [hcommitted, if_true] at hg
    have hlt := (committed_iff.mp hcommitted).2
    have hmem := mem_renamed_giveNameApart heading.base.length (anchorName heading.base k) he hi
      hcommitted
    refine ⟨hg.entries he hi ⟨hcoh.showApart hname true, fun _ => ⟨?_, Or.inr rfl⟩,
        fun _ => ⟨hmem, ?_⟩⟩,
      hg.keeps hi ⟨by simp, by simp, by simp, by simp, fun _ => by simp⟩, hg.view, hg.index,
      hg.nameOf hi (by simpa using hauth) ?_⟩
    · rw [hg.named]
      exact hlt
    · rw [hg.committed, hcommitted]
    · simpa [Heading.given, hcommitted] using hcoh.anchor_showApart

end NamePass

end MarkdownCore
