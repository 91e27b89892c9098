import Mathlib.Data.List.TakeWhile
import MarkdownCore.Heading.Records

/-!
# The anchors of a parse

What the finish of a parse and a snapshot of one make of the headings' names. Both show the names a
greedy pass gives; a snapshot leaves the committed names as the commits moved them on.
-/

namespace MarkdownCore

open Naming NamePass

/-! ### Entries changed one by one -/

/-- Changing each entry of a list of places changes each once, when a change made twice is made
once. -/
lemma getElem?_foldl_modify {α : Type*} {f : α → α} (hf : ∀ a, f (f a) = f a) (places : List ℕ)
    (entries : List α) (i : ℕ) :
    (places.foldl (fun entries j => entries.modify j f) entries)[i]? =
      entries[i]?.map (if i ∈ places then f else id) := by
  induction places generalizing entries with
  | nil => simp
  | cons j places ih =>
    rw [List.foldl_cons, ih]
    rcases eq_or_ne j i with rfl | hji
    · rw [List.getElem?_modify_eq]
      by_cases hmem : j ∈ places
      · simp [hmem, Function.comp_def, hf]
      · simp [hmem]
    · rw [List.getElem?_modify_ne _ _ hji]
      simp [hji.symm]

lemma length_foldl_modify {α : Type*} (f : α → α) (places : List ℕ) (entries : List α) :
    (places.foldl (fun entries j => entries.modify j f) entries).length = entries.length := by
  induction places generalizing entries with
  | nil => rfl
  | cons j places ih => rw [List.foldl_cons, ih, List.length_modify]

/-! ### The committed names -/

namespace NamePass

variable {pass pass' : NamePass} {R : Name → Prop} {last earlier : ℕ}

/-- The invariant is one of the first headings' names and of what the index finds. -/
lemma NamedTo.of_agree {earlier' : ℕ} (h : pass.NamedTo R last earlier)
    (hlen : last ≤ pass'.headings.length) (hentries : pass'.Entries earlier')
    (hview : pass'.view = pass.view) (hname : ∀ i < last, pass'.nameOf i = pass.nameOf i)
    (hbase : ∀ i < last, pass'.baseOf i = pass.baseOf i) : pass'.NamedTo R last earlier' := by
  have hnames : pass'.namesTo last = pass.namesTo last := by
    funext i
    unfold namesTo
    split_ifs with hi
    · exact hname i hi
    · rfl
  have hbases : pass'.basesTo last = pass.basesTo last := by
    funext i
    unfold basesTo
    split_ifs with hi
    · exact hbase i hi
    · rfl
  exact ⟨hlen, hentries, by rw [hview, hnames]; exact h.represents,
    by rw [hbases, hnames]; exact h.greedy⟩

end NamePass

namespace HeadingState

/-- The pass over the committed names, before it reads anything. -/
def committedPass (state : HeadingState) : NamePass :=
  { headings := state.headings, renamed := state.renamed, named := state.named,
    index := state.taken, beneath := none, fresh := false }

/-- The names are those of a greedy pass over the committed headings, past the labels of the records
read. -/
structure Ok (state : HeadingState) (roster : Roster) (fresh : Bool) : Prop where
  recordsAt_le : state.recordsAt ≤ roster.records.length
  recordsRead : state.recordsRead = (roster.anchorsBetween 0 state.recordsAt).length
  named : state.committedPass.NamedTo (readBetween roster fresh 0 state.recordsAt) state.named
    state.renamed.length

lemma readBetween_append (roster : Roster) (fresh : Bool) {first middle last : ℕ}
    (h : first ≤ middle) (h' : middle ≤ last) (n : Name) :
    readBetween roster fresh first last n ↔
      readBetween roster fresh first middle n ∨ readBetween roster fresh middle last n := by
  simp only [readBetween, roster.anchorsBetween_append h h', List.mem_append, or_and_right,
    exists_or]

/-- An entry between snapshots, none of which renames a heading then. -/
structure Steady (state : HeadingState) (i : ℕ) (heading : Heading) : Prop where
  coherent : heading.Coherent
  holds : heading.holdsName = true → i < state.named ∧ i ∈ state.renamed
  renamed : heading.renamed = false

lemma entries_of_steady (state : HeadingState) {pass : NamePass}
    (h : ∀ i heading, pass.headings[i]? = some heading → state.Steady i heading)
    (hrenamed : pass.renamed = state.renamed) (hnamed : state.named ≤ pass.named) :
    pass.Entries state.renamed.length := by
  refine ⟨hrenamed ▸ le_rfl, fun i heading hi => ⟨(h i heading hi).coherent, fun hh => ?_, ?_⟩⟩
  · obtain ⟨hlt, hmem⟩ := (h i heading hi).holds hh
    rw [hrenamed, List.take_length]
    exact ⟨hlt.trans_le hnamed, Or.inl hmem⟩
  · intro hr
    simp [(h i heading hi).renamed] at hr

lemma steady_of_entries (state : HeadingState) {pass : NamePass}
    (h : pass.Entries state.renamed.length) (hbeneath : pass.beneath = none)
    (hrenamed : ∃ list, pass.renamed = state.renamed ++ list) (hnamed : pass.named ≤ state.named)
    {i : ℕ} {heading : Heading} (hi : pass.headings[i]? = some heading) : state.Steady i heading := by
  obtain ⟨hcoherent, hholds, hflag⟩ := h.entry i heading hi
  have hr : heading.renamed = false := by
    by_contra hr
    have := (hflag (by simpa using hr)).2
    simp [committed, hbeneath] at this
  refine ⟨hcoherent, fun hh => ?_, hr⟩
  obtain ⟨hlt, hmem | hren⟩ := hholds hh
  · obtain ⟨list, hlist⟩ := hrenamed
    rw [hlist, List.take_left] at hmem
    exact ⟨hlt.trans_le hnamed, hmem⟩
  · simp [hr] at hren

variable {state : HeadingState} {roster : Roster} {fresh : Bool}

lemma Ok.steady (h : state.Ok roster fresh) {i : ℕ} {heading : Heading}
    (hi : state.headings[i]? = some heading) : state.Steady i heading :=
  steady_of_entries state h.named.entries rfl ⟨[], (List.append_nil _).symm⟩ le_rfl hi

/-- The commit's records reserved and its headings named: the committed names are as greedy as they
were, further on. -/
theorem Ok.nameCommitted (h : state.Ok roster fresh) {records committed : ℕ}
    (hrecords : state.recordsAt ≤ records) (hrecords' : records ≤ roster.records.length)
    (hnamed : state.named ≤ committed) (hcommitted : committed ≤ state.headings.length)
    (hdeclares : fresh = false → ∀ record ∈ roster.records, record.withdraws = false) :
    ∃ state' : HeadingState, state.nameCommitted roster fresh records committed =
        (state', { position := records, left := roster.anchorsFrom records }) ∧
      state'.Ok roster fresh ∧ state'.recordsAt = records ∧ state'.named = committed ∧
      state'.renamed = state.renamed ∧ state'.count = state.count ∧
      state'.parsed = state.parsed ∧ state'.headings.length = state.headings.length ∧
      (∀ (i : ℕ) (heading : Heading), state.headings[i]? = some heading →
        ∃ heading' : Heading, state'.headings[i]? = some heading' ∧ heading.Same False heading') ∧
      ∀ i : ℕ, committed ≤ i → state'.headings[i]? = state.headings[i]? := by
  set pass : NamePass := { state.committedPass with fresh } with hpass
  have hpassnamed : pass.NamedTo (readBetween roster fresh 0 state.recordsAt) state.named
      state.renamed.length :=
    h.named.of_agree h.named.le_length (entries_of_steady _ (fun _ _ => h.steady) rfl le_rfl) rfl
      (fun _ _ => rfl) (fun _ _ => rfl)
  set cursor : Cursor :=
    { position := state.recordsAt,
      left := roster.records.countP (·.kind = .anchor) - state.recordsRead } with hcursor
  have htotal : roster.records.countP (·.kind = .anchor) = roster.anchorsFrom 0 := rfl
  have hsplit := roster.anchorsFrom_eq (Nat.zero_le state.recordsAt)
  have hleft : cursor.left = roster.anchorsFrom cursor.position := by
    simp only [hcursor, htotal, h.recordsRead]
    omega
  obtain ⟨hread, hkeeps, hend⟩ := hpassnamed.readRecords records hleft
    fun record hr hf => hdeclares hf record (roster.mem_of_mem_anchorsBetween hr)
  rw [show max cursor.position records = records from max_eq_right hrecords] at hend
  obtain ⟨read, hreadeq⟩ : ∃ read, pass.readRecords roster records (cursor.left + 1) cursor =
      (read, { position := records, left := roster.anchorsFrom records }) := ⟨_, Prod.ext rfl hend⟩
  rw [hreadeq] at hread hkeeps
  obtain ⟨count, rfl⟩ := Nat.exists_eq_add_of_le hnamed
  obtain ⟨hname, hkeeps'⟩ := hread.nameHeadings count hkeeps.named.le
    (by rw [hkeeps.length]; exact hcommitted)
  have hall := (hkeeps.mono (Nat.le_add_right _ count)).trans hkeeps'
  generalize hnamedpass : read.nameHeadings state.named (state.named + count) = named at *
  have heq : state.nameCommitted roster fresh records (state.named + count) =
      ({ state with
          headings := named.headings, taken := named.index, recordsAt := records,
          recordsRead := roster.records.countP (·.kind = .anchor) - roster.anchorsFrom records,
          named := state.named + count },
        { position := records, left := roster.anchorsFrom records }) := by
    simp only [hpass, hcursor, committedPass] at hreadeq
    simp only [HeadingState.nameCommitted, hreadeq, hnamedpass]
  refine ⟨_, heq, ⟨hrecords', ?_, ?_⟩, rfl, rfl, rfl, rfl, rfl, hall.length,
    fun i heading hi => ?_, hall.untouched⟩
  · have := roster.anchorsFrom_eq (Nat.zero_le records)
    simp only [htotal]
    omega
  · refine (hname.congr fun n => (readBetween_append roster fresh (Nat.zero_le _) hrecords n).symm
      ).of_agree hname.le_length (entries_of_steady
        { state with named := state.named + count } (fun i heading hi => ?_) rfl le_rfl)
        ?_ ?_ ?_
    · exact steady_of_entries { state with named := state.named + count } hname.entries
        hall.beneath hall.renamed (hall.named.le.trans (Nat.le_add_right _ count)) hi
    · funext n
      simp [view, committedPass, hall.beneath, hpass]
    · intro i _
      simp [nameOf, committedPass, committed, hall.beneath, hpass]
    · intro i _
      rfl
  · obtain ⟨heading', hi', hs⟩ := hall.same i heading hi
    exact ⟨heading', hi', hs.mono False.elim⟩

/-! ### A snapshot's names -/

end HeadingState

namespace Heading

/-- The heading as a snapshot leaves it, listed among those the last one renamed or not, and among
those this one did or not. -/
def settle (heading : Heading) (earlier renamed : Bool) : Heading :=
  let heading := if earlier then heading.restoreUnrenamed else heading
  if renamed then heading.clearRenamed else heading

lemma restoreUnrenamed_idem (heading : Heading) :
    heading.restoreUnrenamed.restoreUnrenamed = heading.restoreUnrenamed := by
  unfold restoreUnrenamed
  split_ifs with h h' <;> simp_all [restoreName]

lemma clearRenamed_of_eq_false {heading : Heading} (h : heading.renamed = false) :
    heading.clearRenamed = heading := by
  cases heading
  simp_all [clearRenamed]

/-- Once settled, a heading shows what the snapshot named it, and its entry is as the commits left
it. -/
lemma settle_spec {heading : Heading} {earlier renamed committed : Bool}
    (hcoherent : heading.Coherent)
    (hholds : heading.holdsName = true → earlier = true ∨ heading.renamed = true)
    (hrenamed : heading.renamed = true → renamed = true ∧ committed = true) :
    (heading.settle earlier renamed).Coherent ∧
      (heading.settle earlier renamed).renamed = false ∧
      ((heading.settle earlier renamed).holdsName = true →
        heading.holdsName = true ∧ renamed = true) ∧
      heading.Same True (heading.settle earlier renamed) ∧
      ((heading.given committed).isSome →
        (heading.settle earlier renamed).anchor = heading.given committed) := by
  rcases hr : heading.renamed with _ | _
  · -- not renamed: a name held is the node's again
    rcases hh : heading.holdsName with _ | _
    · have heq : heading.settle earlier renamed = heading := by
        cases earlier <;> cases renamed <;>
          simp [settle, restoreUnrenamed, hh, clearRenamed_of_eq_false hr]
      rw [heq]
      refine ⟨hcoherent, hr, fun h => by simp [hh] at h, .refl _ _, fun hs => ?_⟩
      simp only [given, hr, Bool.and_false, Bool.false_eq_true, if_false] at hs ⊢
      exact hcoherent.agree hh hs
    · have he : earlier = true := by simpa [hr] using hholds hh
      have heq : heading.settle earlier renamed = heading.restoreName := by
        cases renamed <;>
          simp [settle, restoreUnrenamed, clearRenamed, restoreName, he, hh, hr]
      rw [heq]
      obtain ⟨m, hm⟩ := Option.isSome_iff_exists.mp (hcoherent.apart hh).1
      obtain ⟨hsize, k, hk⟩ := hcoherent.named m hm
      refine ⟨.of_agree (n := m) (k := k) (hcoherent.authored_eq_false (by simp [hm])) rfl hm hm
        hsize hk, hr, fun h => by simp [restoreName] at h, ⟨rfl, rfl, rfl, rfl, fun _ => ⟨rfl, rfl⟩⟩,
        fun _ => ?_⟩
      simp [given, hr, restoreName]
  · -- renamed: the node goes on showing the snapshot's name
    obtain ⟨hl, hc⟩ := hrenamed hr
    have heq : heading.settle earlier renamed = heading.clearRenamed := by
      cases earlier <;> simp [settle, restoreUnrenamed, hl, hr]
    rw [heq]
    refine ⟨⟨hcoherent.named, hcoherent.agree, hcoherent.apart, hcoherent.authored,
      fun h => by simp [clearRenamed] at h⟩, rfl, fun hh => ⟨hh, hl⟩, ⟨rfl, rfl, rfl, rfl,
      fun _ => ⟨rfl, rfl⟩⟩, fun _ => ?_⟩
    simp [given, clearRenamed, hc, hr]

end Heading

namespace HeadingState

variable {state : HeadingState} {roster : Roster} {fresh : Bool}

lemma at?_shown (state : HeadingState) (i : ℕ) :
    at? state.shown i = (state.headings.take state.count)[i]?.bind fun heading =>
      if heading.authored then none else heading.anchor := by
  rw [at?, shown, List.getElem?_map]
  cases (state.headings.take state.count)[i]? <;> rfl

lemma at?_bases (state : HeadingState) (i : ℕ) :
    at? state.bases i = (state.headings.take state.count)[i]?.bind fun heading =>
      if heading.authored then none else some heading.base := by
  rw [at?, bases, List.getElem?_map]
  cases (state.headings.take state.count)[i]? <;> rfl

/-- Headings that are as they were but for their names ask for what they asked for. -/
lemma bases_of_same {state state' : HeadingState} (hcount : state'.count = state.count)
    (hlen : state'.headings.length = state.headings.length) {committed : ℕ → Prop}
    (hsame : ∀ (i : ℕ) (heading : Heading), state.headings[i]? = some heading →
      ∃ heading' : Heading, state'.headings[i]? = some heading' ∧
        heading.Same (committed i) heading') : state'.bases = state.bases := by
  apply ext_at?
  · simp [bases, hlen, hcount]
  · funext i
    rw [at?_bases, at?_bases, List.getElem?_take, List.getElem?_take, hcount]
    split_ifs
    · rcases hi : state.headings[i]? with _ | heading
      · have hnone : state'.headings[i]? = none := by
          rw [List.getElem?_eq_none_iff] at hi ⊢
          omega
        simp [hnone]
      · obtain ⟨heading', hi', hs⟩ := hsame i heading hi
        simp [hi', hs.authored, hs.base]
    · rfl

/-- The committed names are those of the entries, which stay. -/
lemma nameOf_of_same {state state' : HeadingState}
    (hlen : state'.headings.length = state.headings.length)
    (hsame : ∀ (i : ℕ) (heading : Heading), state.headings[i]? = some heading →
      ∃ heading' : Heading, state'.headings[i]? = some heading' ∧
        heading.Same (i < state.named) heading') (i : ℕ) (hi : i < state.named) :
    state'.committedPass.nameOf i = state.committedPass.nameOf i ∧
      state'.committedPass.baseOf i = state.committedPass.baseOf i := by
  rcases hheading : state.headings[i]? with _ | heading
  · have hnone : state'.headings[i]? = none := by
      rw [List.getElem?_eq_none_iff] at hheading ⊢
      omega
    simp [nameOf, baseOf, committedPass, hheading, hnone]
  · obtain ⟨heading', hi', hs⟩ := hsame i heading hheading
    simp [nameOf, baseOf, committedPass, hheading, hi', hs.authored, hs.base, (hs.kept hi).1,
      Heading.given, committed]

/-- The tail named in the overlay: the names are those of one greedy pass over every record and
every heading. -/
lemma Ok.nameTail (h : state.Ok roster false) (hlen : state.headings.length = state.count)
    (hnamed : state.named ≤ state.count)
    (hdeclares : ∀ record ∈ roster.records, record.withdraws = false) :
    let pass := state.nameTail roster
      { position := state.recordsAt, left := roster.anchorsFrom state.recordsAt }
    pass.NamedTo (readBetween roster false 0 roster.records.length) state.count
      state.renamed.length ∧ state.overlayPass.Keeps pass state.count := by
  have hsteady : state.overlayPass.Entries state.renamed.length :=
    entries_of_steady _ (fun _ _ => h.steady) rfl le_rfl
  have hpass : state.overlayPass.NamedTo (readBetween roster false 0 state.recordsAt) state.named
      state.renamed.length := by
    refine h.named.of_agree h.named.le_length hsteady ?_ (fun i hi => ?_) fun _ _ => rfl
    · funext n
      simp [view, committedPass, overlayPass]
    · rcases hheading : state.headings[i]? with _ | heading
      · simp [nameOf, committedPass, overlayPass, hheading]
      · simp [nameOf, committedPass, overlayPass, hheading, Heading.given,
          (h.steady hheading).renamed]
  obtain ⟨hread, hkeeps, -⟩ := hpass.readRecords roster.records.length
    (show ({ position := state.recordsAt, left := roster.anchorsFrom state.recordsAt } : Cursor
      ).left = roster.anchorsFrom state.recordsAt from rfl)
    fun record hr _ => hdeclares record (roster.mem_of_mem_anchorsBetween hr)
  obtain ⟨count, hcount⟩ := Nat.exists_eq_add_of_le hnamed
  obtain ⟨hname, hkeeps'⟩ := hread.nameHeadings count hkeeps.named.le
    (by rw [hkeeps.length, ← hcount, ← hlen]; exact le_rfl)
  rw [← hcount] at hname hkeeps'
  exact ⟨hname.congr fun n =>
    (readBetween_append roster false (Nat.zero_le _) h.recordsAt_le n).symm,
    (hkeeps.mono hnamed).trans hkeeps'⟩

/-- A snapshot leaves each heading as the overlay's pass did, settled. -/
lemma getElem?_nameSnapshot (state : HeadingState) (roster : Roster) (cursor : Cursor) (i : ℕ) :
    (state.nameSnapshot roster cursor).headings[i]? =
      (state.nameTail roster cursor).headings[i]?.map fun heading =>
        heading.settle (i ∈ state.renamed)
          (i ∈ (state.nameTail roster cursor).renamed.drop state.renamed.length) := by
  unfold nameSnapshot
  rw [getElem?_foldl_modify (f := Heading.clearRenamed) (fun _ => rfl),
    getElem?_foldl_modify Heading.restoreUnrenamed_idem, Option.map_map]
  congr 1
  funext heading
  by_cases h1 : i ∈ state.renamed <;>
    by_cases h2 : i ∈ (state.nameTail roster cursor).renamed.drop state.renamed.length <;>
    simp [Heading.settle, h1, h2]

/-- The tail of a snapshot named over the committed names: the document shows what one greedy pass
over the records and the headings there are gives, and the committed names stay. -/
theorem Ok.nameSnapshot (h : state.Ok roster false) (hlen : state.headings.length = state.count)
    (hnamed : state.named ≤ state.count)
    (hdeclares : ∀ record ∈ roster.records, record.withdraws = false) :
    let state' := state.nameSnapshot roster
      { position := state.recordsAt, left := roster.anchorsFrom state.recordsAt }
    state'.Ok roster false ∧ state'.headings.length = state.headings.length ∧
      (∀ (i : ℕ) (heading : Heading), state.headings[i]? = some heading →
        ∃ heading' : Heading, state'.headings[i]? = some heading' ∧
          heading.Same (i < state.named) heading') ∧
      IsGreedy anchors (readBetween roster false 0 roster.records.length) (at? state'.bases)
        (at? state'.shown) := by
  intro state'
  obtain ⟨hname, hall⟩ := h.nameTail hlen hnamed hdeclares
  have hget := getElem?_nameSnapshot state roster
    { position := state.recordsAt, left := roster.anchorsFrom state.recordsAt }
  generalize htail : state.nameTail roster
    { position := state.recordsAt, left := roster.anchorsFrom state.recordsAt } = tail
    at hname hall hget
  have hlength : state'.headings.length = state.headings.length := by
    simp only [state', HeadingState.nameSnapshot, length_foldl_modify, htail]
    exact hall.length
  have hrenamed : state'.renamed = tail.renamed.drop state.renamed.length := by
    simp only [state', HeadingState.nameSnapshot, htail]
  have hcommitted : ∀ i : ℕ, tail.committed i = decide (i < state.named) := fun i => by
    simp [committed, hall.beneath, hall.named, overlayPass]
  rw [← hrenamed] at hget
  have hsettle := fun (i : ℕ) (heading : Heading) (hi : tail.headings[i]? = some heading) =>
    @Heading.settle_spec heading (i ∈ state.renamed) (i ∈ state'.renamed) (tail.committed i)
      (hname.entries.entry i heading hi).coherent
      (fun hh => by
        obtain ⟨l, hl⟩ := hall.renamed
        have := ((hname.entries.entry i heading hi).holds hh).2
        rw [hl, show state.overlayPass.renamed = state.renamed from rfl, List.take_left] at this
        simpa using this)
      (fun hr => by
        rw [hrenamed]
        simpa using (hname.entries.entry i heading hi).renamed hr)
  have hsame : ∀ (i : ℕ) (heading : Heading), state.headings[i]? = some heading →
      ∃ heading' : Heading, state'.headings[i]? = some heading' ∧
        heading.Same (i < state.named) heading' := by
    intro i heading hi
    obtain ⟨heading', hi', hs⟩ := hall.same i heading hi
    obtain ⟨-, -, -, ht, -⟩ := hsettle i heading' hi'
    refine ⟨_, by rw [hget, hi']; rfl, ?_⟩
    exact (hs.mono fun hlt => committed_iff.mpr ⟨rfl, hlt⟩).trans ⟨ht.start, ht.base, ht.parsed, ht.authored, fun _ => ht.kept trivial⟩
  have hsteady : ∀ (i : ℕ) (heading : Heading), state'.headings[i]? = some heading →
      state'.Steady i heading := by
    intro i heading hi
    rw [hget] at hi
    obtain ⟨heading', hi', rfl⟩ := Option.map_eq_some_iff.mp hi
    obtain ⟨hc, hr, hh, -, -⟩ := hsettle i heading' hi'
    refine ⟨hc, fun h => ⟨?_, by simpa using (hh h).2⟩, hr⟩
    have hlt := ((hname.entries.entry i heading' hi').holds (hh h).1).1
    rwa [hall.named] at hlt
  have hagree := nameOf_of_same hlength hsame
  refine ⟨⟨h.recordsAt_le, h.recordsRead, h.named.of_agree ?_
    (entries_of_steady _ hsteady rfl le_rfl) rfl (fun i hi => (hagree i hi).1)
      fun i hi => (hagree i hi).2⟩, hlength, hsame, ?_⟩
  · exact hlength ▸ h.named.le_length
  · have hbases : at? state'.bases = tail.basesTo state.count := by
      funext i
      rw [at?_bases, basesTo, List.getElem?_take, show state'.count = state.count from rfl]
      split_ifs with hi
      · rw [hget, baseOf]
        rcases hi' : tail.headings[i]? with _ | heading
        · rfl
        · obtain ⟨-, -, -, hs, -⟩ := hsettle i heading hi'
          simp [hs.authored, hs.base]
      · rfl
    have hshown : at? state'.shown = tail.namesTo state.count := by
      funext i
      rw [at?_shown, namesTo, List.getElem?_take, show state'.count = state.count from rfl]
      split_ifs with hi
      · rw [hget, nameOf]
        rcases hi' : tail.headings[i]? with _ | heading
        · rfl
        · obtain ⟨-, -, -, hs, hanchor⟩ := hsettle i heading hi'
          simp only [Option.map_some, Option.bind_some, hs.authored]
          split_ifs with hauth
          · rfl
          · refine hanchor ?_
            obtain ⟨n, hn⟩ := hname.greedy.name_isSome (i := i) (b := heading.base)
              (by simp [basesTo, hi, baseOf, hi', hauth])
            simp only [namesTo, hi, if_true, nameOf, hi', Option.bind_some, hauth] at hn
            simp at hn
            simp [hn]
      · rfl
    rw [hbases, hshown]
    exact hname.greedy

/-! ### Headings that ask for no name -/

lemma Ok.skip (h : state.Ok roster fresh) (count : ℕ)
    (hauthored : ∀ i, state.named ≤ i → i < state.named + count →
      ∃ heading, state.headings[i]? = some heading ∧ heading.authored = true) :
    ({ state with named := state.named + count } : HeadingState).Ok roster fresh := by
  have hnamed : state.committedPass.NamedTo (readBetween roster fresh 0 state.recordsAt)
      (state.named + count) state.renamed.length := by
    induction count with
    | zero => exact h.named
    | succ count ih =>
      obtain ⟨heading, hi, hauth⟩ := hauthored (state.named + count) (by omega) (by omega)
      exact (ih fun i hi hlt => hauthored i hi (by omega)).skip hi hauth
  exact ⟨h.recordsAt_le, h.recordsRead, hnamed.of_agree hnamed.le_length
    (entries_of_steady _ (fun i heading hi => ⟨(h.steady hi).coherent,
      fun hh => ⟨((h.steady hi).holds hh).1.trans_le (Nat.le_add_right _ _),
        ((h.steady hi).holds hh).2⟩, (h.steady hi).renamed⟩) rfl le_rfl)
    rfl (fun _ _ => rfl) fun _ _ => rfl⟩

lemma authored_of_lt_authoredFrom {first last i : ℕ} (hfirst : first ≤ i)
    (hi : i < first + state.authoredFrom first last) :
    i < last ∧ ∃ heading, state.headings[i]? = some heading ∧ heading.authored = true := by
  obtain ⟨j, rfl⟩ := Nat.exists_eq_add_of_le hfirst
  have hj : j < (((state.headings.take last).drop first).takeWhile (·.authored)).length := by
    unfold authoredFrom at hi
    omega
  have hmem := List.mem_takeWhile_imp (List.getElem_mem hj)
  have hinit := List.takeWhile_prefix (l := (state.headings.take last).drop first) (·.authored)
  have hlt : j < ((state.headings.take last).drop first).length := hj.trans_le hinit.length_le
  rw [hinit.getElem hj, List.getElem_drop, List.getElem_take] at hmem
  rw [List.length_drop, List.length_take] at hlt
  exact ⟨by omega, _, List.getElem?_eq_getElem (by omega), hmem⟩

lemma authoredFrom_le (state : HeadingState) {first last : ℕ} (h : first ≤ last) :
    first + state.authoredFrom first last ≤ last := by
  have h1 : state.authoredFrom first last ≤ last - first := by
    refine (List.takeWhile_prefix _).length_le.trans ?_
    rw [List.length_drop, List.length_take]
    omega
  omega

/-- Headings that author their anchors count as named. -/
lemma Ok.skipAuthored (h : state.Ok roster fresh) (committed : ℕ) :
    (state.skipAuthored committed).Ok roster fresh := by
  unfold HeadingState.skipAuthored
  split_ifs
  · exact h.skip _ fun i hi hlt => (authored_of_lt_authoredFrom hi hlt).2
  · exact h

/-- A committed heading that asks for a name has one. -/
lemma Ok.name_isSome (h : state.Ok roster fresh) {i : ℕ} {heading : Heading}
    (hi : state.headings[i]? = some heading) (hlt : i < state.named)
    (hauth : heading.authored = false) : heading.name.isSome := by
  obtain ⟨n, hn⟩ := h.named.greedy.name_isSome (i := i) (b := heading.base)
    (by simp [basesTo, hlt, baseOf, committedPass, hi, hauth])
  simp [namesTo, hlt, nameOf, committedPass, hi, hauth, Heading.given, committed] at hn
  simp [hn]

lemma Ok.authored_of_asksNone (h : state.Ok roster fresh) (hnone : state.asksNone = true)
    (hlen : state.headings.length = state.count) {i : ℕ} {heading : Heading}
    (hi : state.headings[i]? = some heading) : heading.authored = true := by
  simp only [HeadingState.asksNone, Bool.and_eq_true, decide_eq_true_eq] at hnone
  obtain ⟨hempty, hall⟩ := hnone
  rcases lt_or_ge i state.named with hlt | hge
  · by_contra hauth
    obtain ⟨n, hn⟩ := h.named.greedy.name_isSome (i := i) (b := heading.base)
      (by simp [basesTo, hlt, baseOf, committedPass, hi, hauth])
    refine h.named.represents.ne_of_eq_none ?_ i hn
    simp only [view, committedPass, Option.bind_none, Option.or_none]
    rw [AList.lookup_eq_none, AList.mem_keys, hempty]
    exact List.not_mem_nil
  · have hlt := (List.getElem?_eq_some_iff.mp hi).1
    obtain ⟨-, heading', hi', hauth⟩ :=
      @authored_of_lt_authoredFrom state _ state.count i hge (by omega)
    rwa [← Option.some.inj (hi'.symm.trans hi)]

/-- Where none asks for a name, none has one. -/
lemma Ok.asksNone (h : state.Ok roster fresh) (hnone : state.asksNone = true)
    (hlen : state.headings.length = state.count) (R : Name → Prop) :
    IsGreedy anchors R (at? state.bases) (at? state.shown) := by
  have hauthored := fun (i : ℕ) (heading : Heading) (hi : state.headings[i]? = some heading) =>
    h.authored_of_asksNone hnone hlen hi
  have hbases : ∀ i, at? state.bases i = none := by
    intro i
    rw [at?_bases]
    rcases hi : (state.headings.take state.count)[i]? with _ | heading
    · rfl
    · rw [List.getElem?_take] at hi
      split_ifs at hi
      simp [hauthored i heading hi]
  have hshown : ∀ i, at? state.shown i = none := by
    intro i
    rw [at?_shown]
    rcases hi : (state.headings.take state.count)[i]? with _ | heading
    · rfl
    · rw [List.getElem?_take] at hi
      split_ifs at hi
      simp [hauthored i heading hi]
  exact fun i => ⟨fun n hn => by simp [hshown] at hn, fun b hb => by simp [hbases] at hb⟩

/-! ### The finalize -/

/-- The committed names let go: every entry agrees with its node and no name is taken. -/
lemma namesReset_ok (state : HeadingState) (roster : Roster) (fresh : Bool)
    (h : ∀ (i : ℕ) (heading : Heading), state.headings[i]? = some heading → state.Steady i heading) :
    state.namesReset.Ok roster fresh ∧
      ∀ (i : ℕ) (heading : Heading), state.headings[i]? = some heading →
        ∃ heading' : Heading, state.namesReset.headings[i]? = some heading' ∧
          heading.Same False heading' := by
  have hidem : ∀ heading : Heading, heading.letGoName.letGoName = heading.letGoName := by
    intro heading
    unfold Heading.letGoName
    split_ifs with h h' <;> simp_all
  have hget : ∀ i : ℕ, state.namesReset.headings[i]? =
      state.headings[i]?.map (if i ∈ state.renamed then Heading.letGoName else id) := fun i =>
    getElem?_foldl_modify hidem _ _ i
  have hsteady : ∀ (i : ℕ) (heading : Heading), state.namesReset.headings[i]? = some heading →
      state.namesReset.Steady i heading := by
    intro i heading hi
    rw [hget] at hi
    obtain ⟨heading', hi', rfl⟩ := Option.map_eq_some_iff.mp hi
    obtain ⟨hc, hh, hr⟩ := h i heading' hi'
    rcases hholds : heading'.holdsName with _ | _
    · have heq : (if i ∈ state.renamed then Heading.letGoName else id) heading' = heading' := by
        split_ifs <;> simp [Heading.letGoName, hholds]
      rw [heq]
      exact ⟨hc, fun hh => by simp [hholds] at hh, hr⟩
    · obtain ⟨hs, k, hk⟩ := hc.apart hholds
      simp only [(hh hholds).2, if_true, Heading.letGoName, hholds]
      exact ⟨.of_agree (n := anchorName heading'.base k) (k := k) (hc.authored_eq_false hs) rfl hk hk
        (hc.baseSize_eq hs) rfl, fun hh => by simp at hh, hr⟩
  refine ⟨⟨Nat.zero_le _, ?_, Nat.zero_le _, entries_of_steady _ hsteady rfl le_rfl, ?_, ?_⟩,
    fun i heading hi => ?_⟩
  · simp [namesReset, Roster.anchorsBetween]
  · refine ⟨fun n => ?_, fun i n => ?_, fun n slot hn => ?_⟩
    · simp [readBetween, namesReset, Roster.anchorsBetween, view, committedPass]
    · simp [namesTo, namesReset, view, committedPass]
    · simp [namesReset, view, committedPass] at hn
  · exact fun i => ⟨fun n hn => by simp [namesTo, namesReset] at hn,
      fun b hb => by simp [basesTo, namesReset] at hb⟩
  · refine ⟨_, by rw [hget, hi]; rfl, ?_⟩
    split_ifs
    · unfold Heading.letGoName
      split_ifs
      · exact ⟨rfl, rfl, rfl, rfl, False.elim⟩
      · exact .refl _ _
    · exact .refl _ _

/-- With every heading named and none apart from its node, the document shows the names. -/
lemma Ok.shown (h : state.Ok roster fresh) (hnamed : state.named = state.count) (hrenamed : state.renamed = []) :
    IsGreedy anchors (readBetween roster fresh 0 state.recordsAt) (at? state.bases)
      (at? state.shown) := by
  have hbases : at? state.bases = state.committedPass.basesTo state.named := by
    funext i
    rw [at?_bases, basesTo, List.getElem?_take, hnamed]
    split_ifs <;> rfl
  have hshown : at? state.shown = state.committedPass.namesTo state.named := by
    funext i
    rw [at?_shown, namesTo, List.getElem?_take, hnamed]
    split_ifs with hi
    · rw [nameOf]
      rcases hi' : state.headings[i]? with _ | heading
      · simp [committedPass, hi']
      · have hsteady := h.steady hi'
        have hholds : heading.holdsName = false := by
          by_contra hh
          simpa [hrenamed] using (hsteady.holds (by simpa using hh)).2
        simp only [committedPass, hi', Option.bind_some]
        split_ifs with hauth
        · rfl
        · have hname := h.name_isSome hi' (by omega) (by simpa using hauth)
          simp [Heading.given, committed, hsteady.coherent.agree hholds hname]
    · rfl
  rw [hbases, hshown]
  exact h.named.greedy

lemma mem_reserved (roster : Roster) (n : Name) :
    readBetween roster true 0 roster.records.length n ↔ n ∈ roster.reserved := by
  simp [readBetween, Roster.anchorsBetween, Roster.reserved, and_assoc]

lemma length_sync (hlen : state.count ≤ state.headings.length) :
    state.sync.headings.length = state.sync.count := by
  simpa [sync] using hlen

/-- The finalize: the document shows the names of one greedy pass over the anchors that stand and
all the headings. -/
theorem headingsFinish_flush (state : HeadingState) (roster : Roster) (hlen : state.count ≤ state.headings.length)
    (hsteady : ∀ (i : ℕ) (heading : Heading), state.sync.headings[i]? = some heading →
      state.sync.Steady i heading) :
    let state' := state.headingsFinish roster none
    state'.Ok roster true ∧ state'.renamed = [] ∧ state'.count = state.count ∧
      state'.headings.length = state.count ∧
      (∀ (i : ℕ) (heading : Heading), state'.headings[i]? = some heading →
        heading.authored = false → heading.name.isSome) ∧
      (∀ (i : ℕ) (heading : Heading), state.sync.headings[i]? = some heading →
        ∃ heading' : Heading, state'.headings[i]? = some heading' ∧
          heading.Same False heading') ∧
      IsGreedy anchors (· ∈ roster.reserved) (at? state'.bases) (at? state'.shown) := by
  obtain ⟨hreset, hsame⟩ := namesReset_ok state.sync roster true hsteady
  have hlen' : state.sync.namesReset.headings.length = state.count := by
    simp only [namesReset, length_foldl_modify]
    exact length_sync hlen
  have hskip := hreset.skipAuthored state.count
  generalize hs : state.sync.namesReset.skipAuthored state.count = skipped at hskip
  have hfields : skipped.headings = state.sync.namesReset.headings ∧
      skipped.count = state.count ∧ skipped.renamed = [] ∧ skipped.recordsAt = 0 ∧
      skipped.named ≤ state.count := by
    rw [← hs]
    unfold skipAuthored
    split_ifs
    · exact ⟨rfl, rfl, rfl, rfl, authoredFrom_le _ (Nat.zero_le _)⟩
    · exact ⟨rfl, rfl, rfl, rfl, Nat.zero_le _⟩
  obtain ⟨hheadings, hcount, hrenamed, hrecords, hnamed⟩ := hfields
  have hdef : state.headingsFinish roster none = if skipped.asksNone then skipped else
      (skipped.nameCommitted roster true roster.records.length state.count).1 := by
    simp only [headingsFinish, Option.isSome_none, Option.isNone_none, Option.elim_none,
      Bool.false_eq_true, if_false, ← hs]
    rfl
  intro state'
  rcases hask : skipped.asksNone with _ | _
  · obtain ⟨final, hfinal, hok, hat, hnamed', hren, hcount', -, hlength, hsame', -⟩ :=
      hskip.nameCommitted (by omega) le_rfl hnamed (by rw [hheadings, hlen']) (by simp)
    have heq : state' = final := by
      simp only [state', hdef, hask, Bool.false_eq_true, if_false, hfinal]
    rw [heq]
    refine ⟨hok, hren.trans hrenamed, by omega, by rw [hlength, hheadings, hlen'],
      fun i heading hi hauth => hok.name_isSome hi ?_ hauth, fun i heading hi => ?_, ?_⟩
    · rw [hnamed', ← hlen', ← hheadings, ← hlength]
      exact (List.getElem?_eq_some_iff.mp hi).1
    · obtain ⟨heading', hi', hs'⟩ := hsame i heading hi
      obtain ⟨heading'', hi'', hs''⟩ := hsame' i heading' (hheadings ▸ hi')
      exact ⟨heading'', hi'', hs'.trans hs''⟩
    · have hshown := hok.shown (by omega) (hren.trans hrenamed)
      rw [hat] at hshown
      have hR : readBetween roster true 0 roster.records.length = (· ∈ roster.reserved) :=
        funext fun n => propext (mem_reserved roster n)
      rwa [hR] at hshown
  · have heq : state' = skipped := by simp only [state', hdef, hask, if_true]
    rw [heq]
    refine ⟨hskip, hrenamed, hcount, by rw [hheadings, hlen'], fun i heading hi hauth => ?_,
      fun i heading hi => ?_, hskip.asksNone hask (by rw [hheadings, hlen', hcount]) _⟩
    · simp [hskip.authored_of_asksNone hask (by rw [hheadings, hlen', hcount]) hi] at hauth
    · obtain ⟨heading', hi', hs'⟩ := hsame i heading hi
      exact ⟨heading', hheadings ▸ hi', hs'⟩

/-! ### The snapshot -/

/-- The committed names moved on to what a mark keeps, before a snapshot names its tail: the records
and the headings committed since, unless no heading asks for a name. -/
def moveOn (state : HeadingState) (roster : Roster) (kept : Kept) : HeadingState :=
  let state := state.sync.skipAuthored kept.parsed
  if state.asksNone then state
  else (state.nameCommitted roster false kept.records kept.parsed).1

/-- The headings may be named, as the reading that closed them left them: those the last snapshot
renamed are committed ones, and a mark keeps the committed ones and the records read. -/
structure Ready (state : HeadingState) (roster : Roster) (kept : Kept) : Prop where
  count_le : state.count ≤ state.headings.length
  ok : state.sync.Ok roster false
  named_le : state.named ≤ kept.parsed
  parsed_le : kept.parsed ≤ state.count
  recordsAt_le : state.recordsAt ≤ kept.records
  records_le : kept.records ≤ roster.records.length
  declares : ∀ record ∈ roster.records, record.withdraws = false

/-- What a state is once the names are moved on. -/
theorem Ready.moveOn {kept : Kept} (h : state.Ready roster kept) :
    (state.moveOn roster kept).Ok roster false ∧
      (state.moveOn roster kept).named ≤ kept.parsed ∧
      (state.moveOn roster kept).recordsAt ≤ kept.records ∧
      (state.moveOn roster kept).count = state.count ∧
      (state.moveOn roster kept).parsed = state.parsed ∧
      (state.moveOn roster kept).headings.length = state.count ∧
      (∀ (i : ℕ) (heading : Heading), state.sync.headings[i]? = some heading →
        ∃ heading' : Heading, (state.moveOn roster kept).headings[i]? = some heading' ∧
          heading.Same False heading') ∧
      ((state.sync.skipAuthored kept.parsed).asksNone = true ∧
          (state.moveOn roster kept) = state.sync.skipAuthored kept.parsed ∨
        (state.sync.skipAuthored kept.parsed).asksNone = false ∧
          (state.sync.skipAuthored kept.parsed).nameCommitted roster false kept.records
            kept.parsed = (state.moveOn roster kept,
              { position := (state.moveOn roster kept).recordsAt,
                left := roster.anchorsFrom (state.moveOn roster kept).recordsAt })) := by
  have hskip := h.ok.skipAuthored kept.parsed
  have hlen := length_sync h.count_le
  unfold HeadingState.moveOn
  generalize hs : state.sync.skipAuthored kept.parsed = skipped at hskip
  have hfields : skipped.headings = state.sync.headings ∧ skipped.count = state.count ∧
      skipped.parsed = state.parsed ∧ skipped.recordsAt = state.recordsAt ∧
      skipped.named ≤ kept.parsed := by
    rw [← hs]
    unfold skipAuthored
    split_ifs
    · exact ⟨rfl, rfl, rfl, rfl, authoredFrom_le _ h.named_le⟩
    · exact ⟨rfl, rfl, rfl, rfl, h.named_le⟩
  obtain ⟨hheadings, hcount, hparsed, hrecords, hnamed⟩ := hfields
  rcases hask : skipped.asksNone with _ | _
  · obtain ⟨final, hfinal, hok, hat, hnamed', -, hcount', hparsed', hlength, hsame, -⟩ :=
      hskip.nameCommitted (hrecords ▸ h.recordsAt_le) h.records_le hnamed
        (by rw [hheadings, hlen]; exact h.parsed_le) fun _ => h.declares
    simp only [hask, Bool.false_eq_true, if_false, hfinal]
    exact ⟨hok, hnamed'.le, hat.le, hcount'.trans hcount, hparsed'.trans hparsed,
      by rw [hlength, hheadings, hlen]; rfl,
      fun i heading hi => hsame i heading (hheadings ▸ hi), Or.inr ⟨trivial, by rw [hat]⟩⟩
  · simp only [hask, if_true]
    exact ⟨hskip, hnamed, hrecords ▸ h.recordsAt_le, hcount, hparsed,
      by rw [hheadings, hlen]; rfl, fun i heading hi => ⟨heading, hheadings ▸ hi, .refl _ _⟩,
      Or.inl ⟨trivial, trivial⟩⟩

/-- With no record and no heading committed since the names were moved on, they stay. -/
lemma Ready.moveOn_eq {kept : Kept} (h : state.Ready roster kept)
    (hat : state.recordsAt = kept.records) (hnamed : state.named = kept.parsed) :
    state.moveOn roster kept = state.sync := by
  have hauthored : state.sync.authoredFrom state.named kept.parsed = 0 := by
    rw [authoredFrom, hnamed, List.drop_eq_nil_of_le (by simp)]
    rfl
  have hskip : state.sync.skipAuthored kept.parsed = state.sync := by
    unfold skipAuthored
    split_ifs
    · rw [show state.sync.named = state.named from rfl, hauthored]
      rfl
    · rfl
  have hread : state.recordsRead ≤ roster.records.countP (·.kind = .anchor) := by
    rw [show state.recordsRead = _ from h.ok.recordsRead, Roster.anchorsBetween,
      ← List.countP_eq_length_filter, List.drop_zero]
    exact (List.take_sublist _ _).countP_le
  unfold HeadingState.moveOn
  simp only [hskip]
  split_ifs
  · rfl
  · have hnext : ∀ (records : List Record) (left : ℕ),
        nextBefore kept.records records { position := kept.records, left } =
          (none, { position := kept.records, left }) := fun records left => by
      cases records <;> simp [nextBefore]
    have hdef : state.sync.nameCommitted roster false kept.records kept.parsed =
        ({ state.sync with
            recordsAt := kept.records
            recordsRead := roster.records.countP (·.kind = .anchor) -
              (roster.records.countP (·.kind = .anchor) - state.recordsRead)
            named := kept.parsed },
          { position := kept.records
            left := roster.records.countP (·.kind = .anchor) - state.recordsRead }) := by
      simp [HeadingState.nameCommitted, sync, hat, hnamed, NamePass.readRecords, hnext,
        NamePass.nameHeadings]
    rw [hdef, Nat.sub_sub_self hread, ← hat, ← hnamed]
    rfl

/-- A snapshot: the document shows the names of one greedy pass over every record and every heading
there is, and the committed names are as they were moved on. -/
theorem headingsFinish_snapshot {kept : Kept} (h : state.Ready roster kept) :
    let state' := state.headingsFinish roster (some kept)
    let moved := state.moveOn roster kept
    state'.Ok roster false ∧ state'.taken = moved.taken ∧ state'.recordsAt = moved.recordsAt ∧
      state'.recordsRead = moved.recordsRead ∧ state'.named = moved.named ∧
      state'.count = state.count ∧ state'.parsed = state.parsed ∧
      state'.headings.length = state.count ∧
      (∀ (i : ℕ) (heading : Heading), moved.headings[i]? = some heading →
        ∃ heading' : Heading, state'.headings[i]? = some heading' ∧
          heading.Same (i < moved.named) heading') ∧
      IsGreedy anchors (readBetween roster false 0 roster.records.length) (at? state'.bases)
        (at? state'.shown) := by
  intro state' moved
  obtain ⟨hok, hnamed, hat, hcount, hparsed, hlen, -, hcase⟩ := h.moveOn
  have hparsed' := h.parsed_le
  have hdef : state' = if (state.sync.skipAuthored kept.parsed).asksNone then
      state.sync.skipAuthored kept.parsed else
      ((state.sync.skipAuthored kept.parsed).nameCommitted roster false kept.records
        kept.parsed).1.nameSnapshot roster ((state.sync.skipAuthored kept.parsed).nameCommitted
          roster false kept.records kept.parsed).2 := by
    simp only [state', headingsFinish, Option.isSome_some, Option.isNone_some, Option.elim_some,
      if_true]
  rcases hcase with ⟨hask, hmoved⟩ | ⟨hask, hmoved⟩
  · have heq : state' = moved := by rw [hdef, hask, if_pos rfl]; exact hmoved.symm
    rw [heq]
    exact ⟨hok, rfl, rfl, rfl, rfl, hcount, hparsed, hlen,
      fun i heading hi => ⟨heading, hi, .refl _ _⟩,
      hok.asksNone (hmoved ▸ hask) (hlen.trans hcount.symm) _⟩
  · have heq : state' = moved.nameSnapshot roster
        { position := moved.recordsAt, left := roster.anchorsFrom moved.recordsAt } := by
      rw [hdef, hask, hmoved]
      rfl
    obtain ⟨hok', hlen', hsame, hgreedy⟩ := hok.nameSnapshot (hlen.trans hcount.symm)
      (by omega) h.declares
    rw [heq]
    exact ⟨hok', rfl, rfl, rfl, rfl, hcount, hparsed, hlen'.trans hlen, hsame, hgreedy⟩

end HeadingState

end MarkdownCore
