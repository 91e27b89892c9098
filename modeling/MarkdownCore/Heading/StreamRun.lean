import MarkdownCore.Heading.StreamNames

/-!
# The runs of a streaming parse

Every step of a streaming parse keeps it sound and goes as its text does; so the document of every
snapshot, and the flush's, shows the names of one greedy pass over the anchors and the headings of
the text as it is then.
-/

namespace MarkdownCore

open Naming NamePass HeadingState

namespace Stream

variable {stream : Stream} {reading : Reading} {kept : Kept}

/-! ### The document of a snapshot -/

/-- The headings named as a snapshot names them. -/
def finish (stream : Stream) (kept : Kept) : Stream :=
  { stream with headings := stream.headings.headingsFinish stream.roster (some kept) }

lemma Sound.ready (h : stream.Sound) (hall : stream.headings.parsed = stream.headings.count)
    (hmem : kept ∈ stream.marks ++ [stream.kept]) :
    stream.headings.Ready stream.roster kept := by
  obtain ⟨hrecords, -, hparsed⟩ := h.le_kept hmem
  obtain ⟨hnamed, hat, -⟩ := h.bounds kept hmem
  have hok := h.ok
  rw [hall, ← h.inOrder.length, List.take_length] at hok
  refine ⟨h.inOrder.length.ge, by rw [h.inOrder.sync]; exact hok, hnamed, ?_, hat, hrecords,
    fun record hrecord => by simp [Record.withdraws, (h.plain record hrecord).1]⟩
  simpa [Stream.kept, hall] using hparsed

lemma mem_reserved_of_plain {roster : Roster} (h : roster.Plain) (n : Name) :
    readBetween roster false 0 roster.records.length n ↔ n ∈ roster.reserved := by
  rw [← HeadingState.mem_reserved]
  constructor
  · rintro ⟨record, hmem, -, hlabel⟩
    exact ⟨record, hmem, fun _ => h.seen (roster.mem_of_mem_anchorsBetween hmem), hlabel⟩
  · rintro ⟨record, hmem, -, hlabel⟩
    exact ⟨record, hmem, fun hfalse => by simp at hfalse, hlabel⟩

lemma toProjection_eq {a b : Heading} (hbase : a.base = b.base) (hauth : a.authored = b.authored) :
    a.toProjection = b.toProjection := by
  obtain ⟨⟨base, hne, auth⟩, _⟩ := a
  obtain ⟨⟨base', hne', auth'⟩, _⟩ := b
  simp only at hbase hauth
  subst hbase hauth
  rfl

/-- Headings as they were but for their names are what the text held of them. -/
lemma outlined_of_same {entries entries' : List Heading} (hlen : entries'.length = entries.length)
    (hsame : ∀ (i : ℕ) (heading : Heading), entries[i]? = some heading →
      ∃ heading' : Heading, entries'[i]? = some heading' ∧ heading.Same False heading') :
    entries'.map outlined = entries.map outlined := by
  refine List.ext_getElem? fun i => ?_
  rw [List.getElem?_map, List.getElem?_map]
  rcases hi : entries[i]? with _ | heading
  · rw [List.getElem?_eq_none_iff] at hi
    rw [List.getElem?_eq_none_iff.mpr (hlen ▸ hi)]
  · obtain ⟨heading', hi', hs⟩ := hsame i heading hi
    rw [hi']
    simp [outlined, hs.start, hs.parsed, toProjection_eq hs.base hs.authored]

/-- What parsed headings ask for is what the text holds. -/
lemma Sound.bases_eq (h : stream.Sound) (hall : stream.headings.parsed = stream.headings.count) :
    stream.headings.bases = stream.history.outline.bases := by
  rw [history, h.outlineAt_kept, Outline.bases, HeadingState.bases, ← h.inOrder.length,
    List.take_length]
  simp only [List.map_map]
  refine List.map_congr_left fun heading hmem => ?_
  obtain ⟨i, hi⟩ := List.mem_iff_getElem?.mp hmem
  have hlt : i < stream.headings.parsed := by
    rw [hall, ← h.inOrder.length]
    exact (List.getElem?_eq_some_iff.mp hi).1
  simp [outlined, (h.inOrder.parsed i heading hi).mpr hlt]

lemma length_shown (state : HeadingState) : state.shown.length = state.bases.length := by
  simp [HeadingState.shown, HeadingState.bases]

/-- The document shows the names of what the text holds; the parse stays sound, and holds what it
held. -/
theorem Sound.finish (h : stream.Sound) (hall : stream.headings.parsed = stream.headings.count)
    (hmem : kept ∈ stream.marks) (hfirst : ∀ k ∈ stream.marks ++ [stream.kept], kept.Le k) :
    (stream.finish kept).Sound ∧
      (∀ k, (stream.finish kept).outlineAt k = stream.outlineAt k) ∧
      (stream.finish kept).headings.shown = stream.history.outline.names := by
  have hready := h.ready hall (List.mem_append_left _ hmem)
  obtain ⟨hmoved, hmnamed, hmat, -, -, -, hmsame, -⟩ := hready.moveOn
  obtain ⟨hok, -, hat, -, hnamed, hcount, hparsed, hlen, hsame, hgreedy⟩ :=
    headingsFinish_snapshot hready
  have hdef : (stream.finish kept).headings =
      stream.headings.headingsFinish stream.roster (some kept) := rfl
  rw [← hdef] at hok hat hnamed hcount hparsed hlen hsame hgreedy
  have hlen' := h.inOrder.length
  have hboth : ∀ (i : ℕ) (heading : Heading), stream.headings.headings[i]? = some heading →
      ∃ heading' : Heading, (stream.finish kept).headings.headings[i]? = some heading' ∧
        heading.Same False heading' := by
    intro i heading hi
    obtain ⟨heading', hi', hs⟩ := hmsame i heading (by rw [h.inOrder.sync]; exact hi)
    obtain ⟨heading'', hi'', hs'⟩ := hsame i heading' hi'
    exact ⟨heading'', hi'', hs.trans (hs'.mono False.elim)⟩
  have houtlined := outlined_of_same (hlen.trans hlen'.symm) hboth
  have hstart : (stream.finish kept).headings.headings.map (·.start) =
      stream.headings.headings.map (·.start) := by
    have := congrArg (List.map Prod.fst) houtlined
    simpa [List.map_map, Function.comp_def, outlined] using this
  have hkept : (stream.finish kept).kept = stream.kept := by
    simp only [Stream.kept, hcount, hparsed]
    rfl
  have houtline : ∀ k, (stream.finish kept).outlineAt k = stream.outlineAt k := fun k =>
    outlineAt_congr rfl rfl (by rw [List.map_take, houtlined, List.map_take]) (by rw [hstart])
  refine ⟨⟨h.plain, ⟨hlen.trans hcount.symm, ?_, fun i heading hi => ?_, ?_⟩, ?_, ?_, ?_⟩,
    houtline, ?_⟩
  · rw [hparsed, hcount]
    exact h.inOrder.parsed_le
  · have hlt : i < stream.headings.headings.length := by
      rw [hlen', ← hlen]
      exact (List.getElem?_eq_some_iff.mp hi).1
    obtain ⟨heading', hi', hs⟩ := hboth i _ (List.getElem?_eq_getElem hlt)
    obtain rfl : heading' = heading := Option.some.inj (hi'.symm.trans hi)
    rw [hs.parsed, hparsed]
    exact h.inOrder.parsed i _ (List.getElem?_eq_getElem hlt)
  · have hpair := List.pairwise_map.mpr h.inOrder.sorted
    rw [← hstart] at hpair
    exact List.pairwise_map.mp hpair
  · rw [hparsed, hall, ← hlen, List.take_length]
    exact hok
  · rw [hkept]
    exact h.marks
  · intro k hk
    rw [hkept] at hk
    obtain ⟨hle, -, hle'⟩ := hfirst k hk
    rw [hnamed, hat]
    exact ⟨hmnamed.trans hle', hmat.trans hle, (h.bounds k hk).2.2⟩
  · have hbases : (stream.finish kept).headings.bases = stream.history.outline.bases := by
      rw [← h.bases_eq hall]
      exact bases_of_same hcount (hlen.trans hlen'.symm) hboth
    rw [Outline.names, ← hbases]
    refine IsGreedy.eq_greedy (length_shown _) ?_
    have hR : readBetween stream.roster false 0 stream.roster.records.length =
        (· ∈ stream.history.outline.reserved.toFinset) := by
      funext n
      rw [eq_iff_iff, mem_reserved_of_plain h.plain, List.mem_toFinset, history, h.outlineAt_kept]
    rw [hR] at hgreedy
    exact hgreedy

/-! ### The steps -/

/-- The oldest mark was made before every other. -/
lemma Sound.head_le (h : stream.Sound) {first : Kept} (hfirst : stream.marks.head? = some first) :
    ∀ k ∈ stream.marks ++ [stream.kept], first.Le k := by
  obtain ⟨marks, hmarks⟩ := List.head?_eq_some_iff.mp hfirst
  have hpair := h.marks
  rw [hmarks, List.cons_append] at hpair ⊢
  intro k hk
  rcases List.mem_cons.mp hk with rfl | hk
  · exact .refl _
  · exact (List.pairwise_cons.mp hpair).1 k hk

/-- The parse a snapshot names: marked, and read to an end. -/
def tail (stream : Stream) (reading : Reading) : Stream :=
  (stream.step .mark).read reading.ended

lemma snapshot_eq (stream : Stream) (reading : Reading) :
    stream.snapshot reading =
      { ((stream.tail reading).finish stream.firstKept).putBackTo stream.kept with
        marks := stream.marks } := rfl

lemma head_tail (stream : Stream) (reading : Reading) :
    (stream.tail reading).marks.head? = some stream.firstKept := by
  change (stream.marks ++ [stream.kept]).head? = _
  cases hmarks : stream.marks <;> simp [firstKept, hmarks]

/-- The text read to an end is what the text so far and its last reading hold. -/
lemma Sound.tail (h : stream.Sound) (hfollow : stream.history.outline.Follows reading.ended) :
    (stream.tail reading).Sound ∧
      (stream.tail reading).headings.parsed = (stream.tail reading).headings.count ∧
      (stream.tail reading).history =
        { stream.history.step .mark with outline := stream.history.outline.read reading.ended } := by
  have hfollow' := h.followedBy hfollow
  refine ⟨h.mark.read hfollow', h.inOrder.parsed_read_ended hfollow' rfl, ?_⟩
  rw [Stream.tail, h.mark.history_read hfollow', history_mark]
  rfl

/-- A snapshot shows the names of the text read to an end. -/
theorem Sound.document_shown (h : stream.Sound)
    (hfollow : stream.history.outline.Follows reading.ended) :
    (stream.document reading).headings.shown =
      (stream.history.outline.read reading.ended).names := by
  obtain ⟨hsound, hall, hhistory⟩ := h.tail hfollow
  have hhead := stream.head_tail reading
  obtain ⟨-, -, hshown⟩ := hsound.finish hall (List.mem_of_head? hhead) (hsound.head_le hhead)
  rw [hhistory] at hshown
  exact hshown

/-- A snapshot undone leaves what the text holds. -/
theorem Sound.snapshot (h : stream.Sound)
    (hfollow : stream.history.outline.Follows reading.ended) :
    (stream.snapshot reading).Sound ∧ (stream.snapshot reading).history = stream.history := by
  obtain ⟨hsound, hall, -⟩ := h.tail hfollow
  have hhead := stream.head_tail reading
  obtain ⟨hfinish, houtline, -⟩ :=
    hsound.finish hall (List.mem_of_head? hhead) (hsound.head_le hhead)
  have hmem : stream.kept ∈ ((stream.tail reading).finish stream.firstKept).marks ++
      [((stream.tail reading).finish stream.firstKept).kept] :=
    List.mem_append_left _ (List.mem_append_right _ (List.mem_singleton.mpr rfl))
  have hat : ∀ k ∈ stream.marks ++ [stream.kept],
      (stream.snapshot reading).outlineAt k = stream.outlineAt k := fun k hk => by
    rw [snapshot_eq, hfinish.outlineAt_putBackTo hmem (h.le_kept hk), houtline]
    exact h.mark.outlineAt_read (h.followedBy hfollow) (List.mem_append_left _ hk)
  have hkept : (stream.snapshot reading).kept = stream.kept := by
    rw [snapshot_eq, hfinish.kept_putBackTo hmem]
  refine ⟨?_, ?_⟩
  · rw [snapshot_eq]
    exact hfinish.putBackTo hmem h.marks fun k hk => List.mem_append_left _ hk
  · rw [history, history, hkept, hat _ (List.mem_append_right _ (List.mem_singleton.mpr rfl))]
    congr 1
    exact List.map_congr_left fun k hk => hat k (List.mem_append_left _ hk)

/-- A parse put back to a mark holds what the text held there. -/
theorem Sound.putBack (h : stream.Sound) (mark : ℕ) :
    (stream.step (.putBack mark)).Sound ∧
      (stream.step (.putBack mark)).history = stream.history.step (.putBack mark) := by
  rcases hmark : stream.marks[mark]? with _ | kept
  · have hstep : stream.step (.putBack mark) = stream := by simp [step, hmark]
    have hhistory : stream.history.step (.putBack mark) = stream.history := by
      simp [History.step, history, hmark]
    rw [hstep, hhistory]
    exact ⟨h, rfl⟩
  · have hstep : stream.step (.putBack mark) =
        { stream.putBackTo kept with marks := stream.marks.take (mark + 1) } := by
      simp [step, hmark]
    have hhistory : stream.history.step (.putBack mark) =
        { outline := stream.outlineAt kept,
          marks := (stream.marks.take (mark + 1)).map stream.outlineAt } := by
      simp [History.step, history, hmark, List.map_take]
    have hmem : kept ∈ stream.marks ++ [stream.kept] :=
      List.mem_append_left _ (List.mem_of_getElem? hmark)
    have hpair : (stream.marks.take (mark + 1)).Pairwise Kept.Le :=
      (List.pairwise_append.mp h.marks).1.sublist (List.take_sublist _ _)
    have hle : ∀ k ∈ stream.marks.take (mark + 1), k.Le kept := by
      rw [List.take_add_one, hmark, Option.toList_some] at hpair ⊢
      intro k hk
      rcases List.mem_append.mp hk with hk | hk
      · exact (List.pairwise_append.mp hpair).2.2 k hk kept (List.mem_singleton.mpr rfl)
      · obtain rfl := List.mem_singleton.mp hk
        exact .refl _
    rw [hstep, hhistory]
    refine ⟨h.putBackTo hmem ?_ fun k hk => List.mem_of_mem_take hk, ?_⟩
    · exact List.pairwise_append.mpr ⟨hpair, List.pairwise_singleton _ _, fun k hk k' hk' =>
        List.mem_singleton.mp hk' ▸ hle k hk⟩
    · rw [history, h.kept_putBackTo hmem, h.outlineAt_putBackTo hmem (.refl _)]
      congr 1
      exact List.map_congr_left fun k hk => h.outlineAt_putBackTo hmem (hle k hk) _

/-- A mark released leaves the others. -/
theorem Sound.release (h : stream.Sound) (mark : ℕ) :
    (stream.step (.release mark)).Sound ∧
      (stream.step (.release mark)).history = stream.history.step (.release mark) := by
  have hkept : (stream.step (.release mark)).kept = stream.kept := rfl
  have hsub : (stream.marks.eraseIdx mark ++ [stream.kept]).Sublist
      (stream.marks ++ [stream.kept]) :=
    (List.eraseIdx_sublist _ _).append_right _
  refine ⟨⟨h.plain, h.inOrder, h.ok, ?_, fun k hk => ?_⟩, ?_⟩
  · exact hkept ▸ h.marks.sublist hsub
  · exact h.bounds k (hsub.subset (hkept ▸ hk))
  · simp only [history, History.step, step, List.eraseIdx_map]
    rfl

/-- Every step keeps the parse sound, and goes as the text does. -/
theorem Sound.step (h : stream.Sound) {step : Step} (hallow : stream.history.allows step) :
    (stream.step step).Sound ∧ (stream.step step).history = stream.history.step step := by
  cases step with
  | commit reading =>
    exact ⟨h.read (h.followedBy hallow), h.history_read (h.followedBy hallow)⟩
  | mark => exact ⟨h.mark, history_mark stream⟩
  | putBack mark => exact h.putBack mark
  | release mark => exact h.release mark
  | snapshot reading => exact h.snapshot hallow

lemma sound_empty : Sound {} := by
  refine ⟨fun record hmem => by simp at hmem, ⟨rfl, le_rfl, fun i heading hi => by simp at hi,
    List.Pairwise.nil⟩, ?_, List.pairwise_singleton _ _, fun k hk => ?_⟩
  · exact (namesReset_ok {} _ false fun i heading hi => by simp at hi).1
  · obtain rfl : k = ({} : Stream).kept := by simpa using hk
    exact ⟨le_rfl, le_rfl, le_rfl⟩

/-- A run keeps the parse sound, and goes as the text does. -/
theorem Sound.run (h : stream.Sound) (steps : List Step) (hallow : stream.history.Allows steps) :
    (steps.foldl Stream.step stream).Sound ∧
      (steps.foldl Stream.step stream).history = steps.foldl History.step stream.history := by
  induction steps generalizing stream with
  | nil => exact ⟨h, rfl⟩
  | cons step steps ih =>
    obtain ⟨hsound, hhistory⟩ := h.step hallow.1
    rw [List.foldl_cons, List.foldl_cons, ← hhistory]
    exact ih hsound (hhistory ▸ hallow.2)

/-! ### What a snapshot leaves -/

/-- The committed names as they are moved on before a snapshot names its tail. -/
def movedOn (stream : Stream) (reading : Reading) : HeadingState :=
  (stream.tail reading).headings.moveOn (stream.tail reading).roster stream.firstKept

/-- The committed names are those of `state`: the index, what was read of the log, how many headings
are named, and the names their entries keep. -/
structure CommittedAs (state state' : HeadingState) : Prop where
  taken : state'.taken = state.taken
  recordsAt : state'.recordsAt = state.recordsAt
  recordsRead : state'.recordsRead = state.recordsRead
  named : state'.named = state.named
  names : ∀ (i : ℕ) (heading : Heading), i < state.named → state.headings[i]? = some heading →
    ∃ heading' : Heading, state'.headings[i]? = some heading' ∧ heading'.name = heading.name ∧
      heading'.baseSize = heading.baseSize

/-- A snapshot undone leaves the roster as it was. -/
lemma Sound.snapshot_roster (h : stream.Sound)
    (hfollow : stream.history.outline.Follows reading.ended) :
    (stream.snapshot reading).roster = stream.roster := by
  obtain ⟨hsound, -, -⟩ := h.tail hfollow
  change (stream.tail reading).roster.rollback stream.roster.records.length = stream.roster
  rw [hsound.plain.rollback]
  change ({ declareAll stream.roster reading.declared with
    records := (declareAll stream.roster reading.declared).records.take _ } : Roster) = _
  rw [Roster.declareAll_records, List.take_left]

/-- A snapshot undone leaves the committed names as they were moved on. -/
theorem Sound.snapshot_committed (h : stream.Sound)
    (hfollow : stream.history.outline.Follows reading.ended) :
    CommittedAs (stream.movedOn reading) (stream.snapshot reading).headings := by
  obtain ⟨hsound, hall, -⟩ := h.tail hfollow
  have hhead := stream.head_tail reading
  have hready := hsound.ready hall (List.mem_append_left _ (List.mem_of_head? hhead))
  obtain ⟨-, htaken, hat, hread, hnamed, -, -, -, hsame, -⟩ := headingsFinish_snapshot hready
  obtain ⟨-, hmnamed, -⟩ := hready.moveOn
  refine ⟨htaken, hat, hread, hnamed, fun i heading hi hheading => ?_⟩
  obtain ⟨heading', hi', hs⟩ := hsame i heading hheading
  have hle := (hsound.head_le hhead stream.kept
    (List.mem_append_left _ (List.mem_append_right _ (List.mem_singleton.mpr rfl)))).2.2
  have hi'' : i < stream.kept.parsed := hi.trans_le (hmnamed.trans hle)
  refine ⟨heading', ?_, hs.kept hi⟩
  rw [snapshot_eq]
  simp only [Stream.putBackTo, HeadingState.putBack]
  rw [List.getElem?_append_left, List.getElem?_take, if_pos hi'']
  · exact hi'
  · rw [List.length_take]
    exact lt_min hi'' (List.getElem?_eq_some_iff.mp hi').1

/-- With no record and no heading committed since they were last moved on, the committed names stay
as they were. -/
theorem Sound.snapshot_unchanged (h : stream.Sound)
    (hfollow : stream.history.outline.Follows reading.ended)
    (hat : stream.headings.recordsAt = stream.firstKept.records)
    (hnamed : stream.headings.named = stream.firstKept.parsed) :
    CommittedAs stream.headings (stream.snapshot reading).headings := by
  obtain ⟨hsound, hall, -⟩ := h.tail hfollow
  have hhead := stream.head_tail reading
  have hready := hsound.ready hall (List.mem_append_left _ (List.mem_of_head? hhead))
  have hheadings : (stream.tail reading).headings = stream.headings.readState reading.ended := rfl
  have hpast := (h.followedBy hfollow).past
  have hmoved : stream.movedOn reading = stream.headings.readState reading.ended := by
    rw [movedOn, hready.moveOn_eq, hsound.inOrder.sync, hheadings]
    · rw [hheadings, h.inOrder.readState_eq hpast]
      exact hat
    · rw [hheadings, h.inOrder.readState_eq hpast]
      exact hnamed
  obtain ⟨htaken, hat', hread, hnamed', hnames⟩ := h.snapshot_committed hfollow
  rw [hmoved, h.inOrder.readState_eq hpast] at htaken hat' hread hnamed' hnames
  refine ⟨htaken, hat', hread, hnamed', fun i heading hi hheading => hnames i heading hi ?_⟩
  have hlt := hi.trans_le h.named_le
  simp only
  rw [List.getElem?_append_left, List.getElem?_take, if_pos hlt]
  · exact hheading
  · rw [List.length_take]
    exact lt_min hlt (List.getElem?_eq_some_iff.mp hheading).1

/-! ### The flush -/

/-- What the finalize keeps while it completes roots again: every heading parsed, and anchors that
are the text's in some order. -/
structure Finalizing (stream : Stream) (outline : Outline) : Prop where
  length : stream.headings.headings.length = stream.headings.count
  steady : ∀ (i : ℕ) (heading : Heading), stream.headings.headings[i]? = some heading →
    stream.headings.Steady i heading ∧ heading.parsed = true
  headings : stream.headings.headings.map outlined = outline.headings
  reserved : stream.roster.reserved.Perm outline.reserved
  back : ∀ record ∈ stream.roster.records, record.back = false

lemma Sound.finalizing (h : stream.Sound)
    (hall : stream.headings.parsed = stream.headings.count) :
    stream.Finalizing stream.history.outline := by
  have hlt : ∀ (i : ℕ) (heading : Heading), stream.headings.headings[i]? = some heading →
      i < stream.headings.parsed := fun i heading hi => by
    rw [hall, ← h.inOrder.length]
    exact (List.getElem?_eq_some_iff.mp hi).1
  refine ⟨h.inOrder.length, fun i heading hi => ⟨h.steady hi (hlt i heading hi),
    (h.inOrder.parsed i heading hi).mpr (hlt i heading hi)⟩, ?_, ?_,
    fun record hmem => (h.plain record hmem).2.2⟩
  · rw [history, h.outlineAt_kept]
  · rw [history, h.outlineAt_kept]

lemma mem_keyList {roster : Roster} {kind : RosterKind} {label : Name} {i : ℕ} :
    i ∈ roster.keyList kind label ↔ ∃ record, roster.records[i]? = some record ∧
      record.kind = kind ∧ record.label = label ∧ record.stands = true := by
  rw [Roster.keyList, List.mem_mergeSort, List.mem_filter, List.mem_range, Option.any_eq_true]
  simp only [Bool.and_eq_true, decide_eq_true_eq, and_assoc, and_iff_right_iff_imp]
  rintro ⟨record, hrecord, -⟩
  exact (List.getElem?_eq_some_iff.mp hrecord).1

/-- A declaration withdrawn is one of its label that stood, when there is one. -/
lemma withdrawnBy_spec (roster : Roster) (kind : RosterKind) (label : Name) (start : ℕ) :
    (roster.withdrawnBy kind label start = none ∧ roster.keyList kind label = []) ∨
      ∃ i, roster.withdrawnBy kind label start = some i ∧ i ∈ roster.keyList kind label := by
  have hlast : ((roster.keyList kind label).getLast? = none ∧ roster.keyList kind label = []) ∨
      ∃ i, (roster.keyList kind label).getLast? = some i ∧ i ∈ roster.keyList kind label := by
    rcases h : (roster.keyList kind label).getLast? with _ | i
    · exact Or.inl ⟨rfl, List.getLast?_eq_none_iff.mp h⟩
    · exact Or.inr ⟨i, rfl, List.mem_of_getLast? h⟩
  simp only [Roster.withdrawnBy]
  split
  · next i hi =>
    split_ifs
    · exact Or.inr ⟨i, rfl, List.mem_of_mem_filter (List.mem_of_getLast? hi)⟩
    · exact hlast
  · exact hlast

/-- A withdrawal takes one of the label's anchors, when there is one. -/
lemma reserved_withdraw {roster : Roster} (hback : ∀ record ∈ roster.records, record.back = false)
    (label : Name) (start : ℕ) :
    (roster.withdraw .anchor label start).reserved.Perm (roster.reserved.erase label) := by
  rcases withdrawnBy_spec roster .anchor label start with ⟨hnone, hempty⟩ | ⟨i, hsome, hmem⟩
  · have hnot : label ∉ roster.reserved := by
      intro hmem
      obtain ⟨record, hrecord, rfl⟩ := List.mem_map.mp hmem
      obtain ⟨hmem', hseen⟩ := List.mem_filter.mp hrecord
      obtain ⟨i, hi⟩ := List.mem_iff_getElem?.mp hmem'
      simp only [Roster.seen, Bool.and_eq_true, decide_eq_true_eq] at hseen
      have hkey : i ∈ roster.keyList .anchor record.label :=
        mem_keyList.mpr ⟨record, hi, hseen.1, rfl, hseen.2.1⟩
      simp [hempty] at hkey
    rw [Roster.withdraw, hnone, List.erase_of_not_mem hnot]
  · obtain ⟨record, hi, hkind, hlabel, hstands⟩ := mem_keyList.mp hmem
    obtain ⟨hlt, hget⟩ := List.getElem?_eq_some_iff.mp hi
    have hsplit : roster.records =
        roster.records.take i ++ record :: roster.records.drop (i + 1) := by
      rw [← hget, List.getElem_cons_drop, List.take_append_drop]
    have hseen : roster.seen record = true := by
      simp [Roster.seen, hstands, hback record (List.mem_of_getElem? hi)]
    have hmodify : roster.records.modify i (fun record => { record with withdrawn := true }) =
        roster.records.take i ++ { record with withdrawn := true } ::
          roster.records.drop (i + 1) := by
      rw [List.modify_eq_take_cons_drop hlt, hget]
    have hleft : (roster.withdraw .anchor label start).reserved =
        ((roster.records.take i ++ roster.records.drop (i + 1)).filter fun record =>
          record.kind = .anchor && roster.seen record).map (·.label) := by
      rw [Roster.withdraw, hsome]
      simp only [Roster.reserved, hmodify]
      simp [Roster.seen, Record.stands, Record.withdraws]
    have hright : roster.reserved =
        ((roster.records.take i).filter fun record =>
          record.kind = .anchor && roster.seen record).map (·.label) ++ label ::
        ((roster.records.drop (i + 1)).filter fun record =>
          record.kind = .anchor && roster.seen record).map (·.label) := by
      rw [Roster.reserved]
      conv_lhs => rw [hsplit]
      simp [hkind, hseen, hlabel]
    rw [hleft, hright, List.filter_append, List.map_append]
    refine List.Perm.trans ?_ (List.perm_middle.erase label).symm
    rw [List.erase_cons_head]

lemma Finalizing.completeMiss {outline : Outline} (h : stream.Finalizing outline) (miss : Miss) :
    (stream.completeMiss miss).Finalizing (outline.completeMiss miss) := by
  obtain ⟨hlength, hsteady, hheadings, hreserved, hback⟩ := h
  cases miss with
  | withdraw label start =>
    refine ⟨hlength, hsteady, hheadings,
      (reserved_withdraw hback label start).trans (hreserved.erase label), fun record hmem => ?_⟩
    simp only [Stream.completeMiss, Roster.withdraw] at hmem
    split at hmem
    · exact hback record hmem
    · next i _ =>
      rcases List.mem_append.mp hmem with hmem | hmem
      · obtain ⟨j, hj⟩ := List.mem_iff_getElem?.mp hmem
        rw [List.getElem?_modify] at hj
        obtain ⟨old, hold, rfl⟩ := Option.map_eq_some_iff.mp hj
        have := hback old (List.mem_of_getElem? hold)
        split_ifs <;> simpa using this
      · obtain rfl := List.mem_singleton.mp hmem
        rfl
  | declare kind label start =>
    have hdeclare : stream.completeMiss (.declare kind label start) =
        { stream with roster := declareAll stream.roster [(kind, label, start)] } := rfl
    rw [hdeclare]
    refine ⟨hlength, hsteady, ?_, ?_, fun record hmem => ?_⟩
    · simp only [Outline.completeMiss]
      split_ifs <;> exact hheadings
    · have hreserved' := Roster.reserved_declareAll stream.roster
        { declared := [(kind, label, start)], closed := [], project := fun _ => .empty }
      simp only at hreserved' ⊢
      rw [hreserved', Outline.completeMiss, Reading.anchors]
      by_cases hnew : kind = .anchor ∧ label ≠ []
      · simpa [hnew.1, hnew.2] using hreserved.append_right [label]
      · simpa [hnew] using hreserved
    · rw [Roster.declareAll_records, List.mem_append] at hmem
      rcases hmem with hmem | hmem
      · exact hback record hmem
      · obtain ⟨entry, -, rfl⟩ := List.mem_map.mp hmem
        rfl
  | reparse i projection =>
    refine ⟨?_, fun j heading hj => ?_, ?_, hreserved, hback⟩
    · simpa [Stream.completeMiss, reparseInlines] using hlength
    · simp only [Stream.completeMiss, reparseInlines, List.getElem?_modify] at hj
      obtain ⟨old, hold, rfl⟩ := Option.map_eq_some_iff.mp hj
      obtain ⟨⟨hcoherent, hholds, hflag⟩, hparsed⟩ := hsteady j old hold
      by_cases hij : i = j
      · simp only [if_pos hij]
        exact ⟨⟨.of_unnamed rfl rfl hflag, fun hh => by simp at hh, hflag⟩, hparsed⟩
      · simp only [if_neg hij]
        exact ⟨⟨hcoherent, hholds, hflag⟩, hparsed⟩
    · refine List.ext_getElem? fun j => ?_
      simp only [Stream.completeMiss, reparseInlines, Outline.completeMiss, ← hheadings,
        List.getElem?_map, List.getElem?_modify]
      rcases hj : stream.headings.headings[j]? with _ | heading
      · rfl
      · have hparsed := (hsteady j heading hj).2
        by_cases hij : i = j <;> simp [outlined, hparsed, hij]

lemma Finalizing.foldl {outline : Outline} (h : stream.Finalizing outline) (misses : List Miss) :
    (misses.foldl Stream.completeMiss stream).Finalizing
      (misses.foldl Outline.completeMiss outline) := by
  induction misses generalizing stream outline with
  | nil => exact h
  | cons miss misses ih => exact ih (h.completeMiss miss)

/-- The finalize shows the names of what the text holds then. -/
lemma Finalizing.shown {outline : Outline} (h : stream.Finalizing outline) :
    (stream.headings.headingsFinish stream.roster none).shown = outline.names := by
  have hsync : stream.headings.sync = stream.headings := by
    simp [HeadingState.sync, List.take_of_length_le h.length.le]
  obtain ⟨-, -, hcount, hlen, -, hsame, hgreedy⟩ := headingsFinish_flush stream.headings
    stream.roster h.length.ge fun i heading hi => by
      rw [hsync] at hi ⊢
      exact (h.steady i heading hi).1
  have hbases : (stream.headings.headingsFinish stream.roster none).bases = outline.bases := by
    rw [bases_of_same hcount (hlen.trans h.length.symm) (hsync ▸ hsame), Outline.bases,
      ← h.headings, HeadingState.bases, ← h.length, List.take_length, List.map_map]
    refine List.map_congr_left fun heading hmem => ?_
    obtain ⟨i, hi⟩ := List.mem_iff_getElem?.mp hmem
    simp [outlined, (h.steady i heading hi).2]
  rw [Outline.names, ← hbases]
  refine IsGreedy.eq_greedy (length_shown _) ?_
  have hR : (· ∈ stream.roster.reserved) = (· ∈ outline.reserved.toFinset) := by
    funext n
    rw [eq_iff_iff, List.mem_toFinset, h.reserved.mem_iff]
  rw [hR] at hgreedy
  exact hgreedy

/-- The flush shows the names of the text read to its end, its roots completed again. -/
theorem Sound.flush_shown (h : stream.Sound)
    (hfollow : stream.history.outline.Follows reading.ended) (misses : List Miss) :
    (stream.flush reading misses).headings.shown =
      (misses.foldl Outline.completeMiss (stream.history.outline.read reading.ended)).names := by
  have hfollow' := h.followedBy hfollow
  have hfinal := (h.read hfollow').finalizing (h.inOrder.parsed_read_ended hfollow' rfl)
  rw [h.history_read hfollow'] at hfinal
  exact (hfinal.foldl misses).shown

end Stream

/-! ### The names of every run -/

/-- After any steps, a snapshot's document and the flush's show the names one greedy pass over the
anchors and the headings the text holds then gives. A snapshot undone leaves the roster, what the
text holds, and the committed names as it moved them on to what is committed, of which it changes
none while nothing more is. -/
theorem names_of_run (steps : List Step) (hallow : History.Allows {} steps) :
    let stream := steps.foldl Stream.step {}
    let outline := (steps.foldl History.step {}).outline
    ∀ reading : Reading, outline.Follows reading.ended →
      (stream.document reading).headings.shown = (outline.read reading.ended).names ∧
      (∀ misses : List Miss, (stream.flush reading misses).headings.shown =
        (misses.foldl Outline.completeMiss (outline.read reading.ended)).names) ∧
      (stream.snapshot reading).roster = stream.roster ∧
      (stream.snapshot reading).history = stream.history ∧
      Stream.CommittedAs (stream.movedOn reading) (stream.snapshot reading).headings ∧
      (stream.headings.recordsAt = stream.firstKept.records →
        stream.headings.named = stream.firstKept.parsed →
        Stream.CommittedAs stream.headings (stream.snapshot reading).headings) := by
  intro stream outline reading hfollow
  obtain ⟨hsound, hhistory⟩ := Stream.sound_empty.run steps hallow
  have houtline : stream.history.outline = outline := congrArg History.outline hhistory
  rw [← houtline] at hfollow ⊢
  exact ⟨hsound.document_shown hfollow, hsound.flush_shown hfollow,
    hsound.snapshot_roster hfollow, (hsound.snapshot hfollow).2,
    hsound.snapshot_committed hfollow, hsound.snapshot_unchanged hfollow⟩

/-! ### A late anchor -/

/-- A reading that closes one heading, of base `a`. -/
def headingReading (start : ℕ) : Reading where
  declared := []
  closed := [start]
  project := fun _ => { base := [97] }

/-- A reading that declares the anchor `a`. -/
def anchorReading (start : ℕ) : Reading where
  declared := [(.anchor, [97], start)]
  closed := []
  project := fun _ => .empty

lemma headingReading_follows {outline : Outline} {start : ℕ}
    (h : ∀ heading ∈ outline.headings, heading.1 < start) :
    outline.Follows (headingReading start) :=
  ⟨List.nodup_singleton start, fun heading hmem s hs => List.mem_singleton.mp hs ▸ h heading hmem,
    fun pending hpending => by simp [headingReading] at hpending⟩

lemma anchorReading_follows (outline : Outline) (start : ℕ) :
    outline.Follows (anchorReading start) :=
  ⟨List.nodup_nil, fun heading _ s hs => by simp [anchorReading] at hs,
    fun pending hpending => by simp [anchorReading] at hpending⟩

/-- A heading is committed and shown; its name is then reserved, in a snapshot's text and at a later
commit's, and a second heading of its base follows. -/
def lateAnchor : List Step :=
  [.commit (headingReading 0), .snapshot (anchorReading 5), .mark, .commit (anchorReading 9),
    .snapshot (headingReading 20), .putBack 0, .release 0, .commit (anchorReading 7)]

theorem names_of_lateAnchor :
    ((lateAnchor.foldl Stream.step {}).document (headingReading 30)).headings.shown =
      ((lateAnchor.foldl History.step {}).outline.read (headingReading 30).ended).names := by
  refine (names_of_run lateAnchor ?_ (headingReading 30) (headingReading_follows ?_)).1
  · refine ⟨headingReading_follows (by simp), anchorReading_follows _ _, trivial,
      anchorReading_follows _ _, headingReading_follows ?_, trivial, trivial,
      anchorReading_follows _ _, trivial⟩
    simp [History.step, Outline.read, Outline.parseHeading, sourceOrder, headingReading,
      anchorReading, Reading.settled]
  · simp [lateAnchor, History.step, Outline.read, Outline.parseHeading, sourceOrder,
      headingReading, anchorReading, Reading.settled]

/-- The first snapshot after a commit moves the committed names on: the index was empty, and once
the snapshot is undone it holds the name of the heading committed. -/
theorem snapshot_moves_committed_names_on :
    let stream := Stream.step {} (.commit (headingReading 0))
    stream.headings.taken.keys = [] ∧
      (stream.snapshot (anchorReading 5)).headings.taken.keys = [[97]] := by
  have hread : Stream.step {} (.commit (headingReading 0)) =
      { headings :=
          { count := 1, parsed := 1, headings := [parsedEntry (fun _ => { base := [97] }) 0] } } := by
    simp [Stream.step, Stream.read, Stream.declareAll, headingReading, HeadingState.closeHeading,
      HeadingState.headingsPrepare, HeadingState.sync, Reading.settled, parsedEntry]
  intro stream
  rw [show stream = _ from hread]
  refine ⟨rfl, ?_⟩
  decide

end MarkdownCore
