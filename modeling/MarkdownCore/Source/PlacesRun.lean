import Mathlib.Algebra.Order.BigOperators.Group.List
import Mathlib.Data.List.GetD
import MarkdownCore.Source.Places

/-!
# An inline node's runs are its source less the gaps

The place a content byte is read from is the one the table's search finds, and the pass over the
places from there ends a run at each gap. So the runs of a content range are the source from where
its first byte was read to where its last was, less what lies in no place (`inline_runs_cover`).
-/

namespace MarkdownCore.Source

/-! ### The table -/

@[simp] lemma contentLength_nil : contentLength [] = 0 := rfl

@[simp] lemma contentLength_cons (place : SourcePlace) (places : List SourcePlace) :
    contentLength (place :: places) = place.length + contentLength places := by
  simp [contentLength]

@[simp] lemma contentLength_append (front back : List SourcePlace) :
    contentLength (front ++ back) = contentLength front + contentLength back := by
  simp [contentLength]

@[simp] lemma length_contentPlaces (content : ℕ) (places : List SourcePlace) :
    (contentPlaces content places).length = places.length := by
  induction places generalizing content with
  | nil => rfl
  | cons place places ih => simp [contentPlaces, ih]

lemma contentPlaces_append (content : ℕ) (front back : List SourcePlace) :
    contentPlaces content (front ++ back) =
      contentPlaces content front ++ contentPlaces (content + contentLength front) back := by
  induction front generalizing content with
  | nil => rfl
  | cons place front ih =>
    simp only [List.cons_append, contentPlaces, ih, contentLength_cons, Nat.add_assoc]

/-- The place a table's entry was made of. -/
def ContentPlace.source (place : ContentPlace) : SourcePlace :=
  ⟨place.start, place.stop, place.length⟩

lemma map_source (content : ℕ) (places : List SourcePlace) :
    (contentPlaces content places).map ContentPlace.source = places := by
  induction places generalizing content with
  | nil => rfl
  | cons place places ih => simp [contentPlaces, ih, ContentPlace.source]

lemma content_mem {content : ℕ} {places : List SourcePlace} {place : ContentPlace}
    (h : place ∈ contentPlaces content places) :
    content ≤ place.content ∧ place.content + place.length ≤ content + contentLength places := by
  induction places generalizing content with
  | nil => cases h
  | cons first places ih =>
    rw [contentLength_cons]
    rcases List.mem_cons.mp h with rfl | h
    · exact ⟨le_rfl, by show content + first.length ≤ _; omega⟩
    · have hrest := ih h
      omega

lemma content_increasing (content : ℕ) (places : List SourcePlace) :
    (contentPlaces content places).Pairwise fun a b => a.content + a.length ≤ b.content := by
  induction places generalizing content with
  | nil => exact .nil
  | cons place places ih =>
    apply List.Pairwise.cons _ (ih _)
    intro b hb
    exact (content_mem hb).1

/-! ### The place a byte is read from -/

/-- A content byte lies in some place. -/
lemma exists_reading (places : List SourcePlace) (offset : ℕ) (h : offset < contentLength places) :
    ∃ front place back, places = front ++ place :: back ∧ contentLength front ≤ offset ∧
      offset < contentLength front + place.length := by
  induction places generalizing offset with
  | nil => cases h
  | cons first places ih =>
    rw [contentLength_cons] at h
    by_cases hlt : offset < first.length
    · exact ⟨[], first, places, rfl, Nat.zero_le _, by simpa using hlt⟩
    · obtain ⟨front, place, back, rfl, hle, hlt'⟩ := ih (offset - first.length) (by omega)
      refine ⟨first :: front, place, back, rfl, ?_, ?_⟩
      · rw [contentLength_cons]
        omega
      · rw [contentLength_cons]
        omega

lemma readFrom_append {front back : List SourcePlace} {place : SourcePlace} {offset : ℕ}
    (hle : contentLength front ≤ offset) (hlt : offset < contentLength front + place.length) :
    readFrom (front ++ place :: back) offset =
      some (if place.stop - place.start = place.length then
        (place.start + (offset - contentLength front),
          place.start + (offset - contentLength front) + 1)
      else (place.start, place.stop)) := by
  induction front generalizing offset with
  | nil =>
    rw [List.nil_append, readFrom, if_pos (by simpa using hlt)]
    simp
  | cons first front ih =>
    rw [contentLength_cons] at hle hlt
    rw [List.cons_append, readFrom, if_neg (by omega), ih (by omega) (by omega), contentLength_cons,
      Nat.sub_sub]

section Search

variable {places : List SourcePlace}

lemma getD_contentPlaces {front back : List SourcePlace} {place : SourcePlace} :
    (contentPlaces 0 (front ++ place :: back)).getD front.length default =
      ⟨contentLength front, place.length, place.start, place.stop⟩ := by
  rw [contentPlaces_append, List.getD_append_right _ _ _ _ (by simp)]
  simp [contentPlaces]

lemma getElem?_contentPlaces {front back : List SourcePlace} {place : SourcePlace} :
    (contentPlaces 0 (front ++ place :: back))[front.length]? =
      some ⟨contentLength front, place.length, place.start, place.stop⟩ := by
  rw [contentPlaces_append, List.getElem?_append_right (by simp)]
  simp [contentPlaces]

lemma content_falls (offset : ℕ) ⦃i j : ℕ⦄ (hij : i ≤ j) (hj : j < 0 + places.length)
    (h : decide (((contentPlaces 0 places).getD j default).content ≤ offset) = true) :
    decide (((contentPlaces 0 places).getD i default).content ≤ offset) = true := by
  rcases Nat.lt_or_eq_of_le hij with hlt | rfl
  · have hj' : j < (contentPlaces 0 places).length := by simpa using hj
    have hi' : i < (contentPlaces 0 places).length := by omega
    have hle := List.pairwise_iff_getElem.mp (content_increasing 0 places) i j hi' hj' hlt
    rw [List.getD_eq_getElem _ _ hj', decide_eq_true_eq] at h
    rw [List.getD_eq_getElem _ _ hi', decide_eq_true_eq]
    omega
  · exact h

variable (places) in
lemma startsBefore_spec (offset : ℕ) (hne : places ≠ []) :
    startsBefore (contentPlaces 0 places) offset < places.length ∧
      (startsBefore (contentPlaces 0 places) offset = 0 ∨
        ((contentPlaces 0 places).getD (startsBefore (contentPlaces 0 places) offset)
          default).content ≤ offset) ∧
      ∀ j, startsBefore (contentPlaces 0 places) offset < j → j < places.length →
        offset < ((contentPlaces 0 places).getD j default).content := by
  obtain ⟨hbound, hfound, hpast⟩ := Bisect.stride_spec (content_falls offset) le_rfl
    (List.length_pos_iff.mpr hne)
  rw [startsBefore, length_contentPlaces]
  rw [Nat.zero_add] at hbound hpast
  simp only [decide_eq_true_eq] at hfound
  refine ⟨hbound, hfound, ?_⟩
  intro j hj hj'
  have hfalse := of_decide_eq_false (hpast j hj hj')
  omega

/-- The search finds the place that reads the byte. -/
lemma contentPlaceAt_reading {front back : List SourcePlace} {place : SourcePlace} {offset : ℕ}
    (hle : contentLength front ≤ offset) (hlt : offset < contentLength front + place.length) :
    contentPlaceAt (contentPlaces 0 (front ++ place :: back)) offset = front.length := by
  obtain ⟨hbound, hfound, hpast⟩ := startsBefore_spec (front ++ place :: back) offset (by simp)
  have hlength := length_contentPlaces 0 (front ++ place :: back)
  have hfront : front.length < (front ++ place :: back).length := by simp
  have heq : startsBefore (contentPlaces 0 (front ++ place :: back)) offset = front.length := by
    rcases Nat.lt_trichotomy (startsBefore (contentPlaces 0 (front ++ place :: back)) offset)
      front.length with hlow | heq | hhigh
    · have hcontent := hpast front.length hlow hfront
      rw [getD_contentPlaces] at hcontent
      exact absurd hle (Nat.not_le_of_lt hcontent)
    · exact heq
    · -- what follows the place reads nothing up to the byte
      rcases hfound with hzero | hbelow
      · omega
      · rw [← hlength] at hbound hfront
        have hle' := List.pairwise_iff_getElem.mp (content_increasing 0 (front ++ place :: back))
          front.length _ hfront hbound hhigh
        rw [← List.getD_eq_getElem _ default hfront, ← List.getD_eq_getElem _ default hbound,
          getD_contentPlaces] at hle'
        simp only at hle'
        omega
  rw [contentPlaceAt, heq]
  cases hlen : front.length with
  | zero => rfl
  | succ k =>
    rw [readBack, ← hlen, getD_contentPlaces, if_neg]
    show ¬ place.length = 0
    omega

lemma readBack_spec (table : List ContentPlace) (k : ℕ) :
    readBack table k ≤ k ∧
      (readBack table k = 0 ∨ (table.getD (readBack table k) default).length ≠ 0) ∧
      ∀ j, readBack table k < j → j ≤ k → (table.getD j default).length = 0 := by
  induction k with
  | zero => exact ⟨le_rfl, .inl rfl, fun j hj hj' => by omega⟩
  | succ k ih =>
    rw [readBack]
    split
    next hzero =>
      obtain ⟨hle, hfound, hpast⟩ := ih
      refine ⟨by omega, hfound, ?_⟩
      intro j hj hj'
      rcases Nat.lt_or_eq_of_le hj' with hlt | rfl
      · exact hpast j hj (by omega)
      · exact hzero
    next hread => exact ⟨le_rfl, .inr hread, fun j hj hj' => by omega⟩

lemma readEnd_append {front back : List SourcePlace} {place : SourcePlace}
    (hplace : place.length ≠ 0) (hback : ∀ own ∈ back, own.length = 0) :
    readEnd (front ++ place :: back) = some place.stop := by
  have hnil : back.filter (fun place => place.length ≠ 0) = [] := by
    rw [List.filter_eq_nil_iff]
    intro own hown
    simp [hback own hown]
  rw [readEnd, List.filter_append, List.filter_cons_of_pos (by simpa using hplace), hnil,
    List.getLast?_concat]
  rfl

lemma readEnd_own {place : SourcePlace} {back : List SourcePlace} (hplace : place.length = 0)
    (hback : ∀ own ∈ back, own.length = 0) : readEnd (place :: back) = some place.stop := by
  have hnil : (place :: back).filter (fun place => place.length ≠ 0) = [] := by
    rw [List.filter_eq_nil_iff]
    intro own hown
    rcases List.mem_cons.mp hown with rfl | hown
    · simp [hplace]
    · simp [hback own hown]
  rw [readEnd, hnil]
  rfl

/-- Past the content, the search finds the last place that reads some, or the first. -/
lemma contentPlaceAt_end (hne : places ≠ []) :
    ∃ place, (contentPlaces 0 places)[contentPlaceAt (contentPlaces 0 places)
        (contentLength places)]? = some place ∧
      place.content + place.length ≤ contentLength places ∧ readEnd places = some place.stop := by
  obtain ⟨hbound, -, hpast⟩ := startsBefore_spec places (contentLength places) hne
  have hlength := length_contentPlaces 0 places
  have hcontent : ∀ j, j < places.length →
      ((contentPlaces 0 places).getD j default).content +
        ((contentPlaces 0 places).getD j default).length ≤ contentLength places := by
    intro j hj
    rw [List.getD_eq_getElem _ _ (by omega)]
    have hle := (content_mem (List.getElem_mem (l := contentPlaces 0 places) (n := j)
      (by omega))).2
    omega
  have hlast : startsBefore (contentPlaces 0 places) (contentLength places) = places.length - 1 := by
    apply Classical.byContradiction
    intro hne'
    have hlt := hpast (places.length - 1) (by omega) (by omega)
    have hle := hcontent (places.length - 1) (by omega)
    omega
  obtain ⟨hle, hfound, hown⟩ := readBack_spec (contentPlaces 0 places) (places.length - 1)
  rw [contentPlaceAt, hlast]
  have hk : readBack (contentPlaces 0 places) (places.length - 1) < places.length := by omega
  -- the list about the place found
  obtain ⟨front, place, back, hsplit, hfront⟩ :
      ∃ front place back, places = front ++ place :: back ∧
        front.length = readBack (contentPlaces 0 places) (places.length - 1) := by
    refine ⟨places.take _, places[readBack (contentPlaces 0 places) (places.length - 1)],
      places.drop (readBack (contentPlaces 0 places) (places.length - 1) + 1), ?_,
      List.length_take_of_le hk.le⟩
    rw [← List.drop_eq_getElem_cons hk, List.take_append_drop]
  rw [← hfront] at hfound hown ⊢
  have hlen : places.length = front.length + back.length + 1 := by
    rw [hsplit]
    simp only [List.length_append, List.length_cons]
    omega
  have hback : ∀ own ∈ back, own.length = 0 := by
    intro own hmem
    obtain ⟨j, hj, rfl⟩ := List.mem_iff_getElem.mp hmem
    have hzero := hown (front.length + 1 + j) (by omega) (by omega)
    rw [List.getD_eq_getElem _ _ (by omega)] at hzero
    have hsource : ((contentPlaces 0 places)[front.length + 1 + j]).source = back[j] := by
      have hget : ((contentPlaces 0 places).map ContentPlace.source)[front.length + 1 + j]? =
          some back[j] := by
        rw [map_source, hsplit, List.getElem?_append_right (by omega),
          show front.length + 1 + j - front.length = j + 1 by omega, List.getElem?_cons_succ,
          List.getElem?_eq_getElem hj]
      rw [List.getElem?_map, List.getElem?_eq_getElem (by omega)] at hget
      exact Option.some.inj hget
    rw [← hsource]
    exact hzero
  subst hsplit
  refine ⟨_, getElem?_contentPlaces, ?_, ?_⟩
  · have hle := hcontent front.length (by omega)
    rwa [getD_contentPlaces] at hle
  · rw [getD_contentPlaces] at hfound
    rcases hfound with hzero | hread
    · have hnil : front = [] := List.eq_nil_of_length_eq_zero hzero
      subst hnil
      by_cases hread : place.length = 0
      · exact readEnd_own hread hback
      · exact @readEnd_append [] _ _ hread hback
    · exact readEnd_append hread hback

end Search

/-- The scan for the last place read passes those that start before the end. -/
lemma lastRead_eq {stop : ℕ} : ∀ (mid : List ContentPlace) {place : ContentPlace}
    {back : List ContentPlace} {k last : ℕ}, (∀ own ∈ mid, own.content < stop) →
    place.content < stop → place.length ≠ 0 → (∀ own ∈ back, stop ≤ own.content) →
    lastRead stop (mid ++ place :: back) k last = k + mid.length
  | [], place, back, k, last, _, hplace, hread, hback => by
    rw [List.nil_append, lastRead, if_pos hplace, if_pos hread]
    cases back with
    | nil => rfl
    | cons own back =>
      have hle := hback own List.mem_cons_self
      rw [lastRead, if_neg (by omega)]
      rfl
  | own :: mid, place, back, k, last, hmid, hplace, hread, hback => by
    rw [List.cons_append, lastRead, if_pos (hmid own List.mem_cons_self),
      lastRead_eq mid (fun own hown => hmid own (List.mem_cons_of_mem _ hown)) hplace hread hback,
      List.length_cons]
    omega

lemma lastRead_none {stop : ℕ} {back : List ContentPlace} (k last : ℕ)
    (hback : ∀ own ∈ back, stop ≤ own.content) : lastRead stop back k last = last := by
  cases back with
  | nil => rfl
  | cons own back =>
    have hle := hback own List.mem_cons_self
    rw [lastRead, if_neg (by omega)]

/-! ### The span -/

section Span

variable {places : List SourcePlace}

lemma first_reads {front : List SourcePlace} (back : List SourcePlace) {place : SourcePlace} {offset : ℕ}
    (hle : contentLength front ≤ offset) (hlt : offset < contentLength front + place.length) :
    ∃ r, readFrom (front ++ place :: back) offset = some r ∧
      (⟨contentLength front, place.length, place.start, place.stop⟩ : ContentPlace).first offset =
        r.1 := by
  refine ⟨_, readFrom_append hle hlt, ?_⟩
  rw [ContentPlace.first, if_neg (by show ¬ contentLength front + place.length ≤ offset; omega)]
  by_cases hcopied : place.stop - place.start = place.length
  · rw [if_pos hcopied, if_pos (by simpa [ContentPlace.copied] using hcopied)]
  · rw [if_neg hcopied, if_neg (by simpa [ContentPlace.copied] using hcopied)]

lemma last_reads {front : List SourcePlace} (back : List SourcePlace) {place : SourcePlace} {stop : ℕ}
    (hle : contentLength front ≤ stop - 1) (hlt : stop - 1 < contentLength front + place.length)
    (hpos : 0 < stop) :
    ∃ r, readFrom (front ++ place :: back) (stop - 1) = some r ∧
      (⟨contentLength front, place.length, place.start, place.stop⟩ : ContentPlace).last stop =
        r.2 := by
  refine ⟨_, readFrom_append hle hlt, ?_⟩
  rw [ContentPlace.last]
  by_cases hcopied : place.stop - place.start = place.length
  · rw [if_pos hcopied, if_neg]
    · show place.start + (stop - contentLength front) = _
      simp only
      omega
    · rintro (hpast | hwhole)
      · simp only at hpast
        omega
      · simp [ContentPlace.copied, hcopied] at hwhole
  · rw [if_neg hcopied, if_pos]
    right
    simpa [ContentPlace.copied] using hcopied

/-- The source a byte of a place was read from lies in it. -/
lemma readFrom_within {front back : List SourcePlace} {place : SourcePlace} {offset : ℕ}
    (hsource : place.start < place.stop) (hle : contentLength front ≤ offset)
    (hlt : offset < contentLength front + place.length) {r : ℕ × ℕ}
    (hr : readFrom (front ++ place :: back) offset = some r) :
    place.start ≤ r.1 ∧ r.1 < r.2 ∧ r.2 ≤ place.stop := by
  rw [readFrom_append hle hlt] at hr
  cases Option.some.inj hr
  by_cases hcopied : place.stop - place.start = place.length
  · rw [if_pos hcopied]
    simp only
    omega
  · rw [if_neg hcopied]
    exact ⟨le_rfl, hsource, le_rfl⟩

/-- Bytes later in the content are read from later source, or from the same place as a whole. -/
lemma readFrom_ends {front back : List SourcePlace} {place : SourcePlace} {offset later : ℕ}
    (hsource : place.start < place.stop) (hle : contentLength front ≤ offset)
    (hlater : offset ≤ later) (hlt : later < contentLength front + place.length) {r r' : ℕ × ℕ}
    (hr : readFrom (front ++ place :: back) offset = some r)
    (hr' : readFrom (front ++ place :: back) later = some r') : r.1 < r'.2 := by
  rw [readFrom_append hle (by omega)] at hr
  rw [readFrom_append (by omega) hlt] at hr'
  cases Option.some.inj hr
  cases Option.some.inj hr'
  by_cases hcopied : place.stop - place.start = place.length
  · rw [if_pos hcopied, if_pos hcopied]
    simp only
    omega
  · rw [if_neg hcopied, if_neg hcopied]
    exact hsource

/-- The span of some content: the places of its first byte and of its last, the list about them,
and the source from one to the other. -/
structure SpanReads (places front mid : List SourcePlace) (last : SourcePlace)
    (back : List SourcePlace) (start stop first ends : ℕ) : Prop where
  split : places = front ++ (mid ++ last :: back)
  span : inlineSpan (contentPlaces 0 places) start stop =
    some ⟨front.length, front.length + mid.length, first, ends⟩
  first_eq : (readFrom places start).map Prod.fst = some first
  ends_eq : (readFrom places (stop - 1)).map Prod.snd = some ends
  from_le : ∀ place ∈ (mid ++ [last]).head?, place.start ≤ first ∧ first < place.stop
  start_lt : last.start < ends
  ends_le : ends ≤ last.stop
  first_lt : first < ends

/-- Where the scan for the last place stops. -/
lemma lastRead_span {front mid back : List SourcePlace} {last : SourcePlace} {stop : ℕ}
    (hread : last.length ≠ 0) (hle : contentLength (front ++ mid) < stop)
    (hlt : stop ≤ contentLength (front ++ mid) + last.length) :
    lastRead stop ((contentPlaces 0 (front ++ (mid ++ last :: back))).drop (front.length + 1))
      (front.length + 1) front.length = front.length + mid.length := by
  have hafter : ∀ own ∈ contentPlaces (contentLength (front ++ mid) + last.length) back,
      stop ≤ own.content := by
    intro own hown
    exact hlt.trans (content_mem hown).1
  have htable : contentPlaces 0 (front ++ (mid ++ last :: back)) = contentPlaces 0 front ++
      (contentPlaces (contentLength front) mid ++
        ⟨contentLength (front ++ mid), last.length, last.start, last.stop⟩ ::
          contentPlaces (contentLength (front ++ mid) + last.length) back) := by
    rw [contentPlaces_append, contentPlaces_append, contentPlaces, contentLength_append,
      Nat.zero_add]
  rw [htable, List.drop_append, List.drop_of_length_le (by simp), List.nil_append,
    length_contentPlaces, Nat.add_sub_cancel_left]
  cases mid with
  | nil =>
    rw [contentPlaces, List.nil_append, List.drop_succ_cons, List.drop_zero]
    exact lastRead_none _ _ hafter
  | cons place mid =>
    rw [contentPlaces, List.cons_append, List.drop_succ_cons, List.drop_zero, lastRead_eq]
    · rw [length_contentPlaces, List.length_cons]
      omega
    · intro own hown
      have hle' := (content_mem hown).2
      simp only [contentLength_append, contentLength_cons] at hle
      omega
    · exact hle
    · exact hread
    · exact hafter

/-- The span of a range of some content. -/
theorem spanReads (hplaces : Placed places) {start stop : ℕ} (hlt : start < stop)
    (hstop : stop ≤ contentLength places) :
    ∃ front mid last back first ends,
      SpanReads places front mid last back start stop first ends := by
  obtain ⟨front, place, rest, hsplit, hle, hlt'⟩ :=
    exists_reading places start (by omega)
  have hlength : contentLength places = contentLength front + contentLength (place :: rest) := by
    rw [hsplit, contentLength_append]
  obtain ⟨mid, last, back, hmid, hle', hlt''⟩ := exists_reading (place :: rest)
    (stop - 1 - contentLength front) (by omega)
  have hall : places = front ++ (mid ++ last :: back) := by rw [hsplit, hmid]
  have hall' : places = (front ++ mid) ++ last :: back := by rw [hall, List.append_assoc]
  have hlast : contentLength (front ++ mid) ≤ stop - 1 ∧
      stop - 1 < contentLength (front ++ mid) + last.length := by
    rw [contentLength_append]
    omega
  obtain ⟨r, hr, hfirst⟩ := first_reads rest hle hlt'
  obtain ⟨r', hr', hends⟩ := last_reads back hlast.1 hlast.2 (by omega)
  have hsource : place.start < place.stop :=
    hplaces.reads place (by simp [hsplit]) (by omega)
  have hsource' : last.start < last.stop :=
    hplaces.reads last (by simp [hall]) (by omega)
  obtain ⟨hwithin, hlen, hin⟩ := readFrom_within hsource hle hlt' hr
  obtain ⟨hwithin', hlen', hin'⟩ := readFrom_within hsource' hlast.1 hlast.2 hr'
  refine ⟨front, mid, last, back, r.1, r'.2, hall, ?_, ?_, ?_, ?_, by omega, hin', ?_⟩
  · have hat : contentPlaceAt (contentPlaces 0 places) start = front.length := by
      rw [hsplit]
      exact contentPlaceAt_reading hle hlt'
    have hget : (contentPlaces 0 places)[front.length]? =
        some ⟨contentLength front, place.length, place.start, place.stop⟩ := by
      rw [hsplit]
      exact getElem?_contentPlaces
    have hscan : lastRead stop ((contentPlaces 0 places).drop (front.length + 1))
        (front.length + 1) front.length = front.length + mid.length := by
      rw [hall]
      exact lastRead_span (by omega) (by omega) (by omega)
    have hget' : (contentPlaces 0 places)[front.length + mid.length]? =
        some ⟨contentLength (front ++ mid), last.length, last.start, last.stop⟩ := by
      rw [hall', ← List.length_append]
      exact getElem?_contentPlaces
    rw [inlineSpan, hat, hget, Option.bind_some, if_pos hlt, hscan]
    simp only [hget', Option.map_some, hfirst, hends]
  · rw [hsplit, hr]
    rfl
  · rw [hall', hr']
    rfl
  · intro p hp
    have hhead : p = place := by
      cases mid with
      | nil =>
        cases hmid
        exact (Option.some.inj hp).symm
      | cons q mid =>
        cases hmid
        exact (Option.some.inj hp).symm
    rw [hhead]
    exact ⟨hwithin, by omega⟩
  · cases mid with
    | nil =>
      cases hmid
      rw [List.append_nil] at hr' hlast
      exact readFrom_ends hsource hle (by omega) (by omega) hr hr'
    | cons q mid =>
      cases hmid
      have hordered := hplaces.ordered
      rw [hall, List.pairwise_append] at hordered
      have hbefore : place.stop ≤ last.start :=
        List.rel_of_pairwise_cons hordered.2.1 (by simp)
      omega

end Span

/-! ### The runs -/

/-- Where the last of some ranges ends, or a place of its own. -/
def endsAt (base : ℤ) (found : List (ℤ × ℤ)) : ℤ := (found.getLast?.map Prod.snd).getD base

@[simp] lemma endsAt_nil (base : ℤ) : endsAt base [] = base := rfl

@[simp] lemma endsAt_concat (base : ℤ) (found : List (ℤ × ℤ)) (r : ℤ × ℤ) :
    endsAt base (found ++ [r]) = r.2 := by
  simp [endsAt]

lemma endsAt_cons (base : ℤ) (r : ℤ × ℤ) (found : List (ℤ × ℤ)) :
    endsAt base (r :: found) = endsAt r.2 found := by
  rcases List.eq_nil_or_concat found with rfl | ⟨found, last, rfl⟩
  · simp [endsAt]
  · rw [List.concat_eq_append, ← List.cons_append, endsAt_concat, endsAt_concat]

/-- A run after others is measured from where they end. -/
lemma ranges_concat (anchor : ℤ) (runs : List SourceRun) (run : SourceRun) :
    ranges anchor (runs ++ [run]) = ranges anchor runs ++
      [(endsAt anchor (ranges anchor runs) + run.lead,
        endsAt anchor (ranges anchor runs) + run.lead + run.span)] := by
  induction runs generalizing anchor with
  | nil => rfl
  | cons first runs ih =>
    rw [List.cons_append, ranges, ih, ranges, endsAt_cons, List.cons_append]

@[simp] lemma length_ranges (anchor : ℤ) (runs : List SourceRun) :
    (ranges anchor runs).length = runs.length := by
  induction runs generalizing anchor with
  | nil => rfl
  | cons run runs ih => simp [ranges, ih]

/-- A source range as one of integers. -/
def toRange (r : ℕ × ℕ) : ℤ × ℤ := (r.1, r.2)

/-- The source lies in some place of a table. -/
def LiesIn (table : List ContentPlace) (x : ℕ) : Prop :=
  ∃ place ∈ table, place.start ≤ x ∧ x < place.stop

lemma liesIn_contentPlaces {content : ℕ} {places : List SourcePlace} {x : ℕ} :
    LiesIn (contentPlaces content places) x ↔ InPlaces places x := by
  conv_rhs => rw [← map_source content places]
  simp only [InPlaces, LiesIn, List.mem_map]
  constructor
  · rintro ⟨place, hplace, hx⟩
    exact ⟨place.source, ⟨place, hplace, rfl⟩, hx⟩
  · rintro ⟨_, ⟨place, hplace, rfl⟩, hx⟩
    exact ⟨place, hplace, hx⟩

/-- What the pass found up to a place: the source from `first` to there that lies in a place, in
order and apart. -/
structure Pass.Found (pass : Pass) (table : List ContentPlace) (anchor first : ℕ)
    (found : List (ℕ × ℕ)) (upto : ℕ) : Prop where
  count_eq : pass.count = found.length
  before_eq : (pass.before : ℤ) = endsAt anchor (found.map toRange)
  last_eq : (pass.last : ℤ) = endsAt first (found.map toRange)
  apart : found.Pairwise (·.2 < ·.1)
  filled : ∀ r ∈ found, r.1 < r.2
  ended : ∀ r ∈ found, r.2 ≤ upto
  starts : ∀ r ∈ found.head?, r.1 = first
  cover : ∀ x, (∃ r ∈ found, r.1 ≤ x ∧ x < r.2) ↔ first ≤ x ∧ x < upto ∧ LiesIn table x
  runs_eq : ∀ list, pass.runs = some list → ranges anchor list.items = found.map toRange

section Pass

variable {pass : Pass} {table : List ContentPlace} {anchor first : ℕ} {found : List (ℕ × ℕ)}

/-- A run of source that all lies in a place. -/
lemma Pass.Found.emit (h : pass.Found table anchor first found pass.start)
    (hended : ∀ r ∈ found, r.2 < pass.start) (hstarts : found = [] → pass.start = first)
    (hfirst : first ≤ pass.start) {list : RunList} (hlist : pass.runs = some list)
    (hroom : list.items.length < list.room) {stop : ℕ} (hfilled : pass.start < stop)
    (hhere : ∀ x, pass.start ≤ x → x < stop → LiesIn table x) :
    ∃ pass' list', pass.emit stop = some pass' ∧ pass'.runs = some list' ∧
      list'.items.length = list.items.length + 1 ∧ list'.room = list.room ∧
      pass'.start = pass.start ∧
      pass'.Found table anchor first (found ++ [(pass.start, stop)]) stop := by
  refine ⟨⟨pass.count + 1, stop, pass.start, stop, some { list with
      items := list.items ++ [⟨(pass.start : ℤ) - pass.before, stop - pass.start⟩] }⟩, _, ?_, rfl,
    by simp, rfl, rfl, ?_⟩
  · simp only [Pass.emit, hlist, RunList.write, if_pos hroom, Option.map_some]
  · constructor
    · simp [h.count_eq]
    · simp [toRange]
    · simp [toRange]
    · rw [List.pairwise_append]
      refine ⟨h.apart, List.pairwise_singleton _ _, ?_⟩
      intro r hr r' hr'
      rw [List.mem_singleton.mp hr']
      exact hended r hr
    · intro r hr
      rcases List.mem_append.mp hr with hr | hr
      · exact h.filled r hr
      · rw [List.mem_singleton.mp hr]
        exact hfilled
    · intro r hr
      rcases List.mem_append.mp hr with hr | hr
      · exact (hended r hr).le.trans hfilled.le
      · rw [List.mem_singleton.mp hr]
    · intro r hr
      cases found with
      | nil =>
        cases Option.some.inj hr
        exact hstarts rfl
      | cons head found => exact h.starts r hr
    · intro x
      constructor
      · rintro ⟨r, hr, hx⟩
        rcases List.mem_append.mp hr with hr | hr
        · obtain ⟨hle, hlt, hlies⟩ := (h.cover x).mp ⟨r, hr, hx⟩
          exact ⟨hle, hlt.trans hfilled, hlies⟩
        · rw [List.mem_singleton.mp hr] at hx
          exact ⟨hfirst.trans hx.1, hx.2, hhere x hx.1 hx.2⟩
      · rintro ⟨hle, hlt, hlies⟩
        rcases Nat.lt_or_ge x pass.start with hbefore | hge
        · obtain ⟨r, hr, hx⟩ := (h.cover x).mpr ⟨hle, hbefore, hlies⟩
          exact ⟨r, List.mem_append_left _ hr, hx⟩
        · exact ⟨(pass.start, stop), by simp, hge, hlt⟩
    · intro list' hlist'
      cases Option.some.inj hlist'
      rw [ranges_concat, h.runs_eq list hlist, ← h.before_eq, List.map_append]
      congr 2
      simp only [toRange, Prod.mk.injEq]
      omega

/-- The pass goes on to the next place, where what it passes lies in none. -/
lemma Pass.Found.go {upto next : ℕ} (h : pass.Found table anchor first found upto)
    (hnext : upto ≤ next) (hgap : ∀ x, upto ≤ x → x < next → ¬ LiesIn table x) (start : ℕ) :
    ({ pass with start } : Pass).Found table anchor first found next := by
  refine { h with ended := ?_, cover := ?_ }
  · intro r hr
    exact (h.ended r hr).trans hnext
  · intro x
    rw [h.cover x]
    constructor
    · rintro ⟨hle, hlt, hlies⟩
      exact ⟨hle, hlt.trans_le hnext, hlies⟩
    · rintro ⟨hle, hlt, hlies⟩
      refine ⟨hle, ?_, hlies⟩
      apply Nat.lt_of_not_le
      intro hge
      exact hgap x hge hlt hlies

/-- What the loop keeps: nothing from where the next run starts to the end of the place it stands
at lies outside a place, and there is room for a run at each place left. -/
structure Pass.Stands (pass : Pass) (table : List ContentPlace) (anchor first : ℕ)
    (found : List (ℕ × ℕ)) (list : RunList) (stop ends left : ℕ) : Prop where
  reads : pass.Found table anchor first found pass.start
  ended : ∀ r ∈ found, r.2 < pass.start
  fresh : found = [] → pass.start = first
  first_le : first ≤ pass.start
  start_le : pass.start ≤ ends
  first_lt : first < ends
  start_lt : pass.start < stop
  here : ∀ x, pass.start ≤ x → x < ends → LiesIn table x
  runs_eq : pass.runs = some list
  room : list.items.length + left < list.room

/-- Between two places of a list next to each other lies nothing of it. -/
lemma not_lies_between {front back : List ContentPlace} {place next : ContentPlace} {x : ℕ}
    (hordered : (front ++ place :: next :: back).Pairwise (·.stop ≤ ·.start))
    (hle : ∀ p ∈ front ++ place :: next :: back, p.start ≤ p.stop) (hx : place.stop ≤ x)
    (hx' : x < next.start) : ¬ LiesIn (front ++ place :: next :: back) x := by
  rintro ⟨p, hp, hstart, hstop⟩
  rw [List.pairwise_append, List.pairwise_cons, List.pairwise_cons] at hordered
  obtain ⟨-, ⟨-, hback, -⟩, hfront⟩ := hordered
  rcases List.mem_append.mp hp with hp | hp
  · have hbefore := hfront p hp place List.mem_cons_self
    have hplace := hle place (by simp)
    omega
  · rcases List.mem_cons.mp hp with rfl | hp
    · omega
    · rcases List.mem_cons.mp hp with rfl | hp
      · omega
      · have hafter := hback p hp
        have hnext := hle next (by simp)
        omega

/-- The loop passes each place before the last, with a run at each gap. -/
lemma passGaps_spec {stop : ℕ} {last : ContentPlace} {back : List ContentPlace}
    (hlast : last.start < stop) (hstop : stop ≤ last.stop) :
    ∀ (mid front : List ContentPlace) (pass : Pass) (found : List (ℕ × ℕ)) (list : RunList),
      table = front ++ (mid ++ last :: back) → table.Pairwise (·.stop ≤ ·.start) →
      (∀ p ∈ table, p.start ≤ p.stop) → (∀ p ∈ (mid ++ [last]).head?,
        pass.Stands table anchor first found list stop p.stop mid.length) →
      ∃ pass' found' list', passGaps stop (mid ++ last :: back) pass = some pass' ∧
        pass'.Stands table anchor first found' list' stop last.stop 0 := by
  intro mid
  induction mid with
  | nil =>
    intro front pass found list _ _ _ hstands
    refine ⟨pass, found, list, ?_, hstands last rfl⟩
    cases back with
    | nil => rfl
    | cons next back => rw [List.nil_append, passGaps, if_neg (by omega)]
  | cons place mid ih =>
    intro front pass found list htable hordered hle hstands
    have h := hstands place rfl
    obtain ⟨next, rest, hnext, hhead⟩ :
        ∃ next rest, mid ++ last :: back = next :: rest ∧ (mid ++ [last]).head? = some next := by
      cases mid with
      | nil => exact ⟨last, back, rfl, rfl⟩
      | cons next mid => exact ⟨next, mid ++ last :: back, rfl, rfl⟩
    have htable' : table = front ++ place :: next :: rest := by
      rw [htable, List.cons_append, hnext]
    have hordered' := hordered
    rw [htable', List.pairwise_append, List.pairwise_cons, List.pairwise_cons] at hordered'
    have hafter : ∀ p ∈ next :: rest, place.stop ≤ p.start := hordered'.2.1.1
    have hmem : last ∈ next :: rest := by
      rw [← hnext]
      simp
    have hplace : place.stop < stop := (hafter last hmem).trans_lt hlast
    have hnextle : next.start ≤ next.stop := hle next (by rw [htable']; simp)
    have hplacenext : place.stop ≤ next.start := hafter next List.mem_cons_self
    have hnextstart : next.start < stop := by
      rcases List.mem_cons.mp hmem with heq | hmem
      · rwa [← heq]
      · have hbefore : next.stop ≤ last.start := hordered'.2.1.2.1 last hmem
        omega
    have hlies : ∀ x, next.start ≤ x → x < next.stop → LiesIn table x := by
      intro x hx hx'
      exact ⟨next, by rw [htable']; simp, hx, hx'⟩
    have hlength : (place :: mid).length = mid.length + 1 := rfl
    have hroom := h.room
    rw [hlength] at hroom
    have htable'' : table = (front ++ [place]) ++ (mid ++ last :: back) := by
      rw [htable]
      simp
    rw [List.cons_append, hnext, passGaps, if_pos hplace, ← hnext]
    by_cases htouch : next.start ≤ place.stop
    · -- the places touch, and the run goes on
      rw [if_pos htouch]
      apply ih (front ++ [place]) pass found list htable'' hordered hle
      intro p hp
      have hp : p = next := Option.some.inj (hp.symm.trans hhead)
      subst hp
      refine { h with start_le := ?_, first_lt := ?_, here := ?_, room := by omega }
      · exact h.start_le.trans (hplacenext.trans hnextle)
      · exact h.first_lt.trans_le (hplacenext.trans hnextle)
      · intro x hx hx'
        rcases Nat.lt_or_ge x place.stop with hlt | hge
        · exact h.here x hx hlt
        · exact hlies x (htouch.trans hge) hx'
    · rw [if_neg htouch]
      have hgap : ∀ x, place.stop ≤ x → x < next.start → ¬ LiesIn table x := by
        intro x hx hx'
        rw [htable'] at hordered hle ⊢
        exact not_lies_between hordered hle hx hx'
      by_cases hfilled : pass.start < place.stop
      · obtain ⟨pass', list', hemit, hlist', hlen, hroom', hstart, hfound⟩ :=
          h.reads.emit h.ended h.fresh h.first_le h.runs_eq (by omega) hfilled h.here
        rw [if_pos hfilled, hemit, Option.bind_some, if_pos (by omega)]
        apply ih (front ++ [place]) _ (found ++ [(pass.start, place.stop)]) list' htable''
          hordered hle
        intro p hp
        have hp : p = next := Option.some.inj (hp.symm.trans hhead)
        subst hp
        have hfirst := h.first_le
        constructor
        · exact hfound.go hplacenext hgap p.start
        · intro r hr
          exact (hfound.ended r hr).trans_lt (Nat.lt_of_not_le htouch)
        · intro hnil
          simp at hnil
        · show first ≤ p.start
          omega
        · exact hnextle
        · omega
        · exact hnextstart
        · exact hlies
        · exact hlist'
        · omega
      · -- nothing lies between the gap before the place and the one after
        have hstart : pass.start = place.stop := le_antisymm h.start_le (Nat.le_of_not_lt hfilled)
        rw [if_neg hfilled, Option.bind_some, if_pos (by omega)]
        apply ih (front ++ [place]) _ found list htable'' hordered hle
        intro p hp
        have hp : p = next := Option.some.inj (hp.symm.trans hhead)
        subst hp
        have hfirst := h.first_lt
        have hnext' : pass.start ≤ p.start := by omega
        constructor
        · exact h.reads.go hnext' (by rwa [hstart]) p.start
        · intro r hr
          have hended := h.ended r hr
          show r.2 < p.start
          omega
        · intro hnil
          have hfresh := h.fresh hnil
          omega
        · show first ≤ p.start
          omega
        · exact hnextle
        · omega
        · exact hnextstart
        · exact hlies
        · exact h.runs_eq
        · omega

end Pass

/-! ### With no list -/

lemma emit_none {pass pass' : Pass} {stop : ℕ} (h : pass.emit stop = some pass') :
    ({ pass with runs := none } : Pass).emit stop = some { pass' with runs := none } := by
  rw [Pass.emit] at h
  obtain ⟨runs, -, rfl⟩ := Option.map_eq_some_iff.mp h
  rfl

lemma passGaps_none {stop : ℕ} {places : List ContentPlace} : ∀ {pass pass' : Pass},
    passGaps stop places pass = some pass' →
    passGaps stop places { pass with runs := none } = some { pass' with runs := none } := by
  induction places with
  | nil =>
    intro pass pass' h
    cases Option.some.inj h
    rfl
  | cons place places ih =>
    intro pass pass' h
    cases places with
    | nil =>
      cases Option.some.inj h
      rfl
    | cons next places =>
      rw [passGaps] at h ⊢
      by_cases hstop : place.stop < stop
      · rw [if_pos hstop] at h ⊢
        by_cases htouch : next.start ≤ place.stop
        · rw [if_pos htouch] at h ⊢
          exact ih h
        · rw [if_neg htouch] at h ⊢
          by_cases hfilled : pass.start < place.stop
          · rw [if_pos hfilled] at h ⊢
            obtain ⟨after, hafter, h⟩ := Option.bind_eq_some_iff.mp h
            rw [emit_none hafter, Option.bind_some]
            exact ih h
          · rw [if_neg hfilled] at h ⊢
            exact ih h
      · rw [if_neg hstop] at h ⊢
        cases Option.some.inj h
        rfl

/-- The window is the same with no list. -/
lemma inlineRuns_none {table : List ContentPlace} {span : InlineSpan} {anchor : ℕ}
    {list : RunList} {window : ℕ × ℕ} {runs : Option RunList}
    (h : inlineRuns table span anchor (some list) = some (window, runs)) :
    inlineRuns table span anchor none = some (window, none) := by
  rw [inlineRuns] at h ⊢
  obtain ⟨pass, hpass, h⟩ := Option.bind_eq_some_iff.mp h
  obtain ⟨pass', hpass', h⟩ := Option.map_eq_some_iff.mp h
  have hgaps : (if span.first < span.stop then
      passGaps span.stop (skipEnded span.first (table.drop span.place))
        ⟨0, anchor, span.first, span.first, none⟩
      else some ⟨0, anchor, span.first, span.first, none⟩) = some { pass with runs := none } := by
    split at hpass
    next hlt =>
      rw [if_pos hlt]
      exact passGaps_none hpass
    next hge =>
      rw [if_neg hge]
      cases Option.some.inj hpass
      rfl
  have hlast : (if pass.start < span.stop ∨ pass.count = 0 then
      ({ pass with runs := none } : Pass).emit
        (if pass.start < span.stop then span.stop else pass.start)
      else some { pass with runs := none }) = some { pass' with runs := none } := by
    split at hpass'
    next hemit =>
      rw [if_pos hemit]
      exact emit_none hpass'
    next hstay =>
      rw [if_neg hstay]
      cases Option.some.inj hpass'
      rfl
  rw [hgaps, Option.bind_some, hlast, Option.map_some]
  cases h
  rfl

/-! ### The runs of a content range -/

lemma placed_table {places : List SourcePlace} (hplaces : Placed places) :
    (contentPlaces 0 places).Pairwise (·.stop ≤ ·.start) ∧
      ∀ p ∈ contentPlaces 0 places, p.start ≤ p.stop := by
  constructor
  · have hordered := hplaces.ordered
    rw [← map_source 0 places, List.pairwise_map] at hordered
    exact hordered
  · intro p hp
    have hmem : p.source ∈ places := by
      rw [← map_source 0 places]
      exact List.mem_map_of_mem hp
    exact hplaces.start_le _ hmem

/-- A range of no content: one run of no source, where its start is read from. -/
lemma inlineRuns_empty (table : List ContentPlace) (place first anchor : ℕ) :
    inlineRuns table ⟨place, place, first, first⟩ anchor (some ⟨1, []⟩) =
      some ((first, first), some ⟨1, [⟨(first : ℤ) - anchor, 0⟩]⟩) := by
  simp [inlineRuns, Pass.emit, RunList.write]

lemma inlineSpan_empty {table : List ContentPlace} {start : ℕ} {place : ContentPlace}
    (h : table[contentPlaceAt table start]? = some place) :
    inlineSpan table start start = some ⟨contentPlaceAt table start, contentPlaceAt table start,
      place.first start, place.first start⟩ := by
  simp [inlineSpan, h]

lemma exists_readStart {places : List SourcePlace} (hne : places ≠ []) {start : ℕ}
    (hstart : start ≤ contentLength places) :
    ∃ first, readStart places start = some first ∧
      inlineSpan (contentPlaces 0 places) start start =
        some ⟨contentPlaceAt (contentPlaces 0 places) start,
          contentPlaceAt (contentPlaces 0 places) start, first, first⟩ := by
  rcases Nat.lt_or_eq_of_le hstart with hlt | rfl
  · obtain ⟨front, place, back, hsplit, hle, hlt'⟩ := exists_reading places start hlt
    obtain ⟨r, hr, hfirst⟩ := first_reads back hle hlt'
    refine ⟨r.1, ?_, ?_⟩
    · rw [readStart, hsplit, hr]
      rfl
    · have hget : (contentPlaces 0 places)[contentPlaceAt (contentPlaces 0 places) start]? =
          some ⟨contentLength front, place.length, place.start, place.stop⟩ := by
        rw [hsplit, contentPlaceAt_reading hle hlt']
        exact getElem?_contentPlaces
      rw [inlineSpan_empty hget, hfirst]
  · obtain ⟨place, hplace, hpast, hend⟩ := contentPlaceAt_end hne
    have hnone : readFrom places (contentLength places) = none := by
      clear hplace hpast hend hne hstart
      induction places with
      | nil => rfl
      | cons first places ih =>
        rw [readFrom, if_neg (by rw [contentLength_cons]; omega), contentLength_cons,
          Nat.add_sub_cancel_left, ih]
    refine ⟨place.stop, ?_, ?_⟩
    · rw [readStart, hnone, hend]
      rfl
    · rw [inlineSpan_empty hplace, ContentPlace.first, if_pos hpast]

/-- The runs of a range of some content. -/
lemma inlineRuns_spec {places front mid back : List SourcePlace} {last : SourcePlace}
    {start stop first ends : ℕ} (hplaces : Placed places)
    (h : SpanReads places front mid last back start stop first ends) (anchor : ℕ) :
    ∃ (list : RunList) (found : List (ℕ × ℕ)), inlineRuns (contentPlaces 0 places)
        ⟨front.length, front.length + mid.length, first, ends⟩ anchor
          (some ⟨mid.length + 1, []⟩) = some ((first, ends), some list) ∧
      ranges anchor list.items = found.map toRange ∧ found.Pairwise (·.2 < ·.1) ∧
      (∀ r ∈ found, r.1 < r.2) ∧
      (∀ x, (∃ r ∈ found, r.1 ≤ x ∧ x < r.2) ↔ first ≤ x ∧ x < ends ∧ InPlaces places x) ∧
      found.head?.map Prod.fst = some first ∧ found.getLast?.map Prod.snd = some ends := by
  obtain ⟨hordered, hle⟩ := placed_table hplaces
  have hlt := h.first_lt
  have htable : contentPlaces 0 places = contentPlaces 0 front ++
      (contentPlaces (contentLength front) mid ++
        ⟨contentLength (front ++ mid), last.length, last.start, last.stop⟩ ::
          contentPlaces (contentLength (front ++ mid) + last.length) back) := by
    rw [h.split, contentPlaces_append, contentPlaces_append, contentPlaces, contentLength_append,
      Nat.zero_add]
  have hdrop : (contentPlaces 0 places).drop front.length =
      contentPlaces (contentLength front) mid ++
        ⟨contentLength (front ++ mid), last.length, last.start, last.stop⟩ ::
          contentPlaces (contentLength (front ++ mid) + last.length) back := by
    rw [htable, List.drop_append, List.drop_of_length_le (by simp), List.nil_append,
      length_contentPlaces, Nat.sub_self, List.drop_zero]
  -- the pass starts at the place its first byte is read from
  have hhead : ∀ p ∈ (contentPlaces (contentLength front) mid ++
      [(⟨contentLength (front ++ mid), last.length, last.start, last.stop⟩ :
        ContentPlace)]).head?, p.start ≤ first ∧ first < p.stop := by
    intro p hp
    cases mid with
    | nil =>
      cases Option.some.inj hp
      exact h.from_le last rfl
    | cons place mid =>
      cases Option.some.inj hp
      exact h.from_le place rfl
  have hskip : skipEnded first ((contentPlaces 0 places).drop front.length) =
      (contentPlaces 0 places).drop front.length := by
    rw [hdrop]
    cases mid with
    | nil =>
      have hlast := (hhead _ rfl).2
      rw [contentPlaces, List.nil_append]
      cases back with
      | nil => rfl
      | cons next back => rw [contentPlaces, skipEnded, if_neg (by omega)]
    | cons place mid =>
      have hplace := (hhead _ rfl).2
      rw [contentPlaces, List.cons_append]
      cases mid with
      | nil => rw [contentPlaces, List.nil_append, skipEnded, if_neg (by omega)]
      | cons next mid => rw [contentPlaces, List.cons_append, skipEnded, if_neg (by omega)]
  have hstands : ∀ p ∈ (contentPlaces (contentLength front) mid ++
      [(⟨contentLength (front ++ mid), last.length, last.start, last.stop⟩ :
        ContentPlace)]).head?,
      (⟨0, anchor, first, first, some ⟨mid.length + 1, []⟩⟩ : Pass).Stands (contentPlaces 0 places)
        anchor first [] ⟨mid.length + 1, []⟩ ends p.stop
          (contentPlaces (contentLength front) mid).length := by
    intro p hp
    obtain ⟨hfrom, hfirst⟩ := hhead p hp
    have hmem : p ∈ contentPlaces 0 places := by
      rw [htable]
      apply List.mem_append_right
      have hmem := List.mem_of_mem_head? hp
      rcases List.mem_append.mp hmem with hmem | hmem
      · exact List.mem_append_left _ hmem
      · rw [List.mem_singleton.mp hmem]
        simp
    constructor
    · constructor
      · rfl
      · rfl
      · rfl
      · exact .nil
      · simp
      · simp
      · simp
      · intro x
        simp only [List.not_mem_nil, false_and, exists_false, false_iff]
        omega
      · intro list hlist
        cases Option.some.inj hlist
        rfl
    · simp
    · intro _
      rfl
    · exact le_rfl
    · exact hfirst.le
    · exact hfirst
    · exact hlt
    · intro x hx hx'
      exact ⟨p, hmem, hfrom.trans hx, hx'⟩
    · rfl
    · simp
  obtain ⟨pass, found, list, hpass, hdone⟩ := passGaps_spec h.start_lt h.ends_le _ _ _ _ _ htable
    hordered hle hstands
  obtain ⟨pass', list', hemit, hlist', hlen, hroom, hstart, hfound⟩ :=
    hdone.reads.emit hdone.ended hdone.fresh hdone.first_le hdone.runs_eq (by
      have hroom := hdone.room
      omega) hdone.start_lt (fun x hx hx' => hdone.here x hx (hx'.trans_le h.ends_le))
  refine ⟨list', found ++ [(pass.start, ends)], ?_, hfound.runs_eq list' hlist', hfound.apart,
    hfound.filled, ?_, ?_, ?_⟩
  · have hlast : pass'.last = ends := by
      have hlast := hfound.last_eq
      rw [List.map_append, List.map_singleton, endsAt_concat] at hlast
      exact Int.ofNat.inj hlast
    rw [inlineRuns, if_pos hlt, hskip, hdrop, hpass, Option.bind_some,
      if_pos (.inl hdone.start_lt), if_pos hdone.start_lt, hemit, Option.map_some, hlast, hlist']
  · intro x
    rw [hfound.cover x, liesIn_contentPlaces]
  · cases hhead' : (found ++ [(pass.start, ends)]).head? with
    | none => simp at hhead'
    | some r => rw [Option.map_some, hfound.starts r hhead']
  · rw [List.getLast?_concat]
    rfl

/-- The runs of a content range are the source from where its first byte was read to where its last
was, less what lies in no place; they fit the room reserved for them, and the window is the same
with no list. -/
theorem inline_runs_cover {places : List SourcePlace} (hplaces : Placed places)
    (hne : places ≠ []) {start stop : ℕ} (hle : start ≤ stop)
    (hstop : stop ≤ contentLength places) (anchor : ℕ) :
    ∃ (span : InlineSpan) (list : RunList) (found : List (ℕ × ℕ)) (window : ℕ × ℕ),
      inlineSpan (contentPlaces 0 places) start stop = some span ∧
      inlineRuns (contentPlaces 0 places) span anchor
        (some ⟨span.last - span.place + 1, []⟩) = some (window, some list) ∧
      inlineRuns (contentPlaces 0 places) span anchor none = some (window, none) ∧
      ranges anchor list.items = found.map toRange ∧ RunsOf places start stop found window := by
  rcases Nat.lt_or_eq_of_le hle with hlt | rfl
  · obtain ⟨front, mid, last, back, first, ends, h⟩ := spanReads hplaces hlt hstop
    obtain ⟨list, found, hruns, hranges, hapart, hfilled, hcover, hhead, hlast⟩ :=
      inlineRuns_spec hplaces h anchor
    have hroom : (⟨front.length, front.length + mid.length, first, ends⟩ : InlineSpan).last -
        (⟨front.length, front.length + mid.length, first, ends⟩ : InlineSpan).place + 1 =
          mid.length + 1 := by
      simp
    refine ⟨_, list, found, (first, ends), h.span, ?_, inlineRuns_none hruns, hranges, hapart,
      .inl hfilled, ⟨first, ends, ?_, ?_, hcover⟩, hhead, hlast⟩
    · rw [hroom]
      exact hruns
    · rw [readStart, h.first_eq]
      rfl
    · rw [readStop, if_pos hlt, h.ends_eq]
  · obtain ⟨first, hfirst, hspan⟩ := exists_readStart hne hstop
    have hruns := inlineRuns_empty (contentPlaces 0 places)
      (contentPlaceAt (contentPlaces 0 places) start) first anchor
    refine ⟨_, ⟨1, [⟨(first : ℤ) - anchor, 0⟩]⟩, [(first, first)], (first, first), hspan, ?_,
      inlineRuns_none hruns, ?_, ?_⟩
    · simp only [Nat.sub_self, Nat.zero_add]
      exact hruns
    · simp [ranges, toRange]
    · refine ⟨List.pairwise_singleton _ _, .inr rfl, ⟨first, first, hfirst, ?_, ?_⟩, rfl, rfl⟩
      · rw [readStop, if_neg (lt_irrefl start), hfirst]
      · intro x
        simp only [List.mem_singleton, exists_eq_left]
        constructor
        · intro hx
          omega
        · intro hx
          omega

/-- Content of a line, the end of the line and its own source between, and a tab read whole. -/
def samplePlaces : List SourcePlace := [⟨2, 5, 3⟩, ⟨7, 9, 0⟩, ⟨9, 10, 4⟩, ⟨12, 14, 2⟩]

theorem inline_runs_cover_sample :
    ∃ (span : InlineSpan) (list : RunList) (found : List (ℕ × ℕ)) (window : ℕ × ℕ),
      inlineSpan (contentPlaces 0 samplePlaces) 1 9 = some span ∧
      inlineRuns (contentPlaces 0 samplePlaces) span 0
        (some ⟨span.last - span.place + 1, []⟩) = some (window, some list) ∧
      inlineRuns (contentPlaces 0 samplePlaces) span 0 none = some (window, none) ∧
      ranges ((0 : ℕ) : ℤ) list.items = found.map toRange ∧ RunsOf samplePlaces 1 9 found window :=
  inline_runs_cover ⟨by decide, by decide, by decide⟩ (by decide) (by decide) (by decide) 0

end MarkdownCore.Source
