import MarkdownCore.Roster.Tracks

/-!
# What a call does to the log

A declaration and a withdrawal lengthen the log, a lookup leaves it and answers the earliest that
stands, and a record popped shortens it, whether the index has taken the record or not.
-/

namespace MarkdownCore.Declarations

variable {r r' : Roster} {log : List Event} {cursor : Kind → ℕ} {lists : Key → List ℕ}

/-! ### The log longer -/

/-- What of a record its event says. -/
def Record.face (record : Record) : Key × ℕ × Bool × Bool × Bool :=
  (record.key, record.start, record.withdraws, record.back, record.gone)

lemma face_of_bare {a b : Record} (h : a.bare = b.bare) : a.face = b.face := by
  have hface : a.bare.face = b.bare.face := congrArg Record.face h
  exact hface

/-- The records of a log one event longer. -/
lemma Recorded.next (h : Recorded r log) {e : Event} (hcount : r'.count = log.length + 1)
    (hplaced : r'.placed = false) (hhidden : r'.hidden = false)
    (hold : ∀ id ≠ log.length, (r'.records id).face = (r.records id).face)
    (hnew : (r'.records log.length).face = (e.key, e.start, e.withdraws, false, false))
    (hwithdrawn : ∀ id key start, (log ++ [e])[id]? = some (.declare key start) →
      ((r'.records id).withdrawn = false ↔ ∃ d ∈ standing (log ++ [e]), d.id = id))
    (hbefore : ∀ id key start, log[id]? = some (.withdraw key start) →
      (r'.records id).before = (r.records id).before)
    (hends : ∀ key start, e = .withdraw key start → ∃ w,
      (r'.records log.length).before = some w ∧ target (standing log) key start = some w) :
    Recorded r' (log ++ [e]) := by
  have hat : ∀ id e', (log ++ [e])[id]? = some e' →
      id < log.length ∧ log[id]? = some e' ∨ id = log.length ∧ e' = e := by
    intro id e' he'
    rcases Nat.lt_trichotomy id log.length with hlt | heq | hgt
    · rw [List.getElem?_append_left hlt] at he'
      exact Or.inl ⟨hlt, he'⟩
    · rw [heq, List.getElem?_concat_length, Option.some_inj] at he'
      exact Or.inr ⟨heq, he'.symm⟩
    · have hlong : (log ++ [e]).length ≤ id := by
        rw [List.length_append, List.length_singleton]
        exact hgt
      rw [List.getElem?_eq_none hlong] at he'
      cases he'
  have hface : ∀ id e', (log ++ [e])[id]? = some e' →
      (r'.records id).face = (e'.key, e'.start, e'.withdraws, false, false) := by
    intro id e' he'
    rcases hat id e' he' with ⟨hlt, hlog⟩ | ⟨rfl, rfl⟩
    · rw [hold id hlt.ne, Record.face, h.key id e' hlog, h.start id e' hlog, h.withdraws id e' hlog,
        h.front id, h.here id]
    · exact hnew
  have hflags : ∀ id, (r'.records id).back = false ∧ (r'.records id).gone = false := by
    intro id
    have hsame : (r'.records id).face.2.2.2 = (false, false) := by
      by_cases hid : id = log.length
      · rw [hid, hnew]
      · rw [hold id hid, Record.face, h.front id, h.here id]
    exact Prod.mk.inj hsame
  refine ⟨by rw [hcount, List.length_append, List.length_singleton], hplaced, hhidden,
    fun id e' he' => congrArg Prod.fst (hface id e' he'),
    fun id e' he' => congrArg (fun face => face.2.1) (hface id e' he'),
    fun id e' he' => congrArg (fun face => face.2.2.1) (hface id e' he'),
    fun id => (hflags id).1, fun id => (hflags id).2, hwithdrawn, fun id key start he' => ?_⟩
  rcases hat id _ he' with ⟨hlt, hlog⟩ | ⟨rfl, heq⟩
  · obtain ⟨w, hw, htarget⟩ := h.before id key start hlog
    rw [hbefore id key start hlog, List.take_append_of_le_length hlt.le]
    exact ⟨w, hw, htarget⟩
  · rw [List.take_left' rfl]
    exact hends key start heq.symm

/-- Lists that none of the changed records is in are as they were. -/
lemma Lists.congr (h : Lists r lists) (hindex : r'.index = r.index) (hcount : r.count ≤ r'.count)
    (hsame : ∀ key, ∀ y ∈ lists key, r'.records y = r.records y) : Lists r' lists := by
  refine ⟨fun key => by rw [hindex, h.index], fun key => (h.linked key).congr (hsame key),
    fun key y hy => by rw [hsame key y hy, h.key key y hy],
    fun key y hy => (h.lt key y hy).trans_le hcount, fun key => ?_⟩
  refine (h.ordered key).imp_of_mem fun {a b} ha hb hab => ?_
  rw [hsame key a ha, hsame key b hb]
  exact hab

lemma append_records (kind : Kind) (label : Label) (start : ℕ) (withdraws : Bool) (id : ℕ) :
    (r.append kind label start withdraws).records id = if id = r.count
      then { Record.zero with key := (kind, label), start, withdraws } else r.records id :=
  Function.update_apply _ _ _ _

lemma append_spaces (kind : Kind) (label : Label) (start : ℕ) (withdraws : Bool) (k : Kind) :
    (r.append kind label start withdraws).spaces k = if k = kind
      then { r.spaces kind with records := (r.spaces kind).records + 1 } else r.spaces k :=
  Function.update_apply _ _ _ _

/-- A record appended is in no list. -/
lemma Lists.append (h : Lists r lists) (kind : Kind) (label : Label) (start : ℕ)
    (withdraws : Bool) : Lists (r.append kind label start withdraws) lists := by
  refine h.congr rfl (Nat.le_succ _) fun key y hy => ?_
  rw [append_records, if_neg (h.lt key y hy).ne]

/-! ### A declaration -/

lemma Recorded.declared (h : Recorded r log) (kind : Kind) (label : Label) (start : ℕ) :
    Recorded (r.append kind label start false) (log ++ [.declare (kind, label) start]) := by
  have hrecords := append_records (r := r) kind label start false
  refine h.next (by rw [← h.count]; rfl) h.placed h.hidden (fun id hid => ?_) ?_
    (fun id key start' he => ?_) (fun id key start' he => ?_) fun key start' he => nomatch he
  · rw [hrecords, if_neg (by rw [h.count]; exact hid)]
  · rw [hrecords, if_pos h.count.symm]
    rfl
  · simp only [mem_standing_declare]
    rw [hrecords]
    split
    next heq =>
      refine iff_of_true rfl ⟨_, Or.inr rfl, ?_⟩
      rw [heq, h.count]
    next hne =>
      have hlt : id < log.length := by
        have hless := (List.getElem?_eq_some_iff.mp he).1
        rw [List.length_append, List.length_singleton] at hless
        rw [h.count] at hne
        omega
      rw [List.getElem?_append_left hlt] at he
      rw [h.withdrawn id key start' he]
      constructor
      · rintro ⟨d, hd, hid⟩
        exact ⟨d, Or.inl hd, hid⟩
      · rintro ⟨d, hd | rfl, hid⟩
        · exact ⟨d, hd, hid⟩
        · exact absurd hid.symm hlt.ne
  · have hlt := (List.getElem?_eq_some_iff.mp he).1
    rw [hrecords, if_neg (by rw [h.count]; exact hlt.ne)]

/-- A declaration stands after what the log declares, and the index does not hold it yet. -/
lemma Tracks.declared (h : Tracks r log) (kind : Kind) (label : Label) (start : ℕ) :
    Tracks (r.append kind label start false) (log ++ [.declare (kind, label) start]) := by
  have hr := h.recorded
  obtain ⟨lists, hi⟩ := h.indexed
  have hrecords := append_records (r := r) kind label start false
  have hspaces := append_spaces (r := r) kind label start false
  have hcursor : ∀ k, ((r.append kind label start false).spaces k).cursor =
      (r.spaces k).cursor := by
    intro k
    rw [hspaces]
    split
    next heq => rw [heq]
    next => rfl
  have hsame : ∀ key, ∀ y ∈ lists key,
      (r.append kind label start false).records y = r.records y := by
    intro key y hy
    rw [hrecords, if_neg (hi.held.lt key y hy).ne]
  refine ⟨hr.declared kind label start, lists, hi.held.append kind label start false, fun k => ?_,
    fun key id => ?_, fun key => ?_, fun id hid => ?_, fun k => ?_, fun k => ?_,
    fun id key start' he => ?_⟩
  · rw [hcursor, List.length_append]
    exact (hi.le k).trans (Nat.le_add_right _ _)
  · rw [hi.mem, hcursor]
    simp only [mem_standing_declare]
    constructor
    · rintro ⟨d, hd, hrest⟩
      exact ⟨d, Or.inl hd, hrest⟩
    · rintro ⟨d, hd | rfl, hid, hkey, hlt⟩
      · exact ⟨d, hd, hid, hkey, hlt⟩
      · rw [← hid] at hlt
        exact absurd hlt (Nat.not_lt_of_le (hi.le key.1))
  · refine (hi.ordered key).imp_of_mem fun {a b} ha hb hab => ?_
    rw [hsame key a ha, hsame key b hb]
    exact hab
  · rw [hrecords]
    split
    next heq =>
      refine iff_of_false (by simp [Record.zero]) fun hin => ?_
      exact (hi.held.lt _ id hin).ne heq
    next hne =>
      refine hi.linked id ?_
      rw [List.length_append, List.length_singleton] at hid
      rw [hr.count] at hne
      omega
  · have hkind : (Event.declare (kind, label) start).key.1 = kind := rfl
    rw [hspaces, List.countP_append, List.countP_singleton, hkind, ← hi.records]
    split
    next heq => simp [heq]
    next hne => simp [Ne.symm hne]
  · rw [hcursor, List.take_append_of_le_length (hi.le k), ← hi.indexed, hspaces]
    split
    next heq => rw [heq]
    next => rfl
  · rw [hcursor]
    rcases Nat.lt_or_ge id log.length with hlt | hge
    · rw [List.getElem?_append_left hlt] at he
      exact hi.taken id key start' he
    · rw [List.getElem?_append_right hge] at he
      have hmem := List.mem_of_getElem? he
      rw [List.mem_singleton] at hmem
      cases hmem

/-! ### Lookups -/

/-- Once the index holds all of a kind that stand, a key's first is its earliest. -/
lemma Tracks.first (h : Tracks r log) {kind : Kind} (hall : (r.spaces kind).cursor = log.length)
    (label : Label) :
    r.first (kind, label) = (earliest (standing log) (kind, label)).map Declaration.id := by
  obtain ⟨lists, hi⟩ := h.indexed
  have hmem := hi.mem (kind, label)
  rw [hall] at hmem
  have hsorted := hi.ordered (kind, label)
  rw [Roster.first, hi.held.index]
  cases hl : lists (kind, label) with
  | nil =>
    rw [hl] at hmem
    rw [earliest_eq_none (ordered_standing log)]
    · rfl
    · intro d hd hkey
      exact List.not_mem_nil ((hmem d.id).mpr ⟨d, hd, rfl, hkey, lt_of_standing hd⟩)
  | cons f l =>
    rw [hl] at hmem hsorted
    obtain ⟨d, hd, rfl, hkey, -⟩ := (hmem f).mp List.mem_cons_self
    have hearliest : earliest (standing log) d.key = some d := by
      refine earliest_eq_some (ordered_standing log) hd fun d' hd' hkey' => ?_
      have hin := (hmem d'.id).mpr ⟨d', hd', rfl, hkey'.trans hkey, lt_of_standing hd'⟩
      rcases List.mem_cons.mp hin with heq | hin
      · rw [(ordered_standing log).unique hd' hd heq]
        exact Or.inr ⟨rfl, le_rfl⟩
      · have hbefore := (List.pairwise_cons.mp hsorted).1 d'.id hin
        rw [h.recorded.standing_start hd, h.recorded.standing_start hd'] at hbefore
        exact hbefore.imp_right fun hand => ⟨hand.1, hand.2.le⟩
    rw [hkey] at hearliest
    rw [hearliest]
    simp [h.recorded.front d.id]

/-- No declaration of a kind stands where the log holds no record of it. -/
lemma Tracks.standing_none (h : Tracks r log) {kind : Kind} (hnone : (r.spaces kind).records = 0)
    (label : Label) : earliest (standing log) (kind, label) = none := by
  obtain ⟨lists, hi⟩ := h.indexed
  rw [hi.records, List.countP_eq_zero] at hnone
  refine earliest_eq_none (ordered_standing log) fun d hd hkey => ?_
  refine hnone _ (List.mem_of_getElem? (getElem?_standing hd)) (decide_eq_true ?_)
  exact congrArg Prod.fst hkey

/-- A lookup answers the earliest of the key's that stand. -/
lemma Tracks.find (h : Tracks r log) (hnamed : ∀ d ∈ standing log, d.key.2 ≠ []) (kind : Kind)
    (label : Label) : Tracks (r.find kind label).1 log ∧
      (r.find kind label).2 = (earliest (standing log) (kind, label)).map Declaration.id := by
  obtain ⟨htracks, hall⟩ := h.indexSpace kind
  rw [Roster.find]
  by_cases hlabel : label = []
  · rw [if_pos (Or.inl hlabel), earliest_eq_none (ordered_standing log)]
    · exact ⟨h, rfl⟩
    · exact fun d hd hkey => hnamed d hd (by rw [hkey, hlabel])
  · by_cases hnone : (r.spaces kind).records = 0
    · rw [if_pos (Or.inr hnone), h.standing_none hnone]
      exact ⟨h, rfl⟩
    · rw [if_neg (not_or.mpr ⟨hlabel, hnone⟩)]
      exact ⟨htracks, htracks.first hall label⟩

/-- A lookup of a label as a text spells it answers what a lookup of its normal form does, where it
is not empty and not too long. -/
lemma Tracks.findLabel (h : Tracks r log) (hnamed : ∀ d ∈ standing log, d.key.2 ≠ [])
    (normalize : Label → Label) (kind : Kind) (label : Label) :
    Tracks (r.findLabel normalize kind label).1 log ∧ (r.findLabel normalize kind label).2 =
      if label = [] ∨ Roster.maxLabel < label.length then none
      else (earliest (standing log) (kind, normalize label)).map Declaration.id := by
  have hfind := h.find hnamed kind (normalize label)
  rw [Roster.find] at hfind
  rw [Roster.findLabel]
  by_cases hlabel : label = [] ∨ Roster.maxLabel < label.length
  · have hany : label = [] ∨ Roster.maxLabel < label.length ∨ (r.spaces kind).records = 0 :=
      hlabel.imp_right Or.inl
    rw [if_pos hany, if_pos hlabel]
    exact ⟨h, rfl⟩
  · rw [if_neg hlabel]
    by_cases hnone : (r.spaces kind).records = 0
    · rw [if_pos (Or.inr (Or.inr hnone)), h.standing_none hnone]
      exact ⟨h, rfl⟩
    · have hany : ¬(label = [] ∨ Roster.maxLabel < label.length ∨ (r.spaces kind).records = 0) := by
        tauto
      rw [if_neg hany]
      by_cases hnormal : normalize label = []
      · rw [if_pos hnormal]
        rw [if_pos (Or.inl hnormal)] at hfind
        exact hfind
      · rw [if_neg hnormal]
        rw [if_neg (not_or.mpr ⟨hnormal, hnone⟩)] at hfind
        exact hfind

/-! ### A withdrawal -/

lemma mem_unlinked {l₀ l l' : List ℕ} {w : ℕ} (hnodup : l₀.Nodup) (hsplit : l₀ = l ++ w :: l')
    (y : ℕ) : y ∈ l ++ l' ↔ y ∈ l₀ ∧ y ≠ w := by
  rw [hsplit] at hnodup ⊢
  have hl : w ∉ l := fun hin =>
    (List.nodup_append.mp hnodup).2.2 w hin w List.mem_cons_self rfl
  have hl' : w ∉ l' := (List.nodup_cons.mp (List.nodup_append.mp hnodup).2.1).1
  simp only [List.mem_append, List.mem_cons]
  constructor
  · rintro (hin | hin)
    · exact ⟨Or.inl hin, fun heq => hl (heq ▸ hin)⟩
    · exact ⟨Or.inr (Or.inr hin), fun heq => hl' (heq ▸ hin)⟩
  · rintro ⟨hin | rfl | hin, hne⟩
    · exact Or.inl hin
    · exact absurd rfl hne
    · exact Or.inr hin

/-- What stands after a withdrawal is what stood but the declaration it ends; only that one's list
lost it. -/
lemma Tracks.withdrawn (h : Tracks r log) {kind : Kind}
    (hall : (r.spaces kind).cursor = log.length) {label : Label} {start : ℕ} {d : Declaration}
    (hd : d ∈ standing log) (hkey : d.key = (kind, label)) (hstart : d.start = start) :
    ∃ first count w, r.index (kind, label) = some (first, count) ∧
      r.withdrawn first start = some w ∧ target (standing log) (kind, label) start = some w := by
  obtain ⟨lists, hi⟩ := h.indexed
  have hmem := hi.mem (kind, label)
  rw [hall] at hmem
  have hsorted := hi.ordered (kind, label)
  have hlinked := hi.held.linked (kind, label)
  have hd' := (hmem d.id).mpr ⟨d, hd, rfl, hkey, lt_of_standing hd⟩
  obtain ⟨first, hfirst⟩ : ∃ first, (lists (kind, label)).head? = some first := by
    cases hl : lists (kind, label) with
    | nil =>
      rw [hl] at hd'
      exact absurd hd' List.not_mem_nil
    | cons first l => exact ⟨first, rfl⟩
  obtain ⟨p, hp⟩ : ∃ p : ℕ → Bool, p = fun at_ => decide ((r.records at_).start ≤ start) :=
    ⟨_, rfl⟩
  have hdrop : ∀ b ∈ (lists (kind, label)).dropWhile p, p b = false := by
    refine dropWhile_not (hi.held.ordered (kind, label)) fun a b ha hab => ?_
    rw [← Bool.not_eq_true, h.recorded.precedes_iff] at hab
    rw [hp] at ha ⊢
    simp only [decide_eq_false_iff_not, not_le] at ha ⊢
    omega
  have hsearch : r.search first (fun at_ => decide (r.start at_ ≤ start)) =
      ((lists (kind, label)).takeWhile p).getLast? := by
    rw [← hlinked.search hfirst (hi.held.lt (kind, label)) hdrop, hp]
    congr 1
    funext at_
    rw [Roster.start, h.recorded.front at_]
    rfl
  -- the declarations that start there are all taken, and the last of them is the last taken
  have htaken : ∀ d ∈ standing log, d.key = (kind, label) → d.start = start →
      d.id ∈ (lists (kind, label)).takeWhile p := by
    intro d hd hkey hstart
    have hin := (hmem d.id).mpr ⟨d, hd, rfl, hkey, lt_of_standing hd⟩
    rw [← List.takeWhile_append_dropWhile (p := p) (l := lists (kind, label))] at hin
    rcases List.mem_append.mp hin with hin | hin
    · exact hin
    · have hnot := hdrop d.id hin
      rw [hp] at hnot
      rw [decide_eq_false_iff_not, h.recorded.standing_start hd, hstart] at hnot
      exact absurd le_rfl hnot
  obtain ⟨w, hw⟩ : ∃ w, ((lists (kind, label)).takeWhile p).getLast? = some w := by
    cases hlast : ((lists (kind, label)).takeWhile p).getLast? with
    | none =>
      have hin := htaken d hd hkey hstart
      rw [List.getLast?_eq_none_iff.mp hlast] at hin
      exact absurd hin List.not_mem_nil
    | some w => exact ⟨w, rfl⟩
  obtain ⟨l, hl⟩ := List.getLast?_eq_some_iff.mp hw
  have hsub : ((lists (kind, label)).takeWhile p).Sublist (lists (kind, label)) :=
    (List.takeWhile_prefix p).sublist
  obtain ⟨dw, hdw, hdwid, hdwkey, -⟩ := (hmem w).mp (hsub.mem (List.mem_of_getLast? hw))
  have hwle : (r.records w).start ≤ start := by
    have hpw := List.mem_takeWhile_imp (List.mem_of_getLast? hw)
    rw [hp] at hpw
    exact of_decide_eq_true hpw
  have hbefore : ∀ d ∈ standing log, d.key = (kind, label) → d.start = start →
      d.id = w ∨ (r.records d.id).start < (r.records w).start ∨
        (r.records d.id).start = (r.records w).start ∧ d.id < w := by
    intro d hd hkey hstart
    have hin := htaken d hd hkey hstart
    have hpair := hsorted.sublist hsub
    rw [hl] at hin hpair
    rcases List.mem_append.mp hin with hin | hin
    · exact Or.inr ((List.pairwise_append.mp hpair).2.2 d.id hin w (List.mem_singleton_self w))
    · exact Or.inl (List.mem_singleton.mp hin)
  have hwstart : (r.records w).start = start := by
    have hdstart := h.recorded.standing_start hd
    rcases hbefore d hd hkey hstart with heq | hlt | ⟨heq, -⟩
    · rw [← heq, hdstart, hstart]
    · omega
    · rw [← heq, hdstart, hstart]
  have hdwstart : dw.start = start := by
    rw [← h.recorded.standing_start hdw, hdwid, hwstart]
  refine ⟨first, (lists (kind, label)).length, w, ?_, ?_, ?_⟩
  · rw [hi.held.index, hfirst]
    rfl
  · have hat : r.start w = start := by
      rw [Roster.start, h.recorded.front w]
      exact hwstart
    rw [Roster.withdrawn, hsearch, hw, Option.filter_some, if_pos (decide_eq_true hat)]
    rfl
  · rw [← hdwid]
    refine target_eq_some (ordered_standing log) hdw hdwkey hdwstart fun d' hd' hkey' hstart' => ?_
    rw [hdwid]
    have hstart'' := h.recorded.standing_start hd'
    rcases hbefore d' hd' hkey' hstart' with heq | hlt | ⟨-, hlt⟩
    · exact heq.le
    · omega
    · exact hlt.le

/-- A withdrawal's record joins the log, with the declaration it withdraws. -/
def Roster.noted (r : Roster) (kind : Kind) (label : Label) (start w live : ℕ) : Roster :=
  (r.append kind label start true).modify r.count fun record =>
    { record with before := some w, live }

/-- The declaration leaves its key's list and stands no more. -/
def Roster.struck (r : Roster) (w : ℕ) : Roster :=
  (r.unlink w).modify w fun record => { record with withdrawn := true }

/-- The index has taken the withdrawal's record. -/
def Roster.settled (r : Roster) (kind : Kind) (dead : ℕ) : Roster :=
  { r with dead := r.dead + dead }.modifySpace kind fun space =>
    { space with indexed := space.indexed + 1, cursor := r.count }

lemma noted_records (kind : Kind) (label : Label) (start w live y : ℕ) :
    (r.noted kind label start w live).records y = if y = r.count
      then { Record.zero with
        key := (kind, label), start, withdraws := true, before := some w, live }
      else r.records y := by
  rw [Roster.noted, Roster.modify_records, append_records]
  split <;> rfl

/-- A declaration unlinked: its list without it. -/
lemma Lists.unlinked (h : Lists r lists) {key : Key} {w : ℕ} (hw : w ∈ lists key) :
    ∃ lists', Lists (r.unlink w) lists' ∧
      (∀ key' y, y ∈ lists' key' ↔ y ∈ lists key' ∧ y ≠ w) ∧
      (∀ key', (lists' key').Sublist (lists key')) ∧ Relinked r (r.unlink w) (lists key) ∧
      ((r.unlink w).records w).linked = false := by
  obtain ⟨l, l', hsplit⟩ := List.append_of_mem hw
  obtain ⟨hheld, hrelinked, hunlinked⟩ := h.unlink hsplit
  refine ⟨_, hheld, fun key' y => ?_, fun key' => ?_, hrelinked, hunlinked⟩
  · rw [Function.update_apply]
    split
    next heq =>
      rw [heq]
      exact mem_unlinked (h.linked key).nodup hsplit y
    next hne =>
      refine (and_iff_left_of_imp fun hin heq => hne ?_).symm
      rw [← h.key key' y hin, ← h.key key w hw, heq]
  · rw [Function.update_apply]
    split
    next heq =>
      rw [heq, hsplit]
      exact (List.Sublist.refl l).append (List.sublist_cons_self w l')
    next => exact List.Sublist.refl _

/-- A declaration struck: its list without it, and no other record's event. -/
lemma Lists.struck (h : Lists r lists) {key : Key} {w : ℕ} (hw : w ∈ lists key) :
    ∃ lists', Lists (r.struck w) lists' ∧
      (∀ key' y, y ∈ lists' key' ↔ y ∈ lists key' ∧ y ≠ w) ∧
      (∀ key', (lists' key').Sublist (lists key')) ∧
      (r.struck w).count = r.count ∧ (r.struck w).spaces = r.spaces ∧
      (r.struck w).placed = r.placed ∧ (r.struck w).hidden = r.hidden ∧
      (∀ y, ((r.struck w).records y).face = (r.records y).face) ∧
      (∀ y, ((r.struck w).records y).withdrawn = if y = w then true else (r.records y).withdrawn) ∧
      ((r.struck w).records w).linked = false ∧
      ∀ y ∉ lists key, (r.struck w).records y = r.records y := by
  obtain ⟨lists', hheld, hmem, hsub, hrelinked, hunlinked⟩ := h.unlinked hw
  have hrecords : ∀ y, (r.struck w).records y =
      if y = w then { (r.unlink w).records y with withdrawn := true }
      else (r.unlink w).records y := fun y => Roster.modify_records w y _
  refine ⟨lists', ?_, hmem, hsub, hrelinked.count, hrelinked.spaces, hrelinked.placed,
    hrelinked.hidden, fun y => ?_, fun y => ?_, ?_, fun y hy => ?_⟩
  · refine hheld.congr rfl le_rfl fun key' y hy => ?_
    rw [hrecords, if_neg ((hmem key' y).mp hy).2]
  · rw [← face_of_bare (hrelinked.bare y), hrecords]
    split <;> rfl
  · have hwithdrawn : ((r.unlink w).records y).bare.withdrawn = (r.records y).bare.withdrawn :=
      congrArg Record.withdrawn (hrelinked.bare y)
    rw [hrecords]
    split
    next => rfl
    next => exact hwithdrawn
  · rw [hrecords, if_pos rfl]
    exact hunlinked
  · have hne : y ≠ w := fun heq => hy (by rw [heq]; exact hw)
    rw [hrecords, if_neg hne]
    exact hrelinked.other y hy

/-- A withdrawal ends the declaration that the log says it does. -/
lemma Tracks.struck (h : Tracks r log) {kind : Kind} (hall : (r.spaces kind).cursor = log.length)
    {label : Label} {start w : ℕ} (htarget : target (standing log) (kind, label) start = some w)
    {d : Declaration} (hd : d ∈ standing log) (hkey : d.key = (kind, label)) (hw : d.id = w)
    (live dead : ℕ) :
    Tracks (((r.noted kind label start w live).struck w).settled kind dead)
      (log ++ [.withdraw (kind, label) start]) := by
  have hr := h.recorded
  obtain ⟨lists, hi⟩ := h.indexed
  obtain ⟨r₁, hr₁⟩ : ∃ r₁, r₁ = r.noted kind label start w live := ⟨_, rfl⟩
  have hrecords : ∀ y, r₁.records y = if y = log.length
      then { Record.zero with
        key := (kind, label), start, withdraws := true, before := some w, live }
      else r.records y := by
    intro y
    rw [hr₁, noted_records, hr.count]
  have hless : ∀ key, ∀ y ∈ lists key, y < log.length := fun key y hy => by
    rw [← hr.count]
    exact hi.held.lt key y hy
  have hheld : Lists r₁ lists := by
    rw [hr₁]
    refine hi.held.congr rfl (Nat.le_succ _) fun key y hy => ?_
    rw [noted_records, if_neg (hi.held.lt key y hy).ne]
  have hwin : w ∈ lists (kind, label) := by
    refine (hi.mem (kind, label) w).mpr ⟨d, hd, hw, hkey, ?_⟩
    rw [hall, ← hw]
    exact lt_of_standing hd
  have hwlt : w < log.length := hless _ w hwin
  obtain ⟨lists', hheld', hmem', hsub', hcount', hspaces', hplaced', hhidden', hface', hwithdrawn',
    hlinkedw, hother'⟩ := hheld.struck hwin
  rw [← hr₁]
  obtain ⟨r₂, hr₂⟩ : ∃ r₂, r₂ = r₁.struck w := ⟨_, rfl⟩
  rw [← hr₂] at hheld' hcount' hspaces' hplaced' hhidden' hface' hwithdrawn' hlinkedw hother' ⊢
  have hcount : r₂.count = log.length + 1 := by
    rw [hcount', hr₁, ← hr.count]
    rfl
  have hspaces : ∀ k, (r₂.settled kind dead).spaces k = if k = kind
      then { r.spaces kind with
        records := (r.spaces kind).records + 1
        indexed := (r.spaces kind).indexed + 1
        cursor := log.length + 1 }
      else r.spaces k := by
    intro k
    rw [Roster.settled, modifySpace_spaces, hcount]
    have hsame : ∀ k, r₂.spaces k = (r.append kind label start true).spaces k := by
      intro k
      rw [hspaces', hr₁]
      rfl
    simp only [hsame, append_spaces]
    split <;> simp
  have hstarts : ∀ key, ∀ y ∈ lists key, (r₂.records y).start = (r.records y).start := by
    intro key y hy
    have hstart' : (r₂.records y).start = (r₁.records y).start :=
      congrArg (fun face => face.2.1) (hface' y)
    rw [hstart', hrecords, if_neg (hless key y hy).ne]
  have hlength : (log ++ [Event.withdraw (kind, label) start]).length = log.length + 1 := by
    rw [List.length_append, List.length_singleton]
  have hunlisted : ∀ id key start', log[id]? = some (.withdraw key start') →
      id ∉ lists (kind, label) := by
    intro id key start' he hin
    obtain ⟨d', hd', rfl, -, -⟩ := (hi.mem _ id).mp hin
    rw [getElem?_standing hd'] at he
    cases he
  refine ⟨?_, lists', ?_⟩
  · refine hr.next (e := .withdraw (kind, label) start) hcount ?_ ?_ (fun id hid => ?_) ?_ ?_ ?_ ?_
    · exact hplaced'.trans (by rw [hr₁]; exact hr.placed)
    · exact hhidden'.trans (by rw [hr₁]; exact hr.hidden)
    · exact (hface' id).trans (by rw [hrecords, if_neg hid])
    · exact (hface' _).trans (by rw [hrecords, if_pos rfl]; rfl)
    · intro id key start' he
      have hlt : id < log.length := by
        by_contra hge
        rw [not_lt] at hge
        rw [List.getElem?_append_right hge] at he
        have hmem := List.mem_of_getElem? he
        rw [List.mem_singleton] at hmem
        cases hmem
      rw [List.getElem?_append_left hlt] at he
      simp only [mem_standing_withdraw htarget]
      refine (Iff.of_eq (congrArg (· = false) (hwithdrawn' id))).trans ?_
      rw [hrecords, if_neg hlt.ne]
      split
      next heq =>
        refine iff_of_false (by simp) ?_
        rintro ⟨d', ⟨-, hne⟩, hid⟩
        exact hne (hid.trans heq)
      next hne =>
        rw [hr.withdrawn id key start' he]
        constructor
        · rintro ⟨d', hd', hid⟩
          exact ⟨d', ⟨hd', hid ▸ hne⟩, hid⟩
        · rintro ⟨d', ⟨hd', -⟩, hid⟩
          exact ⟨d', hd', hid⟩
    · intro id key start' he
      have hlt := (List.getElem?_eq_some_iff.mp he).1
      have hsame := hother' id (hunlisted id key start' he)
      rw [hrecords, if_neg hlt.ne] at hsame
      exact congrArg Record.before hsame
    · intro key start' heq
      obtain ⟨rfl, rfl⟩ := Event.withdraw.inj heq
      have hsame := hother' log.length fun hin => lt_irrefl _ (hless _ _ hin)
      rw [hrecords, if_pos rfl] at hsame
      exact ⟨w, congrArg Record.before hsame, htarget⟩
  · refine ⟨?_, fun k => ?_, fun key id => ?_, fun key => ?_, fun id hid => ?_, fun k => ?_,
      fun k => ?_, fun id key start' he => ?_⟩
    · exact ⟨hheld'.index, hheld'.linked, hheld'.key, hheld'.lt, hheld'.ordered⟩
    · rw [hspaces, hlength]
      split
      next => exact le_rfl
      next => exact (hi.le k).trans (Nat.le_succ _)
    · rw [hmem', hi.mem]
      simp only [mem_standing_withdraw htarget, hspaces]
      constructor
      · rintro ⟨⟨d', hd', hid, hkey', hlt⟩, hne⟩
        refine ⟨d', ⟨hd', hid ▸ hne⟩, hid, hkey', ?_⟩
        split
        next heq =>
          rw [heq, hall] at hlt
          exact Nat.lt_succ_of_lt hlt
        next => exact hlt
      · rintro ⟨d', ⟨hd', hne⟩, hid, hkey', hlt⟩
        refine ⟨⟨d', hd', hid, hkey', ?_⟩, hid ▸ hne⟩
        by_cases heq : key.1 = kind
        · rw [heq, hall, ← hid]
          exact lt_of_standing hd'
        · rw [if_neg heq] at hlt
          exact hlt
    · refine ((hi.ordered key).sublist (hsub' key)).imp_of_mem fun {a b} ha hb hab => ?_
      have ha' := hstarts key a ((hsub' key).mem ha)
      have hb' := hstarts key b ((hsub' key).mem hb)
      exact ha'.symm ▸ hb'.symm ▸ hab
    · have hkeys : (r₂.records id).key = (r₁.records id).key := congrArg Prod.fst (hface' id)
      have hiff : (r₂.records id).linked = true ↔ id ∈ lists' (r₂.records id).key := by
        rw [hkeys, hmem', hrecords]
        by_cases hin : id ∈ lists (kind, label)
        · by_cases heq : id = w
          · refine iff_of_false (by rw [heq]; exact ne_true_of_eq_false hlinkedw) fun hand => ?_
            exact hand.2 heq
          · have hlinked := (hheld'.linked (kind, label)).linked id ((hmem' _ id).mpr ⟨hin, heq⟩)
            refine iff_of_true hlinked ⟨?_, heq⟩
            rw [if_neg (hless _ id hin).ne, hi.held.key _ id hin]
            exact hin
        · have hsame := hother' id hin
          have hne : id ≠ w := fun heq => hin (heq ▸ hwin)
          rw [hsame, hrecords, and_iff_left hne]
          split
          next heq =>
            refine iff_of_false (by simp [Record.zero]) fun hin' => ?_
            exact (hless _ id hin').ne heq
          next hne' =>
            refine hi.linked id ?_
            rw [hlength] at hid
            omega
      exact hiff
    · have hkind : (Event.withdraw (kind, label) start).key.1 = kind := rfl
      rw [hspaces, List.countP_append, List.countP_singleton, hkind, ← hi.records]
      split
      next heq => simp [heq]
      next hne => simp [Ne.symm hne]
    · rw [hspaces]
      split
      next heq =>
        have hindexed := hi.indexed kind
        rw [hall, List.take_length] at hindexed
        rw [← hlength, List.take_length, List.countP_append, List.countP_singleton, heq, ← hindexed]
        simp [Event.key]
      next hne =>
        rw [List.take_append_of_le_length (hi.le k)]
        exact hi.indexed k
    · rw [hspaces]
      rcases Nat.lt_or_ge id log.length with hlt | hge
      · rw [List.getElem?_append_left hlt] at he
        have htaken := hi.taken id key start' he
        split
        next => exact Nat.lt_succ_of_lt hlt
        next => exact htaken
      · have hid := (List.getElem?_eq_some_iff.mp he).1
        rw [hlength] at hid
        have heq : id = log.length := by omega
        rw [heq, List.getElem?_concat_length] at he
        obtain ⟨rfl, rfl⟩ := Event.withdraw.inj (Option.some.inj he)
        rw [if_pos rfl, heq]
        exact Nat.lt_succ_self _

/-- A withdrawal of a label one of whose declarations stands and starts there. -/
lemma Tracks.withdraw (h : Tracks r log) {kind : Kind} {label : Label} {start : ℕ}
    (hstands : ∃ d ∈ standing log, d.key = (kind, label) ∧ d.start = start) :
    ∃ r', r.withdraw kind label start = some r' ∧
      Tracks r' (log ++ [.withdraw (kind, label) start]) := by
  obtain ⟨htracks, hall⟩ := h.indexSpace kind
  obtain ⟨d, hd, hkey, hstart⟩ := hstands
  obtain ⟨first, count, w, hindex, hwithdrawn, htarget⟩ :=
    htracks.withdrawn hall hd hkey hstart
  obtain ⟨dw, hdw, hdwkey, -, hdwtarget⟩ := target_isSome ⟨d, hd, hkey, hstart⟩
  rw [htarget, Option.some_inj] at hdwtarget
  refine ⟨_, ?_, htracks.struck hall htarget hdw hdwkey hdwtarget.symm (count - 1)
    (recordSize label + recordSize ((((r.indexSpace kind).noted kind label start w
      (count - 1)).struck w).records w).key.2)⟩
  rw [Roster.withdraw]
  dsimp only
  rw [hindex, Option.bind_some, hwithdrawn, Option.map_some]
  rfl

/-! ### The log shorter -/

/-- A roster whose log loses its last records, its cursors where they were. -/
structure Popping (r : Roster) (log : List Event) : Prop where
  recorded : Recorded r log
  indexed : ∃ lists, Indexed r log (fun kind => min (r.spaces kind).cursor log.length) lists

/-- What a record popped leaves of its kind's counts. -/
def Roster.shortened (r : Roster) (kind : Kind) : Roster :=
  { r with count := r.count - 1 }.modifySpace kind fun space =>
    { space with
      records := space.records - 1
      indexed := if r.count - 1 < space.cursor then space.indexed - 1 else space.indexed }

lemma unlink_placed (r : Roster) (id : ℕ) : (r.unlink id).placed = r.placed := by
  rw [Roster.unlink]
  cases r.index (r.records id).key with
  | none => rfl
  | some slot =>
    dsimp only
    split
    · rfl
    · split
      · rw [Roster.unlinkFirst]
        split <;> rfl
      · simp only [Roster.unlinkAfter]
        split <;> rfl

/-- How many records the log holds does not matter to a list that loses a declaration. -/
lemma unlink_count (r : Roster) (id n : ℕ) (spaces : Kind → Space) :
    ({ r with count := n, spaces } : Roster).unlink id =
      { r.unlink id with count := n, spaces } := by
  rw [Roster.unlink, Roster.unlink]
  dsimp only
  cases r.index (r.records id).key with
  | none => rfl
  | some slot =>
    dsimp only
    split
    · rfl
    · split
      · simp only [Roster.unlinkFirst]
        have hsame : (({ r with count := n, spaces } : Roster).modify id fun record =>
            { record with linked := false }).records = (r.modify id fun record =>
              { record with linked := false }).records := rfl
        rw [hsame]
        cases ((r.modify id fun record => { record with linked := false }).records id).after <;> rfl
      · simp only [Roster.unlinkAfter]
        generalize hp : Roster.prior _ _ _ = p
        have hp' : Roster.prior (r.modify id fun record => { record with linked := false })
            slot.1 id = p := hp
        rw [hp']
        cases p <;> rfl

lemma Roster.popRecord_declares (h : (r.records (r.count - 1)).withdraws = false)
    (hplaced : r.placed = false) :
    r.popRecord = if (r.records (r.count - 1)).linked
      then (r.shortened (r.records (r.count - 1)).key.1).unlink (r.count - 1)
      else r.shortened (r.records (r.count - 1)).key.1 := by
  have hfront : ∀ r' : Roster, r'.placed = false →
      (if r'.placed then r'.unplace (r.count - 1) else r') = r' := by
    intro r' hr'
    rw [hr']
    rfl
  rw [Roster.popRecord]
  dsimp only
  rw [h]
  by_cases hl : (r.records (r.count - 1)).linked = true
  · rw [if_pos hl, if_pos hl]
    exact hfront _ ((unlink_placed _ _).trans hplaced)
  · rw [if_neg hl, if_neg hl]
    exact hfront _ hplaced

lemma Roster.popRecord_withdraws (h : (r.records (r.count - 1)).withdraws = true) {w : ℕ}
    (hw : (r.records (r.count - 1)).before = some w) :
    r.popRecord = ((r.shortened (r.records (r.count - 1)).key.1).modify w fun record =>
      { record with withdrawn := false }).link w := by
  rw [Roster.popRecord]
  dsimp only
  rw [h, hw]
  rfl

/-- The records of a log one event shorter. -/
lemma Recorded.prev {e : Event} (h : Recorded r (log ++ [e])) (hcount : r'.count = log.length)
    (hplaced : r'.placed = r.placed) (hhidden : r'.hidden = r.hidden)
    (hface : ∀ id, (r'.records id).face = (r.records id).face)
    (hwithdrawn : ∀ id key start, log[id]? = some (.declare key start) →
      ((r'.records id).withdrawn = false ↔ ∃ d ∈ standing log, d.id = id))
    (hbefore : ∀ id key start, log[id]? = some (.withdraw key start) →
      (r'.records id).before = (r.records id).before) : Recorded r' log := by
  have hold : ∀ (id : ℕ) (e' : Event), log[id]? = some e' → (log ++ [e])[id]? = some e' := by
    intro id e' he'
    rw [List.getElem?_append_left (List.getElem?_eq_some_iff.mp he').1]
    exact he'
  refine ⟨hcount, hplaced.trans h.placed, hhidden.trans h.hidden, fun id e' he' => ?_,
    fun id e' he' => ?_, fun id e' he' => ?_, fun id => ?_, fun id => ?_, hwithdrawn,
    fun id key start he' => ?_⟩
  · exact (congrArg Prod.fst (hface id)).trans (h.key id e' (hold id e' he'))
  · exact (congrArg (fun face => face.2.1) (hface id)).trans (h.start id e' (hold id e' he'))
  · exact (congrArg (fun face => face.2.2.1) (hface id)).trans (h.withdraws id e' (hold id e' he'))
  · exact (congrArg (fun face => face.2.2.2.1) (hface id)).trans (h.front id)
  · exact (congrArg (fun face => face.2.2.2.2) (hface id)).trans (h.here id)
  · obtain ⟨w, hw, htarget⟩ := h.before id key start (hold id _ he')
    rw [List.take_append_of_le_length (List.getElem?_eq_some_iff.mp he').1.le] at htarget
    exact ⟨w, (hbefore id key start he').trans hw, htarget⟩

/-- The index of a log one event shorter. -/
lemma Indexed.prev {e : Event}
    (h : Indexed r (log ++ [e]) (fun k => min (r.spaces k).cursor (log.length + 1)) lists)
    (hcount : r.count = log.length + 1) {lists' : Key → List ℕ} (hheld : Lists r' lists')
    (hsorted : ∀ key, Sorted r' (lists' key))
    (hmem : ∀ key id, id ∈ lists' key ↔ ∃ d ∈ standing log, d.id = id ∧ d.key = key ∧
      id < min (r.spaces key.1).cursor log.length)
    (hlinked : ∀ id < log.length, (r'.records id).linked = true ↔ id ∈ lists' (r'.records id).key)
    (hspaces : r'.spaces = (r.shortened e.key.1).spaces) :
    Indexed r' log (fun k => min (r'.spaces k).cursor log.length) lists' := by
  have hspace : ∀ k, r'.spaces k = if k = e.key.1
      then { r.spaces k with
        records := (r.spaces k).records - 1
        indexed := if log.length < (r.spaces k).cursor then (r.spaces k).indexed - 1
          else (r.spaces k).indexed }
      else r.spaces k := by
    intro k
    rw [hspaces, Roster.shortened, modifySpace_spaces, hcount, Nat.add_sub_cancel]
    split
    next heq => rw [heq]
    next => rfl
  have hcursor : ∀ k, (r'.spaces k).cursor = (r.spaces k).cursor := by
    intro k
    rw [hspace]
    split <;> rfl
  refine ⟨hheld, fun k => min_le_right _ _, fun key id => ?_, hsorted, hlinked, fun k => ?_,
    fun k => ?_, fun id key start he => ?_⟩
  · rw [hmem, hcursor]
  · have hrecords := h.records k
    rw [List.countP_append, List.countP_singleton] at hrecords
    rw [hspace]
    split
    next heq =>
      rw [if_pos (decide_eq_true heq.symm)] at hrecords
      dsimp only
      omega
    next hne =>
      rw [hrecords, if_neg (by simpa using Ne.symm hne)]
      rfl
  · have hindexed := h.indexed k
    rw [hcursor, hspace]
    rcases Nat.lt_or_ge log.length (r.spaces k).cursor with hlt | hge
    · rw [min_eq_right hlt, ← List.length_singleton, ← List.length_append, List.take_length,
        List.countP_append, List.countP_singleton] at hindexed
      rw [min_eq_right hlt.le, List.take_length]
      split
      next heq =>
        rw [if_pos (decide_eq_true heq.symm)] at hindexed
        dsimp only
        omega
      next hne =>
        rw [hindexed, if_neg (by simpa using Ne.symm hne)]
        rfl
    · rw [min_eq_left (hge.trans (Nat.le_succ _)), List.take_append_of_le_length hge] at hindexed
      rw [min_eq_left hge, ← hindexed, if_neg (Nat.not_lt_of_le hge)]
      split <;> rfl
  · have hlt := (List.getElem?_eq_some_iff.mp he).1
    have htaken := h.taken id key start (by rw [List.getElem?_append_left hlt]; exact he)
    rw [hcursor]
    exact lt_min (htaken.trans_le (min_le_left _ _)) hlt

/-- A declaration popped: the index loses it where it has taken it. -/
lemma Popping.undeclared {key : Key} {start : ℕ} (h : Popping r (log ++ [.declare key start])) :
    Popping r.popRecord log := by
  have hr := h.recorded
  obtain ⟨lists, hi⟩ := h.indexed
  rw [List.length_append, List.length_singleton] at hi
  have hcount : r.count = log.length + 1 := by
    rw [hr.count, List.length_append, List.length_singleton]
  have hlast : (log ++ [Event.declare key start])[log.length]? = some (.declare key start) :=
    List.getElem?_concat_length
  have hkey : (r.records log.length).key = key := hr.key _ _ hlast
  have hpop := Roster.popRecord_declares (r := r)
    (by rw [hcount, Nat.add_sub_cancel]; exact hr.withdraws _ _ hlast) hr.placed
  rw [hcount, Nat.add_sub_cancel, hkey] at hpop
  have hstood : ∀ d, d ∈ standing (log ++ [.declare key start]) ∧ d.id ≠ log.length ↔
      d ∈ standing log := by
    intro d
    rw [mem_standing_declare]
    constructor
    · rintro ⟨hd | rfl, hne⟩
      · exact hd
      · exact absurd rfl hne
    · exact fun hd => ⟨Or.inl hd, (lt_of_standing hd).ne⟩
  have hlisted : ∀ key' id, id ∈ lists key' ∧ id ≠ log.length ↔ ∃ d ∈ standing log, d.id = id ∧
      d.key = key' ∧ id < min (r.spaces key'.1).cursor log.length := by
    intro key' id
    rw [hi.mem]
    constructor
    · rintro ⟨⟨d, hd, rfl, hkey', hlt⟩, hne⟩
      exact ⟨d, (hstood d).mp ⟨hd, hne⟩, rfl, hkey',
        lt_min (hlt.trans_le (min_le_left _ _)) (lt_of_standing ((hstood d).mp ⟨hd, hne⟩))⟩
    · rintro ⟨d, hd, rfl, hkey', hlt⟩
      obtain ⟨hd', hne⟩ := (hstood d).mpr hd
      exact ⟨⟨d, hd', rfl, hkey', lt_min (hlt.trans_le (min_le_left _ _))
        (Nat.lt_succ_of_lt (hlt.trans_le (min_le_right _ _)))⟩, hne⟩
  have hwithdrawn : ∀ (id : ℕ) key' start', log[id]? = some (.declare key' start') →
      ((r.records id).withdrawn = false ↔ ∃ d ∈ standing log, d.id = id) := by
    intro id key' start' he
    have hlt := (List.getElem?_eq_some_iff.mp he).1
    rw [hr.withdrawn id key' start' (by rw [List.getElem?_append_left hlt]; exact he)]
    constructor
    · rintro ⟨d, hd, rfl⟩
      exact ⟨d, (hstood d).mp ⟨hd, hlt.ne⟩, rfl⟩
    · rintro ⟨d, hd, rfl⟩
      exact ⟨d, ((hstood d).mpr hd).1, rfl⟩
  have hlinked := hi.linked log.length (by rw [List.length_append]; exact Nat.lt_succ_self _)
  rw [hkey] at hlinked
  have hsame : r.shortened key.1 =
      { r with count := log.length, spaces := (r.shortened key.1).spaces } := by
    rw [Roster.shortened, hcount]
    rfl
  by_cases hin : log.length ∈ lists key
  · obtain ⟨lists', hheld, hmem, hsub, hrelinked, hunlinked⟩ := hi.held.unlinked hin
    have hpopped : r.popRecord = { r.unlink log.length with
        count := log.length, spaces := (r.shortened key.1).spaces } := by
      rw [hpop, if_pos (hlinked.mpr hin), hsame, unlink_count]
    have hother : ∀ id < log.length, id ∉ lists key →
        (r.unlink log.length).records id = r.records id := fun id _ hid => hrelinked.other id hid
    rw [hpopped]
    refine ⟨hr.prev rfl hrelinked.placed hrelinked.hidden
      (fun id => face_of_bare (hrelinked.bare id)) (fun id key' start' he => ?_)
      fun id key' start' he => ?_, lists', ?_⟩
    · have hsame : ((r.unlink log.length).records id).bare.withdrawn =
        (r.records id).bare.withdrawn := congrArg Record.withdrawn (hrelinked.bare id)
      refine (Iff.of_eq (congrArg (· = false) hsame)).trans (hwithdrawn id key' start' he)
    · refine congrArg Record.before (hrelinked.other id fun hid => ?_)
      have hlt := (List.getElem?_eq_some_iff.mp he).1
      obtain ⟨d, hd, rfl, -, -⟩ := (hlisted key id).mp ⟨hid, hlt.ne⟩
      rw [getElem?_standing hd] at he
      cases he
    · refine hi.prev hcount ⟨hheld.index, hheld.linked, hheld.key, fun key' y hy => ?_,
        hheld.ordered⟩ (fun key' => ?_) (fun key' id => ?_) (fun id hlt => ?_) rfl
      · obtain ⟨d, hd, rfl, -, -⟩ := (hlisted key' y).mp ((hmem key' y).mp hy)
        exact lt_of_standing hd
      · have hsorted : Sorted (r.unlink log.length) (lists' key') :=
          Sorted.relinked ((hi.ordered key').sublist (hsub key')) hrelinked
        exact hsorted
      · rw [hmem, hlisted]
      · have hkeys : ((r.unlink log.length).records id).key = (r.records id).key :=
          bare_key (hrelinked.bare id)
        have hold := hi.linked id (by rw [List.length_append]; exact Nat.lt_succ_of_lt hlt)
        have hiff : ((r.unlink log.length).records id).linked = true ↔
            id ∈ lists' ((r.unlink log.length).records id).key := by
          rw [hkeys, hmem, and_iff_left hlt.ne, ← hold]
          by_cases hid : id ∈ lists key
          · have hlinked' := (hi.held.linked key).linked id hid
            have hin' := (hmem key id).mpr ⟨hid, hlt.ne⟩
            exact iff_of_true ((hheld.linked key).linked id hin') hlinked'
          · rw [hrelinked.other id hid]
        exact hiff
  · have hpopped : r.popRecord = r.shortened key.1 := by
      rw [hpop, if_neg fun hl => hin (hlinked.mp hl)]
    have hne : ∀ key' id, id ∈ lists key' → id ≠ log.length := by
      rintro key' id hid rfl
      refine hin ?_
      rw [← hi.held.key key' _ hid, hkey] at hid
      exact hid
    have hmem : ∀ key' id, id ∈ lists key' ↔ ∃ d ∈ standing log, d.id = id ∧ d.key = key' ∧
        id < min (r.spaces key'.1).cursor log.length := by
      intro key' id
      rw [← hlisted]
      exact (and_iff_left_of_imp (hne key' id)).symm
    rw [hpopped, hsame]
    refine ⟨hr.prev rfl rfl rfl (fun id => rfl) hwithdrawn fun id key' start' he => rfl, lists, ?_⟩
    refine hi.prev hcount ⟨hi.held.index, hi.held.linked, hi.held.key, fun key' y hy => ?_,
      hi.held.ordered⟩ hi.ordered hmem (fun id hlt => ?_) rfl
    · obtain ⟨d, hd, rfl, -, -⟩ := (hmem key' y).mp hy
      exact lt_of_standing hd
    · exact hi.linked id (by rw [List.length_append]; exact Nat.lt_succ_of_lt hlt)

/-- What a withdrawal ends is the last declared of those of its key that start where it does. -/
lemma target_last {key : Key} {start w : ℕ} (h : target (standing log) key start = some w) :
    ∃ d ∈ standing log, d.id = w ∧ d.key = key ∧ d.start = start ∧
      ∀ d' ∈ standing log, d'.key = key → d'.start = start → d'.id ≤ w := by
  rw [target, Option.map_eq_some_iff] at h
  obtain ⟨d, hgetLast, hid⟩ := h
  obtain ⟨before, hsplit⟩ := List.getLast?_eq_some_iff.mp hgetLast
  obtain ⟨hd, hcond⟩ := List.mem_filter.mp (List.mem_of_getLast? hgetLast)
  obtain ⟨hkey, hstart⟩ := of_decide_eq_true hcond
  refine ⟨d, hd, hid, hkey, hstart, fun d' hd' hkey' hstart' => ?_⟩
  have hmem : d' ∈ (standing log).filter fun d => d.key = key ∧ d.start = start :=
    List.mem_filter.mpr ⟨hd', decide_eq_true ⟨hkey', hstart'⟩⟩
  have hordered := (ordered_standing log).ordered.sublist
    (List.filter_sublist (p := fun d => decide (d.key = key ∧ d.start = start)))
  rw [hsplit] at hmem hordered
  rw [← hid]
  rcases List.mem_append.mp hmem with hmem | hmem
  · exact ((List.pairwise_append.mp hordered).2.2 d' hmem d (List.mem_singleton_self _)).le
  · rw [List.mem_singleton.mp hmem]

/-- A withdrawal popped: what it withdrew stands again, where it stood. -/
lemma Popping.unwithdrawn {key : Key} {start : ℕ} (h : Popping r (log ++ [.withdraw key start])) :
    Popping r.popRecord log := by
  have hr := h.recorded
  obtain ⟨lists, hi⟩ := h.indexed
  rw [List.length_append, List.length_singleton] at hi
  have hcount : r.count = log.length + 1 := by
    rw [hr.count, List.length_append, List.length_singleton]
  have hlast : (log ++ [Event.withdraw key start])[log.length]? = some (.withdraw key start) :=
    List.getElem?_concat_length
  have hkey : (r.records log.length).key = key := hr.key _ _ hlast
  obtain ⟨w, hbefore, htarget⟩ := hr.before _ _ _ hlast
  rw [List.take_left' rfl] at htarget
  have hpop := Roster.popRecord_withdraws (r := r) (w := w)
    (by rw [hcount, Nat.add_sub_cancel]; exact hr.withdraws _ _ hlast)
    (by rw [hcount, Nat.add_sub_cancel]; exact hbefore)
  rw [hcount, Nat.add_sub_cancel, hkey] at hpop
  -- the index had taken the withdrawal
  have htaken : log.length < (r.spaces key.1).cursor :=
    (hi.taken _ _ _ hlast).trans_le (min_le_left _ _)
  obtain ⟨d, hd, rfl, hdkey, hdstart, hdlast⟩ := target_last htarget
  obtain ⟨r₁, hr₁⟩ : ∃ r₁, r₁ = (r.shortened key.1).modify d.id fun record =>
      { record with withdrawn := false } := ⟨_, rfl⟩
  rw [← hr₁] at hpop
  have hrecords : ∀ y, r₁.records y =
      if y = d.id then { r.records y with withdrawn := false } else r.records y := by
    intro y
    rw [hr₁, Roster.modify_records]
    rfl
  have hstood : ∀ d', d' ∈ standing (log ++ [.withdraw key start]) ↔
      d' ∈ standing log ∧ d'.id ≠ d.id := fun d' => mem_standing_withdraw htarget
  have hlisted : ∀ key' id, id ∈ lists key' ↔ ∃ d' ∈ standing log, d'.id = id ∧ d'.id ≠ d.id ∧
      d'.key = key' ∧ id < min (r.spaces key'.1).cursor log.length := by
    intro key' id
    rw [hi.mem]
    constructor
    · rintro ⟨d', hd', rfl, hkey', hlt⟩
      obtain ⟨hd', hne⟩ := (hstood d').mp hd'
      exact ⟨d', hd', rfl, hne, hkey', lt_min (hlt.trans_le (min_le_left _ _)) (lt_of_standing hd')⟩
    · rintro ⟨d', hd', rfl, hne, hkey', hlt⟩
      exact ⟨d', (hstood d').mpr ⟨hd', hne⟩, rfl, hkey', lt_min (hlt.trans_le (min_le_left _ _))
        (Nat.lt_succ_of_lt (hlt.trans_le (min_le_right _ _)))⟩
  have hunlisted : ∀ key', d.id ∉ lists key' := by
    intro key' hin
    obtain ⟨d', -, hid, hne, -, -⟩ := (hlisted key' d.id).mp hin
    exact hne hid
  have hsame : ∀ key', ∀ y ∈ lists key', r₁.records y = r.records y := by
    intro key' y hy
    have hne : y ≠ d.id := fun heq => hunlisted key' (by rw [← heq]; exact hy)
    rw [hrecords, if_neg hne]
  have hrecorded : Recorded r₁ log := by
    refine hr.prev (by rw [hr₁, ← Nat.add_sub_cancel (n := log.length) (m := 1), ← hcount]; rfl)
      (by rw [hr₁]; rfl) (by rw [hr₁]; rfl) (fun id => ?_) (fun id key' start' he => ?_)
      fun id key' start' he => ?_
    · rw [hrecords]
      split <;> rfl
    · have hlt := (List.getElem?_eq_some_iff.mp he).1
      have hold := hr.withdrawn id key' start' (by rw [List.getElem?_append_left hlt]; exact he)
      rw [hrecords]
      split
      next heq => exact iff_of_true rfl ⟨d, hd, heq.symm⟩
      next hne =>
        rw [hold]
        constructor
        · rintro ⟨d', hd', rfl⟩
          exact ⟨d', ((hstood d').mp hd').1, rfl⟩
        · rintro ⟨d', hd', rfl⟩
          exact ⟨d', (hstood d').mpr ⟨hd', hne⟩, rfl⟩
    · rw [hrecords]
      split <;> rfl
  have hheld : Lists r₁ lists := by
    refine ⟨fun key' => ?_, fun key' => (hi.held.linked key').congr (hsame key'),
      fun key' y hy => ?_, fun key' y hy => ?_, fun key' => ?_⟩
    · rw [← hi.held.index, hr₁]
      rfl
    · rw [hsame key' y hy, hi.held.key key' y hy]
    · obtain ⟨d', hd', rfl, -, -, -⟩ := (hlisted key' y).mp hy
      rw [hrecorded.count]
      exact lt_of_standing hd'
    · refine (hi.held.ordered key').imp_of_mem fun {a b} ha hb hab => ?_
      rw [hsame key' a ha, hsame key' b hb]
      exact hab
  have hsorted : ∀ key', Sorted r₁ (lists key') := by
    intro key'
    refine (hi.ordered key').imp_of_mem fun {a b} ha hb hab => ?_
    rw [hsame key' a ha, hsame key' b hb]
    exact hab
  obtain ⟨lists', hheld', hrelinked, hrecorded', hsorted', hmem', hlinked', hother⟩ :=
    hrecorded.join hheld hsorted (fun key' id hin => by
      obtain ⟨d', hd', hid, -, -, -⟩ := (hlisted key' id).mp hin
      exact ⟨d', hd', hid⟩) hd (hunlisted d.key) fun a ha hstart' => by
      obtain ⟨d', hd', rfl, hne, hkey', -⟩ := (hlisted d.key a).mp ha
      rw [hrecorded.standing_start hd'] at hstart'
      exact lt_of_le_of_ne (hdlast d' hd' (hkey'.trans hdkey) (hstart'.trans hdstart)) hne
  rw [hpop]
  refine ⟨hrecorded', lists',
    hi.prev hcount hheld' hsorted' (fun key' id => ?_) (fun id hlt => ?_) ?_⟩
  · rw [hmem', hlisted]
    constructor
    · rintro (⟨d', hd', rfl, -, hrest⟩ | ⟨rfl, rfl⟩)
      · exact ⟨d', hd', rfl, hrest⟩
      · refine ⟨d, hd, rfl, rfl, ?_⟩
        rw [hdkey]
        exact lt_min ((lt_of_standing hd).trans htaken) (lt_of_standing hd)
    · rintro ⟨d', hd', rfl, hkey', hlt⟩
      by_cases heq : d'.id = d.id
      · refine Or.inr ⟨heq, ?_⟩
        rw [← hkey', (ordered_standing log).unique hd' hd heq]
      · exact Or.inl ⟨d', hd', rfl, heq, hkey', hlt⟩
  · have hkeys : ((r₁.link d.id).records id).key = (r₁.records id).key :=
      bare_key (hrelinked.bare id)
    have hkeys' : (r₁.records id).key = (r.records id).key := by
      rw [hrecords]
      split <;> rfl
    rw [hkeys, hkeys', hmem']
    by_cases heq : id = d.id
    · rw [heq]
      rw [heq] at hkeys'
      refine iff_of_true hlinked' (Or.inr ⟨rfl, ?_⟩)
      exact hkeys'.symm.trans (hrecorded.standing_key hd)
    · rw [hother id heq, hrecords, if_neg heq, or_iff_left fun hand => heq hand.1]
      exact hi.linked id (by rw [List.length_append]; exact Nat.lt_succ_of_lt hlt)
  · rw [hrelinked.spaces, hr₁]
    rfl

/-- Records popped one after another leave what the log says before them. -/
lemma Popping.popRecords {n : ℕ} (h : Popping r log) (hn : n ≤ log.length) :
    Popping (Roster.popRecords n r) (log.take (log.length - n)) := by
  induction n generalizing r log with
  | zero =>
    rw [Nat.sub_zero, List.take_length]
    exact h
  | succ n ih =>
    cases log using List.reverseRecOn with
    | nil => exact absurd hn (Nat.not_succ_le_zero n)
    | append_singleton log e =>
      have hpop : Popping r.popRecord log := by
        cases e with
        | declare key start => exact h.undeclared
        | withdraw key start => exact h.unwithdrawn
      rw [List.length_append, List.length_singleton] at hn ⊢
      rw [Nat.add_sub_add_right, List.take_append_of_le_length (Nat.sub_le _ _)]
      exact ih hpop (Nat.le_of_succ_le_succ hn)

/-- A rollback leaves the roster of the log at its mark. -/
lemma Tracks.rollback (h : Tracks r log) {mark : Mark} (hmark : mark.count ≤ log.length) :
    Tracks (r.rollback mark) (log.take mark.count) := by
  obtain ⟨lists, hi⟩ := h.indexed
  have hpopping : Popping r log := by
    refine ⟨h.recorded, lists, ?_⟩
    have hsame : (fun k => min (r.spaces k).cursor log.length) = fun k => (r.spaces k).cursor :=
      funext fun k => min_eq_left (hi.le k)
    rw [hsame]
    exact hi
  have hpopped := hpopping.popRecords (Nat.sub_le log.length mark.count)
  rw [Nat.sub_sub_self hmark, ← h.recorded.count] at hpopped
  obtain ⟨hr, lists', hi'⟩ := hpopped
  rw [← hr.count] at hi'
  exact ⟨⟨hr.count, hr.placed, hr.hidden, hr.key, hr.start, hr.withdraws, hr.front, hr.here,
    hr.withdrawn, hr.before⟩, lists', ⟨hi'.held.index, hi'.held.linked, hi'.held.key, hi'.held.lt,
      hi'.held.ordered⟩, hi'.le, hi'.mem, hi'.ordered, hi'.linked, hi'.records, hi'.indexed,
      hi'.taken⟩

end MarkdownCore.Declarations
