import MarkdownCore.Roster.Lists
import MarkdownCore.Roster.Log

/-!
# The roster and its log

The roster's records are those of the log, and the index holds of each kind those before its cursor:
the ones that stand, each in its key's list. The index takes a kind's records when a lookup or a
withdrawal asks for them.
-/

namespace MarkdownCore.Declarations

/-! ### Records and log -/

/-- The records are those of the log. -/
structure Recorded (r : Roster) (log : List Event) : Prop where
  count : r.count = log.length
  placed : r.placed = false
  hidden : r.hidden = false
  key : ∀ id e, log[id]? = some e → (r.records id).key = e.key
  start : ∀ id e, log[id]? = some e → (r.records id).start = e.start
  withdraws : ∀ id e, log[id]? = some e → (r.records id).withdraws = e.withdraws
  front : ∀ id, (r.records id).back = false
  here : ∀ id, (r.records id).gone = false
  withdrawn : ∀ id key start, log[id]? = some (.declare key start) →
    ((r.records id).withdrawn = false ↔ ∃ d ∈ standing log, d.id = id)
  before : ∀ id key start, log[id]? = some (.withdraw key start) →
    ∃ w, (r.records id).before = some w ∧ target (standing (log.take id)) key start = some w

/-- The index holds a kind's records before its cursor: those that stand, each in its key's list, in
the order of where they start and of the log. -/
structure Indexed (r : Roster) (log : List Event) (cursor : Kind → ℕ) (lists : Key → List ℕ) :
    Prop where
  held : Lists r lists
  le : ∀ kind, cursor kind ≤ log.length
  mem : ∀ key id, id ∈ lists key ↔ ∃ d ∈ standing log, d.id = id ∧ d.key = key ∧ id < cursor key.1
  ordered : ∀ key, (lists key).Pairwise fun a b => (r.records a).start < (r.records b).start ∨
    (r.records a).start = (r.records b).start ∧ a < b
  linked : ∀ id < log.length, (r.records id).linked = true ↔ id ∈ lists (r.records id).key
  records : ∀ kind, (r.spaces kind).records = log.countP fun e => e.key.1 = kind
  indexed : ∀ kind, (r.spaces kind).indexed =
    (log.take (cursor kind)).countP fun e => e.key.1 = kind
  taken : ∀ id key start, log[id]? = some (.withdraw key start) → id < cursor key.1

/-- A roster between two calls, and what its log holds. -/
structure Tracks (r : Roster) (log : List Event) : Prop where
  recorded : Recorded r log
  indexed : ∃ lists, Indexed r log (fun kind => (r.spaces kind).cursor) lists

variable {r : Roster} {log : List Event} {cursor : Kind → ℕ} {lists : Key → List ℕ}

/-! ### What stands -/

lemma mem_standing_declare {key : Key} {start : ℕ} {d : Declaration} :
    d ∈ standing (log ++ [.declare key start]) ↔
      d ∈ standing log ∨ d = ⟨log.length, key, start⟩ := by
  rw [standing_append, Event.next, List.mem_append, List.mem_singleton]

lemma mem_standing_withdraw {key : Key} {start w : ℕ} {d : Declaration}
    (h : target (standing log) key start = some w) :
    d ∈ standing (log ++ [.withdraw key start]) ↔ d ∈ standing log ∧ d.id ≠ w := by
  rw [standing_append, Event.next, List.mem_filter, decide_eq_true_iff, h, Ne, Option.some_inj]

lemma getElem?_standing {d : Declaration} (hd : d ∈ standing log) :
    log[d.id]? = some (.declare d.key d.start) := (ordered_standing log).declared d hd

lemma lt_of_standing {d : Declaration} (hd : d ∈ standing log) : d.id < log.length :=
  (ordered_standing log).lt hd

lemma Recorded.standing_key (h : Recorded r log) {d : Declaration} (hd : d ∈ standing log) :
    (r.records d.id).key = d.key := h.key _ _ (getElem?_standing hd)

lemma Recorded.standing_start (h : Recorded r log) {d : Declaration} (hd : d ∈ standing log) :
    (r.records d.id).start = d.start := h.start _ _ (getElem?_standing hd)

/-- A record stands when its event's declaration does. -/
lemma Recorded.stands_iff (h : Recorded r log) {id : ℕ} (hid : id < log.length) :
    (r.records id).stands = true ↔ ∃ d ∈ standing log, d.id = id := by
  obtain ⟨e, he⟩ : ∃ e, log[id]? = some e := ⟨_, List.getElem?_eq_getElem hid⟩
  rw [Record.stands, h.here id, h.withdraws id e he]
  cases e with
  | declare key start =>
    have hiff := h.withdrawn id key start he
    rw [← hiff]
    simp [Event.withdraws]
  | withdraw key start =>
    refine iff_of_false (by simp [Event.withdraws]) ?_
    rintro ⟨d, hd, rfl⟩
    rw [getElem?_standing hd] at he
    cases he

/-! ### The empty roster -/

lemma tracks_init : Tracks Roster.init [] := by
  refine ⟨⟨rfl, rfl, rfl, ?_, ?_, ?_, fun _ => rfl, fun _ => rfl, ?_, ?_⟩, fun _ => [], ?_⟩
  · exact fun id e he => absurd he (by simp)
  · exact fun id e he => absurd he (by simp)
  · exact fun id e he => absurd he (by simp)
  · exact fun id key start he => absurd he (by simp)
  · exact fun id key start he => absurd he (by simp)
  · refine ⟨⟨fun _ => rfl, fun _ => ?_, ?_, ?_, ?_⟩, fun _ => le_rfl, fun key id => ?_, ?_, ?_,
      fun _ => rfl, fun _ => rfl, ?_⟩
    · exact ⟨List.nodup_nil, nofun, nofun, nofun, nofun⟩
    · exact fun _ y hy => absurd hy List.not_mem_nil
    · exact fun _ y hy => absurd hy List.not_mem_nil
    · exact fun _ => List.Pairwise.nil
    · simp [standing]
    · exact fun _ => List.Pairwise.nil
    · exact fun id hid => absurd hid (Nat.not_lt_zero id)
    · exact fun id key start he => absurd he (by simp)

/-! ### A list changed -/

lemma bare_start {a b : Record} (h : a.bare = b.bare) : a.start = b.start := by
  have hstart : a.bare.start = b.bare.start := congrArg Record.start h
  exact hstart

lemma bare_back {a b : Record} (h : a.bare = b.bare) : a.back = b.back := by
  have hback : a.bare.back = b.bare.back := congrArg Record.back h
  exact hback

/-- Links do not matter to what the log says, where they are of declarations. -/
lemma Recorded.relinked (h : Recorded r log) {r' : Roster} {l : List ℕ} (hr : Relinked r r' l)
    (hl : ∀ id ∈ l, ∃ d ∈ standing log, d.id = id) : Recorded r' log := by
  have hbare := hr.bare
  refine ⟨hr.count.trans h.count, hr.placed.trans h.placed, hr.hidden.trans h.hidden, ?_, ?_, ?_,
    ?_, ?_, ?_, ?_⟩
  · exact fun id e he => (bare_key (hbare id)).trans (h.key id e he)
  · exact fun id e he => (bare_start (hbare id)).trans (h.start id e he)
  · intro id e he
    have hw : (r'.records id).bare.withdraws = (r.records id).bare.withdraws :=
      congrArg Record.withdraws (hbare id)
    exact hw.trans (h.withdraws id e he)
  · exact fun id => (bare_back (hbare id)).trans (h.front id)
  · intro id
    have hg : (r'.records id).bare.gone = (r.records id).bare.gone :=
      congrArg Record.gone (hbare id)
    exact hg.trans (h.here id)
  · intro id key start he
    have hw : (r'.records id).bare.withdrawn = (r.records id).bare.withdrawn :=
      congrArg Record.withdrawn (hbare id)
    have hw' : (r'.records id).withdrawn = (r.records id).withdrawn := hw
    rw [hw']
    exact h.withdrawn id key start he
  · intro id key start he
    have hid : id ∉ l := by
      intro hin
      obtain ⟨d, hd, rfl⟩ := hl id hin
      rw [getElem?_standing hd] at he
      cases he
    rw [hr.other id hid]
    exact h.before id key start he

lemma Recorded.modifySpace (h : Recorded r log) (kind : Kind) (f : Space → Space) :
    Recorded (r.modifySpace kind f) log :=
  ⟨h.count, h.placed, h.hidden, h.key, h.start, h.withdraws, h.front, h.here, h.withdrawn, h.before⟩

lemma Lists.modifySpace (h : Lists r lists) (kind : Kind) (f : Space → Space) :
    Lists (r.modifySpace kind f) lists := ⟨h.index, h.linked, h.key, h.lt, h.ordered⟩

/-- Declarations in front are in order when neither precedes the one before it. -/
lemma Recorded.precedes_iff (h : Recorded r log) (a b : ℕ) :
    precedes (r.records a) (r.records b) = true ↔ (r.records a).start < (r.records b).start := by
  rw [precedes, h.front a, h.front b]
  simp

/-- Lists in the order of where they start and of the log. -/
def Sorted (r : Roster) (l : List ℕ) : Prop :=
  l.Pairwise fun a b => (r.records a).start < (r.records b).start ∨
    (r.records a).start = (r.records b).start ∧ a < b

lemma Sorted.relinked {r' : Roster} {l l' : List ℕ} (h : Sorted r l) (hr : Relinked r r' l') :
    Sorted r' l := by
  refine h.imp fun {a b} hab => ?_
  rw [bare_start (hr.bare a), bare_start (hr.bare b)]
  exact hab

/-- A declaration that stands joins its key's list, after all that start where it does. -/
lemma Recorded.join (h : Recorded r log) (hlists : Lists r lists)
    (hsorted : ∀ key, Sorted r (lists key)) (hmem : ∀ key, ∀ id ∈ lists key,
      ∃ d ∈ standing log, d.id = id) {d : Declaration} (hd : d ∈ standing log)
    (hnew : d.id ∉ lists d.key)
    (hlast : ∀ a ∈ lists d.key, (r.records a).start = d.start → a < d.id) :
    ∃ lists', Lists (r.link d.id) lists' ∧ Relinked r (r.link d.id) (d.id :: lists d.key) ∧
      Recorded (r.link d.id) log ∧ (∀ key, Sorted (r.link d.id) (lists' key)) ∧
      (∀ key id, id ∈ lists' key ↔ id ∈ lists key ∨ id = d.id ∧ key = d.key) ∧
      ((r.link d.id).records d.id).linked = true ∧
      ∀ id, id ≠ d.id → ((r.link d.id).records id).linked = (r.records id).linked := by
  have hkey := h.standing_key hd
  have hstart := h.standing_start hd
  have hlt : d.id < r.count := by
    rw [h.count]
    exact lt_of_standing hd
  obtain ⟨l, l', hsplit, hl, hl', hlists', hr, hlinked⟩ := hlists.link hkey hlt hnew
  refine ⟨_, hlists', hr, h.relinked hr ?_, fun key => ?_, fun key id => ?_, hlinked, ?_⟩
  · intro id hid
    rcases List.mem_cons.mp hid with rfl | hid
    · exact ⟨d, hd, rfl⟩
    · exact hmem _ id hid
  · rw [Function.update_apply]
    split
    next heq =>
      have hold : Sorted (r.link d.id) (l ++ l') := by
        rw [← hsplit]
        exact (hsorted d.key).relinked hr
      have hstarts : ∀ id, ((r.link d.id).records id).start = (r.records id).start :=
        fun id => bare_start (hr.bare id)
      rw [Sorted, List.pairwise_append] at hold ⊢
      obtain ⟨hfirst, hsecond, hcross⟩ := hold
      refine ⟨hfirst, List.pairwise_cons.mpr ⟨fun b hb => ?_, hsecond⟩, fun a ha b hb => ?_⟩
      · left
        rw [hstarts, hstarts]
        exact (h.precedes_iff _ _).mp (hl' b hb)
      · rcases List.mem_cons.mp hb with rfl | hb
        · have hnot := hl a ha
          rw [← Bool.not_eq_true, h.precedes_iff, not_lt] at hnot
          rw [hstarts, hstarts]
          rcases Nat.lt_or_eq_of_le hnot with hlt | heq'
          · exact Or.inl hlt
          · refine Or.inr ⟨heq', hlast a ?_ (heq'.trans hstart)⟩
            rw [hsplit]
            exact List.mem_append_left _ ha
        · exact hcross a ha b hb
    next => exact (hsorted key).relinked hr
  · rw [Function.update_apply]
    split
    next heq =>
      subst heq
      rw [hsplit]
      simp only [List.mem_append, List.mem_cons, and_true]
      tauto
    next hne => simp [hne]
  · intro id hid
    by_cases hin : id ∈ lists d.key
    · have hold := (hlists.linked d.key).linked id hin
      have hin' : id ∈ Function.update lists d.key (l ++ d.id :: l') d.key := by
        rw [Function.update_self]
        rw [hsplit] at hin
        rcases List.mem_append.mp hin with hin | hin
        · exact List.mem_append_left _ hin
        · exact List.mem_append_right _ (List.mem_cons_of_mem _ hin)
      rw [hold, (hlists'.linked d.key).linked id hin']
    · rw [hr.other id fun hmem => (List.mem_cons.mp hmem).elim hid hin]

/-! ### The index takes records -/

lemma countP_take_succ {p : Event → Bool} {c : ℕ} {e : Event} (he : log[c]? = some e) :
    (log.take (c + 1)).countP p = (log.take c).countP p + if p e then 1 else 0 := by
  rw [List.take_add_one, List.countP_append, he, Option.toList_some, List.countP_singleton]

/-- The cursor of a kind moves past a record, which joins a list when it stands and is the
kind's. -/
lemma Indexed.advance (h : Indexed r log cursor lists) {kind : Kind} {e : Event}
    (he : log[cursor kind]? = some e) {r' : Roster} {lists' : Key → List ℕ}
    (hheld : Lists r' lists') (hsorted : ∀ key, Sorted r' (lists' key))
    (hmem : ∀ key id, id ∈ lists' key ↔ id ∈ lists key ∨
      ∃ d ∈ standing log, d.id = id ∧ d.key = key ∧ id = cursor kind ∧ key.1 = kind)
    (hlinked : ∀ id < log.length, (r'.records id).linked = true ↔ id ∈ lists' (r'.records id).key)
    (hrecords : ∀ k, (r'.spaces k).records = (r.spaces k).records)
    (hindexed : ∀ k, (r'.spaces k).indexed =
      (r.spaces k).indexed + if k = kind ∧ e.key.1 = kind then 1 else 0) :
    Indexed r' log (Function.update cursor kind (cursor kind + 1)) lists' := by
  have hlt : cursor kind < log.length := (List.getElem?_eq_some_iff.mp he).1
  refine ⟨hheld, fun k => ?_, fun key id => ?_, hsorted, hlinked, fun k => ?_, fun k => ?_, ?_⟩
  · rw [Function.update_apply]
    split
    next => exact hlt
    next => exact h.le k
  · rw [hmem, h.mem, Function.update_apply]
    by_cases hkind : key.1 = kind
    · rw [if_pos hkind, hkind]
      constructor
      · rintro (⟨d, hd, hid, hkey, hless⟩ | ⟨d, hd, hid, hkey, heq, -⟩)
        · exact ⟨d, hd, hid, hkey, Nat.lt_succ_of_lt hless⟩
        · exact ⟨d, hd, hid, hkey, heq ▸ Nat.lt_succ_self _⟩
      · rintro ⟨d, hd, hid, hkey, hless⟩
        rcases Nat.lt_succ_iff_lt_or_eq.mp hless with hless | heq
        · exact Or.inl ⟨d, hd, hid, hkey, hless⟩
        · exact Or.inr ⟨d, hd, hid, hkey, heq, rfl⟩
    · rw [if_neg hkind]
      refine or_iff_left ?_
      rintro ⟨d, -, -, -, -, heq⟩
      exact hkind heq
  · rw [hrecords, h.records]
  · rw [hindexed, h.indexed, Function.update_apply]
    by_cases hk : k = kind
    · subst hk
      rw [if_pos rfl, countP_take_succ he]
      simp
    · simp [hk]
  · intro id key start hid
    rw [Function.update_apply]
    split
    next heq =>
      have hless := h.taken id key start hid
      rw [heq] at hless
      exact Nat.lt_succ_of_lt hless
    next => exact h.taken id key start hid

lemma modifySpace_spaces (r : Roster) (kind : Kind) (f : Space → Space) (k : Kind) :
    (r.modifySpace kind f).spaces k = if k = kind then f (r.spaces kind) else r.spaces k :=
  Function.update_apply _ _ _ _

/-- The next record is taken: it joins its key's list when it stands. -/
lemma Indexed.takeRecord (hr : Recorded r log)
    (h : Indexed r log (fun kind => (r.spaces kind).cursor) lists) {kind : Kind}
    (hmore : (r.spaces kind).cursor < log.length) :
    ∃ lists', Recorded (r.takeRecord kind) log ∧
      Indexed (r.takeRecord kind) log (fun k => ((r.takeRecord kind).spaces k).cursor) lists' ∧
      ((r.takeRecord kind).spaces kind).cursor = (r.spaces kind).cursor + 1 := by
  obtain ⟨e, he⟩ : ∃ e, log[(r.spaces kind).cursor]? = some e :=
    ⟨_, List.getElem?_eq_getElem hmore⟩
  have hkey := hr.key _ e he
  obtain ⟨r₁, hr₁⟩ : ∃ r₁, r₁ = r.modifySpace kind fun space =>
      { space with cursor := space.cursor + 1 } := ⟨_, rfl⟩
  have hrecords₁ : r₁.records = r.records := by rw [hr₁]; rfl
  have hmoved : ∀ r' : Roster, (∀ k, (r'.spaces k).cursor = (r₁.spaces k).cursor) →
      (fun k => (r'.spaces k).cursor) =
        Function.update (fun k => (r.spaces k).cursor) kind ((r.spaces kind).cursor + 1) := by
    intro r' hsame
    funext k
    rw [hsame, hr₁, modifySpace_spaces, Function.update_apply]
    split <;> rfl
  have hspaces₁ : ∀ k, (r₁.spaces k).records = (r.spaces k).records ∧
      (r₁.spaces k).indexed = (r.spaces k).indexed := by
    intro k
    rw [hr₁, modifySpace_spaces]
    split
    next heq =>
      subst heq
      exact ⟨rfl, rfl⟩
    next => exact ⟨rfl, rfl⟩
  have hcursor₁ : (r₁.spaces kind).cursor = (r.spaces kind).cursor + 1 := by
    rw [hr₁, modifySpace_spaces, if_pos rfl]
  have hrecorded₁ : Recorded r₁ log := by
    rw [hr₁]
    exact hr.modifySpace kind _
  have hheld₁ : Lists r₁ lists := by
    rw [hr₁]
    exact h.held.modifySpace kind _
  have hsorted₁ : ∀ key, Sorted r₁ (lists key) := by
    rw [hr₁]
    exact h.ordered
  have hlinked₁ : ∀ id < log.length,
      (r₁.records id).linked = true ↔ id ∈ lists (r₁.records id).key := by
    rw [hr₁]
    exact h.linked
  by_cases hkind : e.key.1 = kind
  · obtain ⟨r₂, hr₂⟩ : ∃ r₂, r₂ = r₁.modifySpace kind fun space =>
        { space with indexed := space.indexed + 1 } := ⟨_, rfl⟩
    have hrecorded₂ : Recorded r₂ log := by
      rw [hr₂]
      exact hrecorded₁.modifySpace kind _
    have hheld₂ : Lists r₂ lists := by
      rw [hr₂]
      exact hheld₁.modifySpace kind _
    have hsorted₂ : ∀ key, Sorted r₂ (lists key) := by
      rw [hr₂]
      exact hsorted₁
    have hlinked₂ : ∀ id < log.length,
        (r₂.records id).linked = true ↔ id ∈ lists (r₂.records id).key := by
      rw [hr₂]
      exact hlinked₁
    have hspaces₂ : ∀ k, (r₂.spaces k).cursor = (r₁.spaces k).cursor ∧
        (r₂.spaces k).records = (r.spaces k).records ∧
        (r₂.spaces k).indexed =
          (r.spaces k).indexed + if k = kind ∧ e.key.1 = kind then 1 else 0 := by
      intro k
      rw [hr₂, modifySpace_spaces]
      split
      next heq =>
        subst heq
        simp [hspaces₁, hkind]
      next hne => simp [hspaces₁, hne]
    have hkey' : (r.records (r.spaces kind).cursor).key.1 = kind := by rw [hkey, hkind]
    by_cases hstands : (r.records (r.spaces kind).cursor).stands = true
    · have htake : r.takeRecord kind = r₂.link (r.spaces kind).cursor := by
        rw [Roster.takeRecord, hr₂, hr₁]
        exact (if_neg (not_not.mpr hkey')).trans (if_pos hstands)
      obtain ⟨d, hd, hid⟩ := (hr.stands_iff hmore).mp hstands
      have hless : ∀ key, ∀ a ∈ lists key, key.1 = kind → a < d.id := by
        intro key a ha hk
        obtain ⟨-, -, -, -, hlt⟩ := (h.mem key a).mp ha
        rw [hid, ← hk]
        exact hlt
      have hdkey : d.key = e.key := by
        rw [← hr.standing_key hd, hid, hkey]
      have hdkind : d.key.1 = kind := by rw [hdkey, hkind]
      obtain ⟨lists', hheld', hrelinked, hrecorded', hsorted', hmem', hlinked', hsame⟩ :=
        hrecorded₂.join hheld₂ hsorted₂ (fun key id hin => by
          obtain ⟨d', hd', hid', -, -⟩ := (h.mem key id).mp hin
          exact ⟨d', hd', hid'⟩) hd
          (fun hin => lt_irrefl _ (hless d.key d.id hin hdkind))
          fun a ha _ => hless d.key a ha hdkind
      have htake' : r.takeRecord kind = r₂.link d.id := by rw [htake, hid]
      rw [htake']
      have hspaces : ∀ k, ((r₂.link d.id).spaces k) = r₂.spaces k := fun k => by
        rw [hrelinked.spaces]
      have hkeys : ∀ id, ((r₂.link d.id).records id).key = (r₂.records id).key :=
        fun id => bare_key (hrelinked.bare id)
      refine ⟨lists', hrecorded', ?_, ?_⟩
      · rw [hmoved _ fun k => by rw [hspaces, (hspaces₂ k).1]]
        refine h.advance he hheld' hsorted' (fun key id => ?_) (fun id hlt => ?_)
          (fun k => by rw [hspaces, (hspaces₂ k).2.1]) fun k => by rw [hspaces, (hspaces₂ k).2.2]
        · rw [hmem']
          refine or_congr_right ⟨?_, ?_⟩
          · rintro ⟨rfl, rfl⟩
            exact ⟨d, hd, rfl, rfl, hid, hdkind⟩
          · rintro ⟨d', hd', hid', hkey', heq, -⟩
            have heq' := (ordered_standing log).unique hd' hd (by rw [hid', heq, hid])
            exact ⟨by rw [← hid', heq'], by rw [← hkey', heq']⟩
        · rw [hkeys, hmem']
          by_cases heq : id = d.id
          · rw [heq, hlinked']
            exact iff_of_true rfl (Or.inr ⟨rfl, hrecorded₂.standing_key hd⟩)
          · rw [hsame id heq, hlinked₂ id hlt]
            exact (or_iff_left fun hor => heq hor.1).symm
      · rw [hspaces, (hspaces₂ kind).1, hcursor₁]
    · have htake : r.takeRecord kind = r₂ := by
        rw [Roster.takeRecord, hr₂, hr₁]
        exact (if_neg (not_not.mpr hkey')).trans (if_neg hstands)
      rw [htake]
      refine ⟨lists, hrecorded₂, ?_, by rw [(hspaces₂ kind).1, hcursor₁]⟩
      rw [hmoved r₂ fun k => (hspaces₂ k).1]
      refine h.advance he hheld₂ hsorted₂ (fun key id => ?_) hlinked₂ (fun k => (hspaces₂ k).2.1)
        fun k => (hspaces₂ k).2.2
      refine (or_iff_left ?_).symm
      rintro ⟨d, hd, hid, -, heq, -⟩
      exact hstands ((hr.stands_iff hmore).mpr ⟨d, hd, hid.trans heq⟩)
  · have htake : r.takeRecord kind = r₁ := by
      rw [Roster.takeRecord, hr₁]
      dsimp only
      exact if_pos fun heq => hkind (by rw [← heq, ← hkey]; rfl)
    rw [htake]
    refine ⟨lists, hrecorded₁, ?_, hcursor₁⟩
    rw [hmoved r₁ fun _ => rfl]
    refine h.advance he hheld₁ hsorted₁ (fun key id => ?_) hlinked₁ (fun k => (hspaces₁ k).1)
      fun k => ?_
    · refine (or_iff_left ?_).symm
      rintro ⟨d, hd, hid, hdkey, heq, hk⟩
      have hevent := getElem?_standing hd
      rw [hid, heq, he, Option.some_inj] at hevent
      exact hkind (by rw [hevent, ← hk, ← hdkey]; rfl)
    · rw [(hspaces₁ k).2, if_neg fun hk => hkind hk.2]
      rfl

/-- The kind's records are all taken. -/
lemma Indexed.takeRecords (hr : Recorded r log)
    (h : Indexed r log (fun k => (r.spaces k).cursor) lists) (kind : Kind) {fuel : ℕ}
    (hfuel : log.length ≤ (r.spaces kind).cursor + fuel) :
    ∃ lists', Recorded (Roster.takeRecords kind fuel r) log ∧
      Indexed (Roster.takeRecords kind fuel r) log
        (fun k => ((Roster.takeRecords kind fuel r).spaces k).cursor) lists' ∧
      ∀ e ∈ log.drop ((Roster.takeRecords kind fuel r).spaces kind).cursor, e.key.1 ≠ kind := by
  induction fuel generalizing r lists with
  | zero =>
    rw [Nat.add_zero] at hfuel
    refine ⟨lists, hr, h, fun e he => ?_⟩
    rw [Roster.takeRecords, List.drop_of_length_le hfuel] at he
    cases he
  | succ fuel ih =>
    rw [Roster.takeRecords]
    by_cases hmore : (r.spaces kind).indexed < (r.spaces kind).records
    · rw [if_pos hmore]
      have hlt : (r.spaces kind).cursor < log.length := by
        by_contra hle
        rw [h.indexed, h.records, List.take_of_length_le (not_lt.mp hle)] at hmore
        exact lt_irrefl _ hmore
      obtain ⟨lists', hr', h', hcursor⟩ := h.takeRecord hr hlt
      exact ih hr' h' (by omega)
    · rw [if_neg hmore]
      refine ⟨lists, hr, h, fun e he hkind => ?_⟩
      rw [h.indexed, h.records, not_lt, ← List.take_append_drop (r.spaces kind).cursor log,
        List.countP_append, List.take_append_drop] at hmore
      have hnone : (log.drop (r.spaces kind).cursor).countP (fun e => e.key.1 = kind) = 0 := by
        omega
      rw [List.countP_eq_zero] at hnone
      exact hnone e he (decide_eq_true hkind)

/-- A cursor passes records of other kinds. -/
lemma Indexed.pass (h : Indexed r log (fun k => (r.spaces k).cursor) lists) {kind : Kind}
    (hdrop : ∀ e ∈ log.drop (r.spaces kind).cursor, e.key.1 ≠ kind) :
    Indexed (r.modifySpace kind fun space => { space with cursor := log.length }) log
      (fun k => ((r.modifySpace kind fun space =>
        { space with cursor := log.length }).spaces k).cursor) lists := by
  have hspaces : ∀ k, ((r.modifySpace kind fun space =>
      { space with cursor := log.length }).spaces k).cursor =
        if k = kind then log.length else (r.spaces k).cursor := by
    intro k
    rw [modifySpace_spaces]
    split <;> rfl
  have hspaces' : ∀ k, ((r.modifySpace kind fun space =>
      { space with cursor := log.length }).spaces k).records = (r.spaces k).records ∧
      ((r.modifySpace kind fun space => { space with cursor := log.length }).spaces k).indexed =
        (r.spaces k).indexed := by
    intro k
    rw [modifySpace_spaces]
    split
    next heq =>
      subst heq
      exact ⟨rfl, rfl⟩
    next => exact ⟨rfl, rfl⟩
  refine ⟨h.held.modifySpace kind _, fun k => ?_, fun key id => ?_, h.ordered, h.linked,
    fun k => by rw [(hspaces' k).1, h.records], fun k => ?_, fun id key start hid => ?_⟩
  · rw [hspaces]
    split
    next => exact le_rfl
    next => exact h.le k
  · rw [h.mem, hspaces]
    by_cases hkind : key.1 = kind
    · rw [if_pos hkind, hkind]
      constructor
      · rintro ⟨d, hd, hid, hkey, -⟩
        exact ⟨d, hd, hid, hkey, hid ▸ lt_of_standing hd⟩
      · rintro ⟨d, hd, hid, hkey, hlt⟩
        refine ⟨d, hd, hid, hkey, ?_⟩
        by_contra hle
        rw [not_lt, ← hid] at hle
        have hevent := getElem?_standing hd
        rw [← Nat.add_sub_cancel' hle, ← List.getElem?_drop] at hevent
        exact hdrop _ (List.mem_of_getElem? hevent) (by rw [← hkind, ← hkey]; rfl)
    · rw [if_neg hkind]
  · rw [(hspaces' k).2, h.indexed, hspaces]
    by_cases hk : k = kind
    · rw [if_pos hk, List.take_length, hk]
      have hnone : (log.drop (r.spaces kind).cursor).countP (fun e => e.key.1 = kind) = 0 := by
        rw [List.countP_eq_zero]
        exact fun e he => by simpa using hdrop e he
      conv_rhs => rw [← List.take_append_drop (r.spaces kind).cursor log, List.countP_append, hnone]
      rfl
    · rw [if_neg hk]
  · rw [hspaces]
    split
    next => exact (List.getElem?_eq_some_iff.mp hid).1
    next => exact h.taken id key start hid

/-- A lookup's index holds every declaration of its kind that stands. -/
lemma Tracks.indexSpace (h : Tracks r log) (kind : Kind) :
    Tracks (r.indexSpace kind) log ∧ ((r.indexSpace kind).spaces kind).cursor = log.length := by
  obtain ⟨lists, hindexed⟩ := h.indexed
  have hcount := h.recorded.count
  have hfuel : log.length ≤ (r.spaces kind).cursor + r.count := by omega
  obtain ⟨lists', hr, hindexed', hdrop⟩ := hindexed.takeRecords h.recorded kind hfuel
  rw [Roster.indexSpace, hcount]
  rw [hcount] at hr hindexed' hdrop
  refine ⟨⟨hr.modifySpace kind _, lists', hindexed'.pass hdrop⟩, ?_⟩
  rw [modifySpace_spaces, if_pos rfl]

end MarkdownCore.Declarations
