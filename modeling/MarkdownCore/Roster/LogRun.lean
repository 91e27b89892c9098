import MarkdownCore.Roster.LogSteps

/-!
# The roster over its log

Over any run of declarations, withdrawals, marks, rollbacks and lookups the roster answers as a log
kept as a value does: a rollback puts back the log its mark was taken of, so that what follows
answers as though nothing after the mark had been declared, withdrawn or looked up.
-/

namespace MarkdownCore.Declarations

/-- A call of the roster. A rollback is to a mark, by how many were taken after it and still are. -/
inductive Call where
  | declare (kind : Kind) (label : Label) (start : ℕ)
  | withdraw (kind : Kind) (label : Label) (start : ℕ)
  | mark
  | rollback (after : ℕ)
  | find (kind : Kind) (label : Label)
  | findLabel (kind : Kind) (label : Label)
deriving DecidableEq

/-- A roster and the marks taken of it, the last first. -/
structure Held where
  roster : Roster
  marks : List Mark

/-- A log and those that marks were taken of, the last first. -/
structure Kept where
  log : List Event
  marks : List (List Event)
deriving DecidableEq

variable (normalize : Label → Label)

/-- A call of the roster, and what a lookup answers. -/
def Call.perform : Call → Held → Option (Held × List (Option ℕ))
  | declare kind label start, s => some ({ s with roster := s.roster.declare kind label start }, [])
  | withdraw kind label start, s =>
    (s.roster.withdraw kind label start).map fun roster => ({ s with roster }, [])
  | mark, s => some ({ s with marks := s.roster.markNow :: s.marks }, [])
  | rollback after, s => (s.marks[after]?).map fun mark =>
    ({ roster := s.roster.rollback mark, marks := s.marks.drop after }, [])
  | find kind label, s =>
    let found := s.roster.find kind label
    some ({ s with roster := found.1 }, [found.2])
  | findLabel kind label, s =>
    let found := s.roster.findLabel normalize kind label
    some ({ s with roster := found.1 }, [found.2])

/-- What a call means of the log: nothing where a label withdrawn has no declaration that stands and
starts there, or where there is no mark. -/
def Call.record : Call → Kept → Option (Kept × List (Option ℕ))
  | declare kind label start, s =>
    some (if label = [] then s else { s with log := s.log ++ [.declare (kind, label) start] }, [])
  | withdraw kind label start, s =>
    if ∃ d ∈ standing s.log, d.key = (kind, label) ∧ d.start = start
    then some ({ s with log := s.log ++ [.withdraw (kind, label) start] }, []) else none
  | mark, s => some ({ s with marks := s.log :: s.marks }, [])
  | rollback after, s => (s.marks[after]?).map fun log => ({ log, marks := s.marks.drop after }, [])
  | find kind label, s =>
    some (s, [(earliest (standing s.log) (kind, label)).map Declaration.id])
  | findLabel kind label, s =>
    some (s, [if label = [] ∨ Roster.maxLabel < label.length then none
      else (earliest (standing s.log) (kind, normalize label)).map Declaration.id])

/-- Calls one after another, and what their lookups answer. -/
def run {α : Type} (step : Call → α → Option (α × List (Option ℕ))) :
    List Call → α → Option (α × List (Option ℕ))
  | [], s => some (s, [])
  | call :: calls, s =>
    (step call s).bind fun next =>
      (run step calls next.1).map fun rest => (rest.1, next.2 ++ rest.2)

/-- The roster is that of the log, and each mark that of its own. -/
structure Follows (s : Held) (k : Kept) : Prop where
  tracks : Tracks s.roster k.log
  named : ∀ e ∈ k.log, e.key.2 ≠ []
  count : s.marks.map Mark.count = k.marks.map List.length
  marked : ∀ log ∈ k.marks, log <+: k.log
  nested : k.marks.Pairwise fun log log' => log' <+: log

variable {s : Held} {k : Kept}

lemma Follows.standing_named (h : Follows s k) : ∀ d ∈ standing k.log, d.key.2 ≠ [] :=
  fun _ hd => h.named _ (List.mem_of_getElem? (getElem?_standing hd))

/-- The log is longer, and the marks are as they were. -/
lemma Follows.grow (h : Follows s k) {roster : Roster} {e : Event}
    (htracks : Tracks roster (k.log ++ [e])) (hnamed : e.key.2 ≠ []) :
    Follows { s with roster } { k with log := k.log ++ [e] } := by
  refine ⟨htracks, fun e' he' => ?_, h.count, fun log hlog => ?_, h.nested⟩
  · rcases List.mem_append.mp he' with he' | he'
    · exact h.named e' he'
    · rw [List.mem_singleton.mp he']
      exact hnamed
  · exact (h.marked log hlog).trans (List.prefix_append _ _)

/-- A call of the roster does what it means of the log. -/
lemma Follows.step (h : Follows s k) {call : Call} {k' : Kept} {answers : List (Option ℕ)}
    (hcall : call.record normalize k = some (k', answers)) :
    ∃ s', call.perform normalize s = some (s', answers) ∧ Follows s' k' := by
  cases call with
  | declare kind label start =>
    simp only [Call.record, Option.some.injEq, Prod.mk.injEq] at hcall
    obtain ⟨rfl, rfl⟩ := hcall
    refine ⟨_, rfl, ?_⟩
    rw [Roster.declare]
    by_cases hlabel : label = []
    · rw [if_pos hlabel, if_pos hlabel]
      exact h
    · rw [if_neg hlabel, if_neg hlabel, h.tracks.recorded.placed, if_pos (by rfl)]
      exact h.grow (h.tracks.declared kind label start) hlabel
  | withdraw kind label start =>
    simp only [Call.record] at hcall
    split at hcall
    next hstands =>
      simp only [Option.some.injEq, Prod.mk.injEq] at hcall
      obtain ⟨rfl, rfl⟩ := hcall
      obtain ⟨roster, hroster, htracks⟩ := h.tracks.withdraw hstands
      refine ⟨{ s with roster }, ?_, h.grow htracks ?_⟩
      · rw [Call.perform, hroster]
        rfl
      · obtain ⟨d, hd, hkey, -⟩ := hstands
        have hnamed := h.standing_named d hd
        rw [hkey] at hnamed
        exact hnamed
    next => cases hcall
  | mark =>
    simp only [Call.record, Option.some.injEq, Prod.mk.injEq] at hcall
    obtain ⟨rfl, rfl⟩ := hcall
    refine ⟨_, rfl, h.tracks, h.named, ?_, fun log hlog => ?_, ?_⟩
    · rw [List.map_cons, List.map_cons, h.count, Roster.markNow, h.tracks.recorded.count]
    · rcases List.mem_cons.mp hlog with rfl | hlog
      · exact List.prefix_rfl
      · exact h.marked log hlog
    · exact List.pairwise_cons.mpr ⟨h.marked, h.nested⟩
  | rollback after =>
    simp only [Call.record, Option.map_eq_some_iff, Prod.mk.injEq] at hcall
    obtain ⟨log, hlog, rfl, rfl⟩ := hcall
    have hcount : (s.marks.map Mark.count)[after]? = some log.length := by
      rw [h.count, List.getElem?_map, hlog]
      rfl
    rw [List.getElem?_map, Option.map_eq_some_iff] at hcount
    obtain ⟨mark, hmark, hlength⟩ := hcount
    have hpre := h.marked log (List.mem_of_getElem? hlog)
    refine ⟨_, by rw [Call.perform, hmark, Option.map_some], ?_, ?_, ?_, ?_, ?_⟩
    · have htracks := h.tracks.rollback (hlength.trans_le hpre.length_le)
      rw [hlength, ← List.prefix_iff_eq_take.mp hpre] at htracks
      exact htracks
    · exact fun e he => h.named e (hpre.subset he)
    · rw [List.map_drop, h.count, List.map_drop]
    · obtain ⟨hlt, heq⟩ := List.getElem?_eq_some_iff.mp hlog
      have hnested := h.nested.sublist (List.drop_sublist after k.marks)
      rw [List.drop_eq_getElem_cons hlt, heq] at hnested
      intro log' hlog'
      rw [List.drop_eq_getElem_cons hlt, heq] at hlog'
      rcases List.mem_cons.mp hlog' with rfl | hlog'
      · exact List.prefix_rfl
      · exact (List.pairwise_cons.mp hnested).1 log' hlog'
    · exact h.nested.sublist (List.drop_sublist _ _)
  | find kind label =>
    simp only [Call.record, Option.some.injEq, Prod.mk.injEq] at hcall
    obtain ⟨rfl, rfl⟩ := hcall
    obtain ⟨htracks, hfound⟩ := h.tracks.find h.standing_named kind label
    rw [← hfound]
    exact ⟨_, rfl, htracks, h.named, h.count, h.marked, h.nested⟩
  | findLabel kind label =>
    simp only [Call.record, Option.some.injEq, Prod.mk.injEq] at hcall
    obtain ⟨rfl, rfl⟩ := hcall
    obtain ⟨htracks, hfound⟩ := h.tracks.findLabel h.standing_named normalize kind label
    rw [← hfound]
    exact ⟨_, rfl, htracks, h.named, h.count, h.marked, h.nested⟩

/-- Calls of the roster do what they mean of the log. -/
lemma Follows.run (h : Follows s k) {calls : List Call} {k' : Kept} {answers : List (Option ℕ)}
    (hrun : run (Call.record normalize) calls k = some (k', answers)) :
    ∃ s', Declarations.run (Call.perform normalize) calls s = some (s', answers) ∧
      Follows s' k' := by
  induction calls generalizing s k answers with
  | nil =>
    simp only [Declarations.run, Option.some.injEq, Prod.mk.injEq] at hrun
    obtain ⟨rfl, rfl⟩ := hrun
    exact ⟨s, rfl, h⟩
  | cons call calls ih =>
    simp only [Declarations.run, Option.bind_eq_some_iff, Option.map_eq_some_iff,
      Prod.mk.injEq] at hrun
    obtain ⟨⟨k₁, first⟩, hfirst, ⟨k₂, rest⟩, hrest, rfl, rfl⟩ := hrun
    obtain ⟨s₁, hs₁, hfollows⟩ := h.step normalize hfirst
    obtain ⟨s₂, hs₂, hfollows'⟩ := ih hfollows hrest
    refine ⟨s₂, ?_, hfollows'⟩
    rw [Declarations.run, hs₁, Option.bind_some, hs₂]
    rfl

/-- From the empty roster, whatever is declared, withdrawn, marked, rolled back and looked up in
whatever order, every lookup answers as the log does. -/
theorem roster_answers_as_log {calls : List Call} {k : Kept} {answers : List (Option ℕ)}
    (hrun : run (Call.record normalize) calls ⟨[], []⟩ = some (k, answers)) :
    ∃ s, run (Call.perform normalize) calls ⟨Roster.init, []⟩ = some (s, answers) ∧
      s.roster.count = k.log.length := by
  have hinit : Follows ⟨Roster.init, []⟩ ⟨[], []⟩ :=
    ⟨tracks_init, fun e he => absurd he (by simp), rfl, nofun, List.Pairwise.nil⟩
  obtain ⟨s, hs, hfollows⟩ := hinit.run normalize hrun
  exact ⟨s, hs, hfollows.tracks.recorded.count⟩

/-- A label declared twice, the earlier withdrawn after a mark and the mark rolled back to. -/
def declaredTwice : List Call :=
  [.declare .reference [97] 3, .mark, .declare .reference [97] 7, .find .reference [97],
    .withdraw .reference [97] 3, .find .reference [97], .rollback 0, .findLabel .reference [97]]

theorem roster_answers_as_log_twice :
    ∃ s, run (Call.perform id) declaredTwice ⟨Roster.init, []⟩ =
        some (s, [some 0, some 1, some 0]) ∧ s.roster.count = 1 :=
  roster_answers_as_log id (k := ⟨[.declare (.reference, [97]) 3],
    [[.declare (.reference, [97]) 3]]⟩) (by decide)

end MarkdownCore.Declarations
