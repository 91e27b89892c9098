import Mathlib.Data.List.Induction

/-!
# What a history leaves

A value is made by some events, ended by others and revised by the rest. What a row of events
leaves of it is what the last event that made it made, as the events since then revised it, when
none since then ended it.
-/

namespace History

variable {ε α : Type*}

/-- How events make, end and revise a value, read one after another by `next`. -/
structure Reads (next : Option α → ε → Option α) (Made : ε → α → Prop) (Ends : ε → Prop)
    (revise : α → ε → α) : Prop where
  made : ∀ {e a} held, Made e a → next held e = some a
  ended : ∀ {e} held, (∀ a, ¬ Made e a) → Ends e → next held e = none
  revised : ∀ {e} held, (∀ a, ¬ Made e a) → ¬ Ends e → next held e = held.map (revise · e)

variable {next : Option α → ε → Option α} {Made : ε → α → Prop} {Ends : ε → Prop}
  {revise : α → ε → α}

/-- A list with an entry after it, split at one of its entries: at the last, or before it. -/
lemma append_singleton_eq_iff {events before after : List ε} {last e : ε} :
    events ++ [last] = before ++ e :: after ↔
      (after = [] ∧ before = events ∧ e = last) ∨
        ∃ since, after = since ++ [last] ∧ events = before ++ e :: since := by
  constructor
  · intro heq
    rcases after.eq_nil_or_concat with rfl | ⟨since, final, rfl⟩
    · obtain ⟨hevents, hlast⟩ := List.append_inj' heq rfl
      exact Or.inl ⟨rfl, hevents.symm, (List.singleton_inj.mp hlast).symm⟩
    · rw [List.concat_eq_append, ← List.cons_append, ← List.append_assoc] at heq
      obtain ⟨hevents, hlast⟩ := List.append_inj' heq rfl
      rw [List.concat_eq_append, List.singleton_inj.mp hlast]
      exact Or.inr ⟨since, rfl, hevents⟩
  · rintro (⟨rfl, rfl, rfl⟩ | ⟨since, rfl, rfl⟩)
    · rfl
    · rw [List.append_assoc, List.cons_append]

/-- A history leaves a value when an event made it and none since then made or ended it. -/
theorem Reads.foldl_eq_some_iff (h : Reads next Made Ends revise) {events : List ε} {a : α} :
    events.foldl next none = some a ↔
      ∃ before e made after, events = before ++ e :: after ∧ Made e made ∧
        (∀ event ∈ after, (∀ other, ¬ Made event other) ∧ ¬ Ends event) ∧
        a = after.foldl revise made := by
  induction events using List.reverseRecOn generalizing a with
  | nil =>
    constructor
    · intro hnone
      exact absurd hnone (by simp)
    · rintro ⟨before, e, made, after, heq, -⟩
      exact absurd heq (by simp)
  | append_singleton events last ih =>
    rw [List.foldl_append, List.foldl_cons, List.foldl_nil]
    -- The value was made by the last event, or by one before it.
    simp only [append_singleton_eq_iff]
    by_cases hmade : ∃ made, Made last made
    · obtain ⟨made, hmade⟩ := hmade
      rw [h.made _ hmade, Option.some.injEq]
      constructor
      · rintro rfl
        exact ⟨events, last, made, [], Or.inl ⟨rfl, rfl, rfl⟩, hmade, by simp, rfl⟩
      · rintro ⟨before, e, made', after, hsplit, hmade', hquiet, rfl⟩
        rcases hsplit with ⟨rfl, rfl, rfl⟩ | ⟨since, rfl, -⟩
        · exact Option.some.inj ((h.made none hmade).symm.trans (h.made none hmade'))
        · exact absurd hmade ((hquiet last (by simp)).1 made)
    · have hnot : ∀ made, ¬ Made last made := fun made hm => hmade ⟨made, hm⟩
      by_cases hends : Ends last
      · rw [h.ended _ hnot hends]
        constructor
        · intro hnone
          exact absurd hnone (by simp)
        · rintro ⟨before, e, made', after, hsplit, hmade', hquiet, -⟩
          rcases hsplit with ⟨rfl, rfl, rfl⟩ | ⟨since, rfl, -⟩
          · exact absurd hmade' (hnot made')
          · exact absurd hends (hquiet last (by simp)).2
      · rw [h.revised _ hnot hends, Option.map_eq_some_iff]
        constructor
        · rintro ⟨held, hheld, rfl⟩
          obtain ⟨before, e, made, after, rfl, hmade', hquiet, rfl⟩ := ih.mp hheld
          refine ⟨before, e, made, after ++ [last], Or.inr ⟨after, rfl, rfl⟩, hmade', ?_, ?_⟩
          · intro event hevent
            rcases List.mem_append.mp hevent with hin | hin
            · exact hquiet event hin
            · exact List.mem_singleton.mp hin ▸ ⟨hnot, hends⟩
          · rw [List.foldl_append, List.foldl_cons, List.foldl_nil]
        · rintro ⟨before, e, made, after, hsplit, hmade', hquiet, rfl⟩
          rcases hsplit with ⟨rfl, rfl, rfl⟩ | ⟨since, rfl, hevents⟩
          · exact absurd hmade' (hnot made)
          · refine ⟨_, ih.mpr ⟨before, e, made, since, hevents, hmade', ?_, rfl⟩, ?_⟩
            · exact fun event hevent => hquiet event (List.mem_append_left _ hevent)
            · rw [List.foldl_append, List.foldl_cons, List.foldl_nil]

end History
