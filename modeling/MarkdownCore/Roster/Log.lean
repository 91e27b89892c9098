import Mathlib.Data.List.Induction
import MarkdownCore.Roster.Roster

/-!
# What stands

A log of declarations and withdrawals says which declarations stand: a withdrawal ends the last
declared of those of its key that start where it does. A lookup of a key answers the earliest of
the key's that stand, and a rollback leaves the log as it was at its mark.
-/

namespace MarkdownCore.Declarations

/-- What a log holds of a record. -/
inductive Event where
  | declare (key : Key) (start : ℕ)
  | withdraw (key : Key) (start : ℕ)
deriving DecidableEq

/-- A declaration, by its place in the log. -/
structure Declaration where
  id : ℕ
  key : Key
  start : ℕ
deriving DecidableEq

namespace Event

def key : Event → Key
  | declare key _ => key
  | withdraw key _ => key

def start : Event → ℕ
  | declare _ start => start
  | withdraw _ start => start

def withdraws : Event → Bool
  | declare _ _ => false
  | withdraw _ _ => true

end Event

/-- The last declared of those of a key that start at a place. -/
def target (held : List Declaration) (key : Key) (start : ℕ) : Option ℕ :=
  ((held.filter fun d => d.key = key ∧ d.start = start).getLast?).map Declaration.id

/-- What stands after an event. -/
def Event.next (held : List Declaration) (id : ℕ) : Event → List Declaration
  | .declare key start => held ++ [⟨id, key, start⟩]
  | .withdraw key start => held.filter fun d => some d.id ≠ target held key start

/-- What stands after a log, in the order it was declared. -/
def standing (log : List Event) : List Declaration :=
  (log.foldl (fun held event => (event.next held.1 held.2, held.2 + 1)) ([], 0)).1

/-- The earliest of a key's, the first declared of those that start there. -/
def earliest (held : List Declaration) (key : Key) : Option Declaration :=
  (held.filter fun d => d.key = key).foldl
    (fun best d => match best with
      | none => some d
      | some b => if d.start < b.start then some d else some b) none

/-! ### What stands, event by event -/

lemma standing_append (log : List Event) (event : Event) :
    standing (log ++ [event]) = event.next (standing log) log.length := by
  have hlength : ∀ (log : List Event) (held : List Declaration × ℕ),
      (log.foldl (fun held event => (event.next held.1 held.2, held.2 + 1)) held).2 =
        held.2 + log.length := by
    intro log
    induction log with
    | nil =>
      intro held
      rfl
    | cons event log ih =>
      intro held
      rw [List.foldl_cons, ih, List.length_cons]
      dsimp only
      rw [Nat.add_assoc, Nat.add_comm 1]
  rw [standing, List.foldl_append, List.foldl_cons, List.foldl_nil, hlength, Nat.zero_add]
  rfl

/-- Declarations stand where the log declares them, in its order. -/
structure Ordered (log : List Event) (held : List Declaration) : Prop where
  declared : ∀ d ∈ held, log[d.id]? = some (.declare d.key d.start)
  ordered : held.Pairwise fun a b => a.id < b.id

lemma Ordered.lt {log : List Event} {held : List Declaration} (h : Ordered log held) {d : Declaration}
    (hd : d ∈ held) : d.id < log.length := by
  obtain ⟨hlt, -⟩ := List.getElem?_eq_some_iff.mp (h.declared d hd)
  exact hlt

lemma Ordered.unique {log : List Event} {held : List Declaration} (h : Ordered log held)
    {d d' : Declaration} (hd : d ∈ held) (hd' : d' ∈ held) (hid : d.id = d'.id) : d = d' := by
  have heq := h.declared d hd
  rw [hid, h.declared d' hd'] at heq
  obtain ⟨hkey, hstart⟩ := Event.declare.inj (Option.some.inj heq)
  cases d
  cases d'
  simp_all

lemma ordered_standing (log : List Event) : Ordered log (standing log) := by
  induction log using List.reverseRecOn with
  | nil => exact ⟨nofun, List.Pairwise.nil⟩
  | append_singleton log event ih =>
    have hold : ∀ d ∈ standing log, (log ++ [event])[d.id]? = some (.declare d.key d.start) := by
      intro d hd
      rw [List.getElem?_append_left (ih.lt hd)]
      exact ih.declared d hd
    rw [standing_append]
    cases event with
    | declare key start =>
      constructor
      · intro d hd
        rcases List.mem_append.mp hd with hd | hd
        · exact hold d hd
        · rw [List.mem_singleton.mp hd]
          exact List.getElem?_concat_length
      · refine List.pairwise_append.mpr ⟨ih.ordered, List.pairwise_singleton _ _, ?_⟩
        intro d hd d' hd'
        rw [List.mem_singleton.mp hd']
        exact ih.lt hd
    | withdraw key start =>
      constructor
      · intro d hd
        exact hold d (List.mem_filter.mp hd).1
      · exact ih.ordered.sublist List.filter_sublist

/-- The declaration a withdrawal ends is the last declared of those it may end. -/
lemma target_eq_some {log : List Event} {held : List Declaration} (h : Ordered log held) {key : Key}
    {start : ℕ} {d : Declaration} (hd : d ∈ held) (hkey : d.key = key) (hstart : d.start = start)
    (hlast : ∀ d' ∈ held, d'.key = key → d'.start = start → d'.id ≤ d.id) :
    target held key start = some d.id := by
  have hmem : d ∈ held.filter fun d => d.key = key ∧ d.start = start :=
    List.mem_filter.mpr ⟨hd, by simp [hkey, hstart]⟩
  have hordered := h.ordered.sublist (List.filter_sublist (l := held)
    (p := fun d => decide (d.key = key ∧ d.start = start)))
  rw [target]
  cases hgetLast : (held.filter fun d => d.key = key ∧ d.start = start).getLast? with
  | none =>
    rw [List.getLast?_eq_none_iff.mp hgetLast] at hmem
    cases hmem
  | some last =>
    obtain ⟨before, hsplit⟩ := List.getLast?_eq_some_iff.mp hgetLast
    have hin := List.mem_of_getLast? hgetLast
    obtain ⟨hheld, hcond⟩ := List.mem_filter.mp hin
    have hcond := of_decide_eq_true hcond
    have hle := hlast last hheld hcond.1 hcond.2
    rw [hsplit] at hmem hordered
    rcases List.mem_append.mp hmem with hmem | hmem
    · have hlt := (List.pairwise_append.mp hordered).2.2 d hmem last (List.mem_singleton_self _)
      exact absurd hlt (Nat.not_lt_of_le hle)
    · rw [List.mem_singleton.mp hmem]
      rfl

lemma target_isSome {held : List Declaration} {key : Key} {start : ℕ}
    (h : ∃ d ∈ held, d.key = key ∧ d.start = start) :
    ∃ d ∈ held, d.key = key ∧ d.start = start ∧ target held key start = some d.id := by
  obtain ⟨d, hd, hcond⟩ := h
  have hmem : d ∈ held.filter fun d => d.key = key ∧ d.start = start :=
    List.mem_filter.mpr ⟨hd, decide_eq_true hcond⟩
  rw [target]
  cases hgetLast : (held.filter fun d => d.key = key ∧ d.start = start).getLast? with
  | none =>
    rw [List.getLast?_eq_none_iff.mp hgetLast] at hmem
    cases hmem
  | some last =>
    obtain ⟨hheld, hcond⟩ := List.mem_filter.mp (List.mem_of_getLast? hgetLast)
    obtain ⟨hkey, hstart⟩ := of_decide_eq_true hcond
    exact ⟨last, hheld, hkey, hstart, rfl⟩

/-- A declaration starts before another, or where it does and was declared before it. -/
def Earlier (a b : Declaration) : Prop := a.start < b.start ∨ a.start = b.start ∧ a.id ≤ b.id

/-- The better of the best so far and another. -/
lemma foldl_earlier {l : List Declaration} {b : Declaration}
    (h : (b :: l).Pairwise fun a b => a.id < b.id) :
    ∃ d ∈ b :: l, l.foldl (fun best d => match best with
      | none => some d
      | some b => if d.start < b.start then some d else some b) (some b) = some d ∧
        ∀ d' ∈ b :: l, Earlier d d' := by
  induction l generalizing b with
  | nil =>
    refine ⟨b, List.mem_cons_self, rfl, ?_⟩
    intro d' hd'
    rw [List.mem_singleton.mp hd']
    exact Or.inr ⟨rfl, Nat.le_refl _⟩
  | cons c l ih =>
    obtain ⟨hb, hcl⟩ := List.pairwise_cons.mp h
    obtain ⟨hc, hl⟩ := List.pairwise_cons.mp hcl
    rw [List.foldl_cons]
    by_cases hlt : c.start < b.start
    · obtain ⟨d, hd, heq, hleast⟩ := ih hcl
      refine ⟨d, List.mem_cons_of_mem _ hd, ?_, ?_⟩
      · dsimp only
        rw [if_pos hlt]
        exact heq
      · intro d' hd'
        rcases List.mem_cons.mp hd' with rfl | hd'
        · rcases hleast c List.mem_cons_self with hdc | ⟨hdc, -⟩
          · exact Or.inl (Nat.lt_trans hdc hlt)
          · exact Or.inl (hdc ▸ hlt)
        · exact hleast d' hd'
    · have hbl : (b :: l).Pairwise fun a b => a.id < b.id :=
        List.pairwise_cons.mpr ⟨fun a ha => hb a (List.mem_cons_of_mem _ ha), hl⟩
      obtain ⟨d, hd, heq, hleast⟩ := ih hbl
      refine ⟨d, ?_, ?_, ?_⟩
      · rcases List.mem_cons.mp hd with rfl | hd
        · exact List.mem_cons_self
        · exact List.mem_cons_of_mem _ (List.mem_cons_of_mem _ hd)
      · dsimp only
        rw [if_neg hlt]
        exact heq
      · intro d' hd'
        rcases List.mem_cons.mp hd' with rfl | hd'
        · exact hleast d' List.mem_cons_self
        · rcases List.mem_cons.mp hd' with rfl | hd'
          · have hdb := hleast b List.mem_cons_self
            have hbc := hb d' List.mem_cons_self
            rcases hdb with hdb | ⟨hdb, hid⟩
            · exact Or.inl (Nat.lt_of_lt_of_le hdb (not_lt.mp hlt))
            · rcases Nat.lt_or_eq_of_le (not_lt.mp hlt) with hlt | heq
              · exact Or.inl (hdb ▸ hlt)
              · exact Or.inr ⟨hdb.trans heq, Nat.le_trans hid (Nat.le_of_lt hbc)⟩
          · exact hleast d' (List.mem_cons_of_mem _ hd')

/-- A lookup answers nothing where no declaration of the key stands, and else the earliest. -/
theorem earliest_spec {log : List Event} {held : List Declaration} (h : Ordered log held)
    (key : Key) : match earliest held key with
      | none => ∀ d ∈ held, d.key ≠ key
      | some d => d ∈ held ∧ d.key = key ∧ ∀ d' ∈ held, d'.key = key → Earlier d d' := by
  have hmem : ∀ d, d ∈ held.filter (fun d => d.key = key) ↔ d ∈ held ∧ d.key = key := by
    intro d
    rw [List.mem_filter, decide_eq_true_iff]
  have hordered := h.ordered.sublist (List.filter_sublist (l := held)
    (p := fun d => decide (d.key = key)))
  rw [earliest]
  cases hl : held.filter fun d => d.key = key with
  | nil =>
    intro d hd hkey
    have hin := (hmem d).mpr ⟨hd, hkey⟩
    rw [hl] at hin
    cases hin
  | cons b l =>
    rw [hl] at hmem hordered
    obtain ⟨d, hd, heq, hleast⟩ := foldl_earlier hordered
    rw [List.foldl_cons]
    dsimp only
    rw [heq]
    obtain ⟨hheld, hkey⟩ := (hmem d).mp hd
    exact ⟨hheld, hkey, fun d' hd' hkey' => hleast d' ((hmem d').mpr ⟨hd', hkey'⟩)⟩

/-- The earliest of a key's is the one that every other of the key's comes after. -/
lemma earliest_eq_some {log : List Event} {held : List Declaration} (h : Ordered log held)
    {d : Declaration} (hd : d ∈ held) (hleast : ∀ d' ∈ held, d'.key = d.key → Earlier d d') :
    earliest held d.key = some d := by
  have hspec := earliest_spec h d.key
  cases hearliest : earliest held d.key with
  | none =>
    rw [hearliest] at hspec
    exact absurd rfl (hspec d hd)
  | some e =>
    rw [hearliest] at hspec
    obtain ⟨he, hkey, hspec⟩ := hspec
    have hde := hleast e he hkey
    have hed := hspec d hd rfl
    refine congrArg some (h.unique he hd ?_)
    rcases hde with hde | ⟨hde, hid⟩ <;> rcases hed with hed | ⟨hed, hid'⟩
    · exact absurd hed (Nat.lt_asymm hde)
    · exact absurd hde (hed ▸ Nat.lt_irrefl _)
    · exact absurd hed (hde ▸ Nat.lt_irrefl _)
    · exact Nat.le_antisymm hid' hid

lemma earliest_eq_none {log : List Event} {held : List Declaration} (h : Ordered log held)
    {key : Key} (hnone : ∀ d ∈ held, d.key ≠ key) : earliest held key = none := by
  have hspec := earliest_spec h key
  cases hearliest : earliest held key with
  | none => rfl
  | some e =>
    rw [hearliest] at hspec
    exact absurd hspec.2.1 (hnone e hspec.1)

end MarkdownCore.Declarations
