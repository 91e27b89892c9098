import MarkdownCore.Library.Links
import MarkdownCore.Delimiter.Stack

/-!
# The entries on the stack

The entries on the stack are linked both ways from its top, those of the pool one way, and no entry
is on both. An entry that is removed leaves the stack between its neighbours and becomes the first
of the pool; the counts of the entries that can open and that can close follow.
-/

namespace MarkdownCore.Delimiter

open Links

variable {K : Type} {s : State K} {stack pool : List ℕ}

/-- The entries on the stack, from the bottom, and the entries of the pool. -/
structure Stacked (s : State K) (stack pool : List ℕ) : Prop where
  nodup : (stack ++ pool).Nodup
  previous : ∀ e ∈ stack, (s.entries e).previous = prior stack e
  next : ∀ e ∈ stack, (s.entries e).next = Links.next stack e
  last : s.lastDelim = stack.getLast?
  pooled : ∀ e ∈ pool, (s.entries e).next = Links.next pool e
  free : s.freeDelimiters = pool.head?
  openers : ∀ r, s.delimOpeners r =
    stack.countP fun e => (s.entries e).canOpen && (s.entries e).rule = r
  closers : ∀ r, s.delimClosers r =
    stack.countP fun e => (s.entries e).canClose && (s.entries e).rule = r

/-- An entry without its links. -/
def Entry.bare (e : Entry) : Entry := { e with previous := none, next := none }

lemma bare_canOpen {a b : Entry} (h : a.bare = b.bare) : a.canOpen = b.canOpen := by
  have hopen : a.bare.canOpen = b.bare.canOpen := congrArg Entry.canOpen h
  exact hopen

lemma bare_canClose {a b : Entry} (h : a.bare = b.bare) : a.canClose = b.canClose := by
  have hclose : a.bare.canClose = b.bare.canClose := congrArg Entry.canClose h
  exact hclose

lemma bare_rule {a b : Entry} (h : a.bare = b.bare) : a.rule = b.rule := by
  have hrule : a.bare.rule = b.bare.rule := congrArg Entry.rule h
  exact hrule

lemma bare_node {a b : Entry} (h : a.bare = b.bare) : a.node = b.node := by
  have hnode : a.bare.node = b.bare.node := congrArg Entry.node h
  exact hnode

/-! ### Removal -/

/-- The entries once one has left the stack for the pool. -/
def removed (entries : ℕ → Entry) (free : Option ℕ) (a e : ℕ) : Entry :=
  if e = a then { entries e with next := free }
  else
    { entries e with
      previous := if (entries a).next = some e then (entries a).previous else (entries e).previous
      next := if (entries a).previous = some e then (entries a).next else (entries e).next }

lemma bare_removed (entries : ℕ → Entry) (free : Option ℕ) (a e : ℕ) :
    (removed entries free a e).bare = (entries e).bare := by
  rw [removed]
  split <;> rfl

@[simp] lemma removeDelimiter_scaffolds (s : State K) (a : ℕ) :
    (s.removeDelimiter a).scaffolds = s.scaffolds := by
  rw [State.removeDelimiter]
  cases (s.entries a).next <;> cases (s.entries a).previous <;> rfl

@[simp] lemma removeDelimiter_nodes (s : State K) (a : ℕ) :
    (s.removeDelimiter a).nodes = s.nodes := by
  rw [State.removeDelimiter]
  cases (s.entries a).next <;> cases (s.entries a).previous <;> rfl

@[simp] lemma removeDelimiter_error (s : State K) (a : ℕ) :
    (s.removeDelimiter a).error = s.error := by
  rw [State.removeDelimiter]
  cases (s.entries a).next <;> cases (s.entries a).previous <;> rfl

@[simp] lemma removeDelimiter_free (s : State K) (a : ℕ) :
    (s.removeDelimiter a).freeDelimiters = some a := by
  rw [State.removeDelimiter]

lemma removeDelimiter_last (s : State K) (a : ℕ) :
    (s.removeDelimiter a).lastDelim =
      if (s.entries a).next = none then (s.entries a).previous else s.lastDelim := by
  rw [State.removeDelimiter]
  cases (s.entries a).next <;> cases (s.entries a).previous <;> rfl

/-- A count changes where an entry of its rule counts. -/
lemma counted (counts : Rule → ℤ) (change : ℤ) (can : Bool) (rule r : Rule) :
    (if can then Function.update counts rule (counts rule + change) else counts) r =
      counts r + if can && rule = r then change else 0 := by
  cases can with
  | false => simp
  | true =>
    by_cases hr : rule = r
    · simp [hr]
    · simp [hr, Function.update_of_ne (Ne.symm hr)]

lemma removeDelimiter_openers (s : State K) (a : ℕ) (r : Rule) :
    (s.removeDelimiter a).delimOpeners r = s.delimOpeners r +
      if (s.entries a).canOpen && (s.entries a).rule = r then -1 else 0 := by
  refine Eq.trans ?_ (counted s.delimOpeners (-1) (s.entries a).canOpen (s.entries a).rule r)
  rw [State.removeDelimiter]
  cases (s.entries a).next <;> cases (s.entries a).previous <;> rfl

lemma removeDelimiter_closers (s : State K) (a : ℕ) (r : Rule) :
    (s.removeDelimiter a).delimClosers r = s.delimClosers r +
      if (s.entries a).canClose && (s.entries a).rule = r then -1 else 0 := by
  refine Eq.trans ?_ (counted s.delimClosers (-1) (s.entries a).canClose (s.entries a).rule r)
  rw [State.removeDelimiter]
  cases (s.entries a).next <;> cases (s.entries a).previous <;> rfl

lemma removeDelimiter_entries {a : ℕ} (hprevious : (s.entries a).previous ≠ some a) :
    (s.removeDelimiter a).entries = removed s.entries s.freeDelimiters a := by
  funext e
  have hmade : (s.removeDelimiter a).entries e = removed s.entries s.freeDelimiters a e := by
    rw [State.removeDelimiter]
    cases hp : (s.entries a).previous <;> cases hn : (s.entries a).next <;>
      simp only [State.setEntry, Function.update_apply, removed, hp, hn] <;>
      apply Entry.ext <;>
      simp only [apply_ite Entry.previous, apply_ite Entry.next, apply_ite Entry.node,
        apply_ite Entry.owner, apply_ite Entry.position, apply_ite Entry.kind,
        apply_ite Entry.length, apply_ite Entry.rule, apply_ite Entry.canOpen,
        apply_ite Entry.canClose] <;>
      grind
  exact hmade

section

variable {before after : List ℕ} {a : ℕ}

lemma Stacked.next_split (h : Stacked s (before ++ a :: after) pool) :
    (s.entries a).next = after.head? := by
  have hnodup := (List.nodup_append.mp h.nodup).1
  have ha : a ∉ before := fun hin =>
    (List.nodup_append.mp hnodup).2.2 a hin a List.mem_cons_self rfl
  rw [h.next a (by simp), Links.next_split ha]

lemma Stacked.previous_split (h : Stacked s (before ++ a :: after) pool) :
    (s.entries a).previous = before.getLast? := by
  have hnodup := (List.nodup_append.mp h.nodup).1
  have ha : a ∉ after := (List.nodup_cons.mp (List.nodup_append.mp hnodup).2.1).1
  rw [h.previous a (by simp), prior_split ha]

lemma Stacked.entries_removed (h : Stacked s (before ++ a :: after) pool) :
    (s.removeDelimiter a).entries = removed s.entries s.freeDelimiters a := by
  have hnodup := (List.nodup_append.mp h.nodup).1
  refine removeDelimiter_entries ?_
  rw [h.previous_split]
  intro heq
  exact (List.nodup_append.mp hnodup).2.2 a (List.mem_of_getLast? heq) a List.mem_cons_self rfl

/-- An entry leaves the stack, wherever it stands, and the pool has it first. -/
theorem Stacked.remove (h : Stacked s (before ++ a :: after) pool) :
    Stacked (s.removeDelimiter a) (before ++ after) (a :: pool) := by
  have hentries := h.entries_removed
  have hnext := h.next_split
  have hprevious := h.previous_split
  have hstack := (List.nodup_append.mp h.nodup).1
  have hnodup := h.nodup
  simp only [List.nodup_append, List.nodup_cons, List.mem_append, List.mem_cons] at hnodup
  have hne : ∀ e ∈ before ++ after, e ≠ a := by
    simp only [List.mem_append]
    grind
  have hin : ∀ e ∈ before ++ after, e ∈ before ++ a :: after := by
    simp only [List.mem_append, List.mem_cons]
    grind
  have hpool : ∀ e ∈ pool, e ≠ a ∧ e ∉ before ∧ e ∉ after := by grind
  have hopen : ∀ e, ((s.removeDelimiter a).entries e).canOpen = (s.entries e).canOpen := by
    intro e
    rw [hentries]
    exact bare_canOpen (bare_removed _ _ _ _)
  have hclose : ∀ e, ((s.removeDelimiter a).entries e).canClose = (s.entries e).canClose := by
    intro e
    rw [hentries]
    exact bare_canClose (bare_removed _ _ _ _)
  have hrule : ∀ e, ((s.removeDelimiter a).entries e).rule = (s.entries e).rule := by
    intro e
    rw [hentries]
    exact bare_rule (bare_removed _ _ _ _)
  refine ⟨?_, fun e he => ?_, fun e he => ?_, ?_, fun e he => ?_, by simp, fun r => ?_,
    fun r => ?_⟩
  · simp only [List.nodup_append, List.nodup_cons, List.mem_append, List.mem_cons]
    grind
  · rw [hentries, removed, if_neg (hne e he)]
    dsimp only
    rw [hprevious, hnext, h.previous e (hin e he), prior_erase hstack he]
  · rw [hentries, removed, if_neg (hne e he)]
    dsimp only
    rw [hprevious, hnext, h.next e (hin e he), next_erase hstack he]
  · rw [removeDelimiter_last, hnext, hprevious, h.last, List.getLast?_append,
      List.getLast?_append, List.getLast?_cons]
    cases after with
    | nil => simp
    | cons b after => simp [List.getLast?_cons]
  · rw [hentries, removed]
    by_cases heq : e = a
    · rw [if_pos heq, heq, Links.next, if_pos rfl]
      exact h.free
    · have he' := (List.mem_cons.mp he).resolve_left heq
      obtain ⟨-, hbefore, hafter⟩ := hpool e he'
      rw [if_neg heq]
      dsimp only
      rw [hprevious, if_neg fun hlast => hbefore (List.mem_of_getLast? hlast), h.pooled e he',
        Links.next, if_neg (Ne.symm heq)]
  · rw [removeDelimiter_openers, h.openers r]
    simp only [hopen, hrule, List.countP_append, List.countP_cons]
    split
    next =>
      push_cast
      omega
    next => simp
  · rw [removeDelimiter_closers, h.closers r]
    simp only [hclose, hrule, List.countP_append, List.countP_cons]
    split
    next =>
      push_cast
      omega
    next => simp

/-- What the scaffolds and the nodes are does not matter to the stack. -/
lemma Stacked.with_nodes (h : Stacked s stack pool) (f : ℕ → Scaffold)
    (nodes : ℕ → Option (Node K)) :
    Stacked { s with scaffolds := f, nodes := nodes } stack pool :=
  ⟨h.nodup, h.previous, h.next, h.last, h.pooled, h.free, h.openers, h.closers⟩

lemma Stacked.erase (h : Stacked s stack pool) (ha : a ∈ stack) :
    Stacked (s.removeDelimiter a) (stack.erase a) (a :: pool) := by
  obtain ⟨before, after, rfl⟩ := List.append_of_mem ha
  have hnodup := (List.nodup_append.mp h.nodup).1
  have hbefore : a ∉ before := fun hin =>
    (List.nodup_append.mp hnodup).2.2 a hin a List.mem_cons_self rfl
  rw [List.erase_append_right _ hbefore, List.erase_cons_head]
  exact h.remove

lemma Stacked.bare_erase (h : Stacked s stack pool) (ha : a ∈ stack) (e : ℕ) :
    ((s.removeDelimiter a).entries e).bare = (s.entries e).bare := by
  obtain ⟨before, after, rfl⟩ := List.append_of_mem ha
  rw [h.entries_removed]
  exact bare_removed _ _ _ _

end

end MarkdownCore.Delimiter
