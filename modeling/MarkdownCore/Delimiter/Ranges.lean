import MarkdownCore.Delimiter.Process

/-!
# Searches and reductions over the stack

What the walks over the entries find and leave, by where the entries stand on the stack.
-/

namespace MarkdownCore.Delimiter

variable {K : Type} {s s' s'' : State K} {stack pool below range above : List ℕ}

/-! ### Entries removed and nothing else -/

/-- The nodes and their lists are as they were, and every entry but for its links. -/
structure Unmoved (s s' : State K) : Prop where
  scaffolds : s'.scaffolds = s.scaffolds
  nodes : s'.nodes = s.nodes
  bare : ∀ e, (s'.entries e).bare = (s.entries e).bare

lemma Unmoved.refl (s : State K) : Unmoved s s := ⟨rfl, rfl, fun _ => rfl⟩

lemma Unmoved.trans (h : Unmoved s s') (h' : Unmoved s' s'') : Unmoved s s'' :=
  ⟨h'.scaffolds.trans h.scaffolds, h'.nodes.trans h.nodes, fun e => (h'.bare e).trans (h.bare e)⟩

lemma bare_position {a b : Entry} (h : a.bare = b.bare) : a.position = b.position := by
  have hposition : a.bare.position = b.bare.position := congrArg Entry.position h
  exact hposition

lemma bare_kind {a b : Entry} (h : a.bare = b.bare) : a.kind = b.kind := by
  have hkind : a.bare.kind = b.bare.kind := congrArg Entry.kind h
  exact hkind

lemma bare_length {a b : Entry} (h : a.bare = b.bare) : a.length = b.length := by
  have hlength : a.bare.length = b.bare.length := congrArg Entry.length h
  exact hlength

lemma bare_owner {a b : Entry} (h : a.bare = b.bare) : a.owner = b.owner := by
  have howner : a.bare.owner = b.bare.owner := congrArg Entry.owner h
  exact howner

lemma Stacked.unmoved (h : Stacked s stack pool) {a : ℕ} (ha : a ∈ stack) :
    Unmoved s (s.removeDelimiter a) := ⟨by simp, by simp, h.bare_erase ha⟩

lemma undecide_unmoved (s : State K) (entry : Entry) : Unmoved s (s.undecide entry) := by
  rw [State.undecide]
  split
  · exact .refl s
  · exact ⟨rfl, rfl, fun _ => rfl⟩

lemma Stacked.undecide (h : Stacked s stack pool) (entry : Entry) :
    Stacked (s.undecide entry) stack pool := by
  rw [State.undecide]
  split
  · exact h
  · exact ⟨h.nodup, h.previous, h.next, h.last, h.pooled, h.free, h.openers, h.closers⟩

/-! ### Where entries stand -/

lemma Stacked.last_before {rest : List ℕ} (h : Stacked s (stack ++ rest) pool) :
    s.lastBefore rest.head? = stack.getLast? := by
  cases rest with
  | nil =>
    rw [List.append_nil] at h
    exact h.last
  | cons a rest => exact h.previous_split

/-! ### Reduction -/

/-- The last boundary of some entries, unless one after them is kept. -/
def kept (entries : ℕ → Entry) (boundary : Bool) (range : List ℕ) : List ℕ :=
  if boundary then [] else
    ((range.filter fun e => (entries e).kind = .boundary).getLast?).toList

lemma kept_congr {entries entries' : ℕ → Entry} {boundary : Bool}
    (h : ∀ e, (entries' e).bare = (entries e).bare) :
    kept entries' boundary range = kept entries boundary range := by
  have hkind : ∀ e, (entries' e).kind = (entries e).kind := fun e => bare_kind (h e)
  simp only [kept, hkind]

lemma kept_sublist (entries : ℕ → Entry) (boundary : Bool) (range : List ℕ) :
    (kept entries boundary range).Sublist range := by
  rw [kept]
  split
  next => exact List.nil_sublist range
  next =>
    cases hlast : (range.filter fun e => (entries e).kind = .boundary).getLast? with
    | none => exact List.nil_sublist range
    | some e =>
      exact List.singleton_sublist.mpr (List.mem_filter.mp (List.mem_of_getLast? hlast)).1

/-- A range goes but for its last boundary. -/
lemma Stacked.reduceRange {rest : List ℕ} {fuel : ℕ} (boundary : Bool)
    (h : Stacked s (below ++ (range ++ rest)) pool) (hfuel : range.length < fuel) :
    ∃ s' pool', State.reduceRange below.getLast? fuel (below ++ range).getLast? boundary s =
        some s' ∧
      Stacked s' (below ++ (kept s.entries boundary range ++ rest)) pool' ∧ Unmoved s s' := by
  induction fuel generalizing range rest boundary s pool with
  | zero => cases hfuel
  | succ fuel ih =>
    rw [State.reduceRange]
    rcases range.eq_nil_or_concat with rfl | ⟨range, e, rfl⟩
    · rw [List.append_nil, if_pos rfl]
      refine ⟨s, pool, rfl, ?_, .refl s⟩
      have hnone : kept s.entries boundary [] = [] := by
        rw [kept]
        split <;> rfl
      rw [hnone]
      exact h
    · rw [List.concat_eq_append] at h hfuel ⊢
      rw [List.append_assoc, List.singleton_append] at h
      have hlast : (below ++ (range ++ [e])).getLast? = some e := by
        rw [← List.append_assoc, List.getLast?_concat]
      have hstack := (List.nodup_append.mp h.nodup).1
      have hne : some e ≠ below.getLast? := fun heq =>
        (List.nodup_append.mp hstack).2.2 e (List.mem_of_getLast? heq.symm) e (by simp) rfl
      have h' := h
      rw [← List.append_assoc] at h'
      have hprevious : (s.entries e).previous = (below ++ range).getLast? := h'.previous_split
      rw [List.length_append, List.length_singleton] at hfuel
      rw [hlast, if_neg hne, Option.bind_some]
      dsimp only
      by_cases hboundary : (s.entries e).kind = .boundary ∧ boundary = false
      · rw [if_pos hboundary, hprevious]
        obtain ⟨s', pool', heq, hstacked, hunmoved⟩ := ih true h
          (Nat.lt_of_succ_lt_succ hfuel)
        refine ⟨s', pool', heq, ?_, hunmoved⟩
        have hkept : kept s.entries boundary (range ++ [e]) = [e] := by
          simp [kept, hboundary]
        rw [hkept]
        exact hstacked
      · rw [if_neg hboundary, hprevious]
        obtain ⟨t, ht⟩ : ∃ t, t = (if (s.entries e).kind = .marker ∧ (s.entries e).canOpen = true ∧
            s.asked (s.entries e).rule = true then s.undecide (s.entries e) else s) := ⟨_, rfl⟩
        have hunmoved₁ : Unmoved s t := by
          rw [ht]
          split
          next => exact undecide_unmoved s _
          next => exact .refl s
        have hstacked₁ : Stacked t (below ++ (range ++ e :: rest)) pool := by
          rw [ht]
          split
          next => exact h.undecide _
          next => exact h
        rw [← ht]
        have hunmoved₂ := hunmoved₁.trans (hstacked₁.unmoved (a := e) (by simp))
        have hstacked₂ := hstacked₁
        rw [← List.append_assoc] at hstacked₂
        have hremoved := hstacked₂.remove
        rw [List.append_assoc] at hremoved
        obtain ⟨s', pool', heq, hstacked', hunmoved'⟩ := ih boundary hremoved
          (Nat.lt_of_succ_lt_succ hfuel)
        refine ⟨s', pool', heq, ?_, hunmoved₂.trans hunmoved'⟩
        have hkept : kept s.entries boundary (range ++ [e]) = kept s.entries boundary range := by
          cases boundary with
          | true => rfl
          | false =>
            have hkind : ¬(s.entries e).kind = .boundary := fun hkind => hboundary ⟨hkind, rfl⟩
            simp [kept, hkind]
        rw [hkept, ← kept_congr hunmoved₂.bare]
        exact hstacked'

lemma Stacked.reduceDelimiterRange {rest : List ℕ} {fuel : ℕ}
    (h : Stacked s (below ++ (range ++ rest)) pool) (hfuel : range.length < fuel) :
    ∃ s' pool', s.reduceDelimiterRange fuel below.getLast? rest.head? = some s' ∧
      Stacked s' (below ++ (kept s.entries false range ++ rest)) pool' ∧ Unmoved s s' := by
  have h' := h
  rw [← List.append_assoc] at h'
  rw [State.reduceDelimiterRange, h'.last_before]
  exact h.reduceRange false hfuel

/-! ### Searches -/

/-- The last of some entries that a closer may pair with, none of those after it below the floor. -/
def openerOf (entries : ℕ → Entry) (spec : RuleSpec K) (closer : Entry) (bottom : ℕ)
    (before : List ℕ) : Option ℕ :=
  (before.reverse.takeWhile fun e => bottom ≤ (entries e).position).find?
    fun e => admits spec (entries e) closer

lemma Stacked.findOpener {before rest : List ℕ} {fuel : ℕ} (h : Stacked s (before ++ rest) pool)
    (spec : RuleSpec K) (closer : Entry) (bottom : ℕ) (hfuel : before.length < fuel) :
    s.findOpener spec closer bottom fuel before.getLast? =
      openerOf s.entries spec closer bottom before := by
  induction fuel generalizing before rest with
  | zero => cases hfuel
  | succ fuel ih =>
    rw [State.findOpener]
    rcases before.eq_nil_or_concat with rfl | ⟨before, e, rfl⟩
    · rfl
    · rw [List.concat_eq_append] at h hfuel ⊢
      rw [List.append_assoc, List.singleton_append] at h
      rw [List.length_append, List.length_singleton] at hfuel
      rw [List.getLast?_concat, Option.bind_some, openerOf, List.reverse_append,
        List.reverse_singleton, List.singleton_append, List.takeWhile_cons]
      by_cases hbelow : (s.entries e).position < bottom
      · rw [if_pos hbelow, if_neg fun hle => not_lt.mpr (of_decide_eq_true hle) hbelow]
        rfl
      · rw [if_neg hbelow, if_pos (decide_eq_true (not_lt.mp hbelow)), List.find?_cons]
        cases hadmits : admits spec (s.entries e) closer with
        | true => rfl
        | false =>
          rw [h.previous_split]
          exact ih h (Nat.lt_of_succ_lt_succ hfuel)

lemma openerOf_eq_some {entries : ℕ → Entry} {spec : RuleSpec K} {closer : Entry} {bottom o : ℕ}
    {before : List ℕ} (h : openerOf entries spec closer bottom before = some o) :
    admits spec (entries o) closer = true ∧ bottom ≤ (entries o).position ∧
      ∃ l l', before = l ++ o :: l' := by
  have hadmits := List.find?_some h
  have hmem := List.mem_of_find?_eq_some h
  have hfloor := List.mem_takeWhile_imp (p := fun e => decide (bottom ≤ (entries e).position)) hmem
  have hin := List.mem_reverse.mp ((List.takeWhile_prefix _).sublist.mem hmem)
  exact ⟨hadmits, of_decide_eq_true hfloor, List.append_of_mem hin⟩

/-- The range begins at its first entry that is not below its bottom. -/
lemma Stacked.firstRelevant {stackBottom fuel : ℕ} (closer : Option ℕ)
    (h : Stacked s (below ++ (range ++ above)) pool)
    (hrange : ∀ e ∈ range, stackBottom ≤ (s.entries e).position)
    (hbelow : ∀ e ∈ below.getLast?, (s.entries e).position < stackBottom)
    (hfuel : range.length < fuel) :
    s.firstRelevant stackBottom fuel (below ++ range).getLast? closer =
      (below.getLast?, range.head?.or closer) := by
  induction fuel generalizing range above closer with
  | zero => cases hfuel
  | succ fuel ih =>
    rcases range.eq_nil_or_concat with rfl | ⟨range, e, rfl⟩
    · rw [List.append_nil]
      cases hlast : below.getLast? with
      | none => rfl
      | some b =>
        rw [State.firstRelevant, if_neg (not_le.mpr (hbelow b hlast))]
        rfl
    · rw [List.concat_eq_append] at *
      rw [List.append_assoc, List.singleton_append] at h
      have h' := h
      rw [← List.append_assoc] at h'
      rw [List.length_append, List.length_singleton] at hfuel
      rw [← List.append_assoc, List.getLast?_concat, State.firstRelevant,
        if_pos (hrange e (by simp)), h'.previous_split,
        ih (some e) h (fun x hx => hrange x (List.mem_append_left _ hx))
          (Nat.lt_of_succ_lt_succ hfuel)]
      cases range <;> rfl

end MarkdownCore.Delimiter
